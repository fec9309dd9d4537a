import Flange.Expr.Linear
import Flange.Graph.Blocks
import Flange.Reduction.Differentiation
import Flange.Reduction.Lowering
import Flange.System

/-! # Dummy derivatives

With an equation its derivatives hold too, so that as many derivatives of variables must give up
their meaning and become plain variables. Block by block and level by level they are chosen where
the differentiated equations can be solved for them; variables with initial values keep their
derivatives as long as there is a choice.
-/

namespace Flange

namespace Differentiation

variable (d : Differentiation)

/-- An equation points to those that contain the variable it is matched to. -/
def dependencies : Digraph :=
  let nodes := d.leaves
  { nodes
    edges := nodes.flatMap fun i =>
      match d.matchedVar? i with
      | none => []
      | some j => (nodes.filter fun k => k != i && (d.adjacent.getD k []).contains j).map
          fun k => (i, k) }

/-- The highest derivatives of the equations, in blocks that can be solved one after another. -/
def blocks : List (List Nat) := d.dependencies.blocks

/-- An equation points to its derivative. -/
def descent : Digraph where
  nodes := List.range d.exprs.length
  edges := (List.range d.exprs.length).filterMap fun i => (d.derivedEqOf i).map fun k => (i, k)

/-- The variable whose derivative is variable `j`. -/
def integral? (j : Nat) : Option Nat := d.derivedVar.findIdx? (· == some j)

end Differentiation

/-- How much a derivative of the function is worth keeping. -/
structure StatePreference where
  /-- 2 for a strong initial value, 1 for a weak one -/
  initialRank : Nat
  /-- declared as a variable -/
  isVariable : Bool
  deriving DecidableEq, Repr

namespace StatePreference

def le (p q : StatePreference) : Bool :=
  p.initialRank < q.initialRank ||
    (p.initialRank == q.initialRank && (!p.isVariable || q.isVariable))

end StatePreference

/-- What the choice of dummy derivatives depends on, apart from the equations. -/
structure DummyContext where
  kind? : Var → Option SymKind
  strong : InitialValues
  weak : InitialValues

namespace DummyContext

def preference (ctx : DummyContext) (v : Var) : StatePreference where
  initialRank := if ctx.strong.has v.base then 2 else if ctx.weak.has v.base then 1 else 0
  isVariable := ctx.kind? v.base == some .var

/-- Less preferred first, then by text. -/
def before (ctx : DummyContext) (v w : Var) : Bool :=
  let p := ctx.preference v
  let q := ctx.preference w
  if p = q then v.display ≤ w.display else p.le q

end DummyContext

/-- The equations and variables of one level of a block, with the depth of each equation. -/
structure DummyLevel where
  depths : List Nat
  equations : List Nat
  vars : List Nat
  jacobian : List (List Expr)

/-- A block taken apart: its levels of equations, from the most differentiated ones, and the
derivative chosen for each differentiated equation. -/
structure DummyBlock where
  levels : List (List Nat) := []
  chosen : List (Nat × Nat) := []

namespace DummyLevel

variable (d : Differentiation) (ctx : DummyContext)

/-- The top level of a block. -/
def top (block : List Nat) : DummyLevel :=
  let sorted := d.descent.byDepth block
  let eqs := sorted.map Prod.snd
  let vars := eqs.filterMap d.matchedVar?
  { depths := sorted.map Prod.fst, equations := eqs, vars
    jacobian := if sorted.all fun p => p.1 == 0 then []
      else eqs.map fun i => vars.map fun j =>
        (d.exprs.getD i .zero).partialDerivative (.var (d.var j)) }

/-- How many equations of the level are derivatives. -/
def differentiated (l : DummyLevel) : Nat := l.depths.countP (· != 0)

/-- The order of the columns, less preferred ones first. -/
def columnOrder (l : DummyLevel) : List Nat :=
  sortedBy (fun a b => ctx.before (d.var (l.vars.getD a 0)) (d.var (l.vars.getD b 0)))
    (List.range l.vars.length)

def select {α : Type} (xs : List α) (is : List Nat) : List α := is.filterMap fun i => xs[i]?

/-- The derivatives chosen at this level and the level below it. -/
def descend (l : DummyLevel) : Except ModelError (List (Nat × Nat) × DummyLevel) :=
  let m := l.differentiated
  let order := l.columnOrder d ctx
  let vars := select l.vars order
  let rows := (l.jacobian.take m).map (select · order)
  let eqs := l.equations.take m
  let pivots := Expr.pivotColumns rows
  if pivots.length ≠ m then
    .error
      { cause := .reduction .dummySelection, equations := eqs.filterMap fun i => d.exprs[i]?
        symbols := vars.map fun j => .var (d.var j) }
  else
    let chosen := select vars pivots
    .ok (eqs.zip chosen,
      { depths := (l.depths.take m).map (· - 1)
        equations := eqs.filterMap d.parent?
        vars := chosen.filterMap d.integral?
        jacobian := rows.map (select · pivots) })

/-- Goes down from a level to the equations that were never differentiated. -/
def levels : (fuel : Nat) → DummyLevel → Except ModelError DummyBlock
  | 0, l => .ok ⟨[l.equations], []⟩
  | fuel + 1, l =>
    if l.differentiated = 0 then .ok ⟨[l.equations], []⟩
    else do
      let (chosen, below) ← descend d ctx l
      let rest ← levels fuel below
      return ⟨l.equations :: rest.levels, chosen ++ rest.chosen⟩

end DummyLevel

/-- Equations in which dummies stand for the chosen derivatives, in first-order form. -/
structure DummySystem where
  /-- the chosen derivatives with their dummies -/
  dummies : List (Var × Var)
  exprs : List Expr
  lowered : Lowered
  /-- the structure of `exprs`, under a name that is no keyword -/
  structure_ : Structure

namespace DummySystem

def dummyName (v : Var) : String := "d_" ++ v.flatName

def block (d : Differentiation) (ctx : DummyContext) (b : List Nat) :
    Except ModelError DummyBlock :=
  let l := DummyLevel.top d b
  DummyLevel.levels d ctx (l.depths.foldl max 0) l

/-- The equations of a block, those that were never differentiated first. -/
def equationsOf (b : DummyBlock) : List Nat := b.levels.reverse.flatten

end DummySystem

/-- Chooses dummy derivatives in the given blocks and puts them in. -/
def Differentiation.dummies (d : Differentiation) (ctx : DummyContext) (blocks : List (List Nat))
    (known : List Var) (taken : List String) : Except ModelError DummySystem := do
  let bs ← blocks.mapM (DummySystem.block d ctx)
  let dummies : List (Var × Var) := (bs.flatMap DummyBlock.chosen).map fun p =>
    let v := d.var p.2
    (v, ⟨DummySystem.dummyName v, 0⟩)
  let es := (bs.flatMap DummySystem.equationsOf).filterMap fun i => d.exprs[i]?
  let lowered := lowerOrder known taken (es.map (Expr.substitute (Lowered.replacement dummies)))
  let s := Structure.ofExprs known lowered.exprs
  let unknowns := s.derivatives.length + s.algebraic.length
  if unknowns ≠ lowered.exprs.length then
    throw
      { cause := .reduction (.dummySubstitution lowered.exprs.length unknowns)
        equations := lowered.exprs }
  return { dummies, exprs := lowered.exprs, lowered, structure_ := s }

end Flange

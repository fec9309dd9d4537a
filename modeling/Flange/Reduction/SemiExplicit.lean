import Flange.Expr.Linear
import Flange.Graph.Blocks
import Flange.Reduction.Structure
import Flange.System

/-! # Semi-explicit form

The equations are solved for the derivatives of the states and for the other variables, block by
block, each solution going into the later blocks. What cannot be solved stays as a constraint on
variables that are kept.
-/

namespace Flange

structure SemiExplicit where
  states : List Var
  rates : List Expr
  algebraic : List Var
  constraints : List Expr
  observed : Observed
  deriving Repr

namespace SemiExplicit

/-- What the blocks solved so far give, and what they leave. -/
structure Progress where
  solved : List (Var × Expr) := []
  constraints : List Expr := []
  retained : List Var := []

namespace Progress

def replacement (p : Progress) : Replacement := p.solved.map fun (v, e) => (.var v, e)

def solve (p : Progress) (vs : List Var) (es : List Expr) : Progress :=
  { p with solved := p.solved ++ vs.zip es }

def keep (p : Progress) (vs : List Var) (es : List Expr) : Progress :=
  { p with constraints := p.constraints ++ es, retained := p.retained ++ vs }

/-- Solves the equations of one block for its variables, or keeps both. -/
def addBlock (solveBlocks : Bool) (p : Progress) (es : List Expr) (vs : List Var) : Progress :=
  let es := es.map (Expr.substitute p.replacement)
  let ss := vs.map Symbol.var
  match es, vs with
  | [e], [v] =>
    match e.solveLinear? (.var v) with
    | some sol => p.solve [v] [sol]
    | none => p.keep vs es
  | _, _ =>
    if solveBlocks && Expr.jointlyLinear es ss then
      match Expr.solveBlock? es ss with
      | some sols => p.solve vs sols
      | none => p.keep vs es
    else p.keep vs es

end Progress

/-- For each equation the variables that it may be solved for. -/
def candidates (s : Structure) : Adjacency Var :=
  s.perEquation.map fun vs => vs.filter fun v => !s.states.contains v

/-- Those of them in which the equation is linear. -/
def linearCandidates (es : List Expr) (adj : Adjacency Var) : Adjacency Var :=
  List.zipWith (fun e vs => vs.filter fun v => (e.linearCoeff? (.var v)).isSome) es adj

/-- Matches equations to variables, by linear occurrences only when that is possible. -/
def matching (es : List Expr) (adj : Adjacency Var) : Matching Var :=
  let m := Matching.maximum (linearCandidates es adj)
  if m.size < es.length then Matching.maximum adj else m

/-- An equation points to those in which its variable occurs. -/
def dependencies (adj : Adjacency Var) (m : Matching Var) : Digraph where
  nodes := List.range adj.length
  edges := m.pairs.flatMap fun (i, v) =>
    ((List.range adj.length).filter fun k => k != i && (adj.getD k []).contains v).map
      fun k => (i, k)

def solveBlocks (solveBlocks : Bool) (es : List Expr) (adj : Adjacency Var) (m : Matching Var) :
    Progress :=
  (dependencies adj m).blocks.foldl (fun p b =>
    p.addBlock solveBlocks (b.filterMap fun i => es[i]?) (b.filterMap m.matched?)) {}

def derivativeName (v : Var) : String := "der_" ++ v.name

/-- A kept derivative is renamed to a variable. -/
def renamed (v : Var) : Var := if v.isDerivative then ⟨derivativeName v, 0⟩ else v

def renames (retained : List Var) : Replacement :=
  (retained.filter Var.isDerivative).map fun v => (.var v, .var (renamed v))

/-- The semi-explicit form that the solved blocks give. -/
def ofProgress (s : Structure) (observed : Observed) (p : Progress) : SemiExplicit :=
  let σ := renames p.retained
  let solved := p.solved.map fun (v, e) => (v, e.substitute σ)
  let solvedVars := solved.filter fun q => !q.1.isDerivative
  let τ : Replacement := solvedVars.map fun (v, e) => (.var v, e)
  { states := s.states
    rates := s.states.map fun x => (solved.lookup x.der).getD (.var (renamed x.der))
    algebraic := p.retained.map renamed
    constraints := p.constraints.map (Expr.substitute σ)
    observed := solvedVars.foldl (fun o q => Observed.set o q.1 q.2)
      (observed.map fun (v, e) => (v, e.substitute τ)) }

/-- Derivatives that are left. -/
def leftover (x : SemiExplicit) : List Var :=
  sortVars ((x.rates ++ x.constraints ++ x.observed.map Prod.snd).flatMap Expr.derivatives)

end SemiExplicit

/-- Solves the equations as far as possible; no derivative may be left. -/
def Structure.semiExplicit (s : Structure) (es : List Expr) (observed : Observed)
    (solveBlocks : Bool) : Except ModelError SemiExplicit :=
  let adj := SemiExplicit.candidates s
  let m := SemiExplicit.matching es adj
  if m.size < es.length then
    .error
      { cause := .reduction .semiExplicit
        equations := (s.unmatchedEquations m).filterMap fun i => es[i]? }
  else
    let x := SemiExplicit.ofProgress s observed (SemiExplicit.solveBlocks solveBlocks es adj m)
    if x.leftover.isEmpty then .ok x
    else
      .error
        { cause := .reduction .inputDerivatives, symbols := x.leftover.map .var }

end Flange

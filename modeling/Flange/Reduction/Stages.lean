import Flange.Reduction.Alias
import Flange.Reduction.Dummy
import Flange.Reduction.Reduced

/-! # Reduction

From a flat system to a reduced one: aliases are eliminated, derivatives lowered to first order,
equations differentiated, dummy derivatives chosen, and the result is solved as far as possible.
-/

namespace Flange

structure ReductionOptions where
  /-- how many searches each equation may take -/
  maxSearches : Nat := 20
  eliminateAliases : Bool := true
  /-- solve blocks of several linear equations -/
  solveBlocks : Bool := true
  verbose : Bool := false

namespace Reduction

/-- The names that are not free for new variables. -/
def takenNames (s : EquationSystem) : List String :=
  s.unknowns.map Var.flatName ++ s.quantities.map fun q => q.2.name

/-- The aliases of the system; without elimination there are none. -/
def eliminateAliases (s : EquationSystem) (o : ReductionOptions) :
    Except (Failure × Aliases) Aliases :=
  if o.eliminateAliases then Aliases.run (Aliases.contextOf s) (Aliases.ofSystem s)
  else .ok (Aliases.ofSystem s)

def aliasLines (a : Aliases) (o : ReductionOptions) : List LogLine :=
  [a.summaryLine,
    ⟨summaryLevel o.verbose, s!"IndexReduction alias elimination left {a.exprs.length} equations.",
      [("n_observed", .count a.observed.length)]⟩]

/-- The aliases as a run: what was warned of is kept when they are refused. -/
def aliasRun (s : EquationSystem) (o : ReductionOptions) : Run Aliases :=
  match eliminateAliases s o with
  | .error (f, a) => ⟨.error f, [], a.warnings⟩
  | .ok a => ⟨.ok a, aliasLines a o, a.warnings⟩

def aliasStage (s : EquationSystem) (o : ReductionOptions) : Run Aliases :=
  if o.eliminateAliases then Run.stage "IndexReduction.alias_elimination" (aliasRun s o)
  else pure (Aliases.ofSystem s)

def lower (s : EquationSystem) (a : Aliases) : Lowered :=
  lowerOrder s.inputs (takenNames s) a.exprs

def lowerStage (s : EquationSystem) (a : Aliases) : Run Lowered :=
  Run.stage "IndexReduction.lower_derivative_orders" (pure (lower s a))

/-- The names that are not free after the first lowering. -/
def takenAfter (s : EquationSystem) (l : Lowered) : List String :=
  takenNames s ++ l.newVars.map Var.flatName

def structureLine (t : Structure) (equations : Nat) (verbose : Bool) : LogLine :=
  ⟨summaryLevel verbose, s!"IndexReduction input system: {equations} equations, " ++
    s!"{t.states.length} differential and {t.algebraic.length} algebraic variables.", []⟩

/-- The structure of the equations, when they are well posed. -/
def check (s : EquationSystem) (es : List Expr) : Except ModelError Structure :=
  let t := Structure.ofExprs s.inputs es
  match t.fault? es with
  | some e => .error e
  | none => .ok t

def checkStage (s : EquationSystem) (es : List Expr) (verbose : Bool) : Run Structure :=
  Run.stage "IndexReduction.check_system" do
    Run.line (structureLine (Structure.ofExprs s.inputs es) es.length verbose)
    Run.ofExcept (check s es)

def differentiationStage (t : Structure) (es : List Expr) (o : ReductionOptions) :
    Run Differentiation :=
  Run.stage "IndexReduction.pantelides" do
    let d ← Run.ofExcept (t.differentiate es o.maxSearches)
    Run.line ⟨summaryLevel o.verbose, "Pantelides algorithm completed. " ++
      s!"Equations (before|after): {t.size}|{d.exprs.length}",
      [("n_vars", .count d.vars.length)]⟩
    return d

def blockStage (d : Differentiation) : Run (List (List Nat)) :=
  Run.stage "IndexReduction.make_BLT_graph" (pure d.blocks)

def dummyContext (s : EquationSystem) (a : Aliases) : DummyContext :=
  { kind? := s.kind?, strong := a.strong, weak := a.weak }

def dummyLine (x : DummySystem) (verbose : Bool) : LogLine :=
  let names := sortedByText (fun n => n) (x.dummies.map fun p => p.2.display)
  ⟨summaryLevel verbose, s!"Dummy derivatives computed: {Quoted.quoteList names}",
    [("n_states", .count x.structure_.states.length),
      ("n_alg", .count x.structure_.algebraic.length)]⟩

def dummyStage (s : EquationSystem) (a : Aliases) (l : Lowered) (d : Differentiation)
    (blocks : List (List Nat)) (verbose : Bool) : Run DummySystem :=
  Run.stage "IndexReduction.dummy_derivatives" do
    let x ← Run.ofExcept (d.dummies (dummyContext s a) blocks s.inputs (takenAfter s l))
    Run.line (dummyLine x verbose)
    return x

def semiExplicitStage (x : DummySystem) (a : Aliases) (o : ReductionOptions) : Run SemiExplicit :=
  Run.stage "IndexReduction.convert_to_semi_explicit"
    (Run.ofExcept (x.structure_.semiExplicit x.exprs a.observed o.solveBlocks))

def summaryLine (r : ReducedSystem) (verbose : Bool) : LogLine :=
  ⟨summaryLevel verbose, s!"IndexReduction produced {r.states.length} states and " ++
    s!"{r.algebraic.length} algebraic variables.",
    [("states", .list (r.states.map fun v => .text v.display)),
      ("n_observed", .count r.observed.length)]⟩

end Reduction

open Reduction in
/-- Reduces a system. -/
def reduce (s : EquationSystem) (o : ReductionOptions := {}) : Run ReducedSystem := do
  let a ← aliasStage s o
  let l ← lowerStage s a
  let t ← checkStage s l.exprs o.verbose
  let d ← differentiationStage t l.exprs o
  let blocks ← blockStage d
  let x ← dummyStage s a l d blocks o.verbose
  let y ← semiExplicitStage x a o
  let r := ReducedSystem.ofSemiExplicit y s a.strong a.weak
  Run.line (summaryLine r o.verbose)
  return r

end Flange

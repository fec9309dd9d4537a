import Flange.Initial.Conditions

/-! # Problems

A reduced system with its initial condition and inputs, as numerical functions of time, states and
algebraic variables.
-/

namespace Flange

structure Problem (α : Type) where
  reduced : ReducedSystem
  span : List Rat
  initial : InitialConditions α
  inputs : InputFunctions

namespace Problem

variable {α : Type} [Scalar α] (p : Problem α)

/-- The value of the variable `v`. -/
def valueOf (t : Rat) (x y : Vec α) (v : Var) : α :=
  match ((p.reduced.states.zip x) ++ (p.reduced.algebraic.zip y)).lookup v with
  | some a => a
  | none =>
    match p.inputs.lookup v with
    | some f => Scalar.ofRat (f t)
    | none => Vec.zero

def valuation (t : Rat) (x y : Vec α) : Valuation α where
  time := Scalar.ofRat t
  par n := Scalar.ofRat (((p.reduced.knowns.lookup n).map Decimal.toRat).getD 0)
  var := p.valueOf t x y

/-- The diagonal of the mass matrix: one for each state, zero for each constraint. -/
def mass : Vec α :=
  p.reduced.states.map (fun _ => Scalar.ofRat 1) ++
    p.reduced.algebraic.map fun _ => Scalar.ofRat 0

def rates (t : Rat) (x y : Vec α) : Vec α :=
  p.reduced.rates.map (Expr.eval (p.valuation t x y))

/-- The rates of the states, when there is nothing but states. -/
def rhs (t : Rat) (x : Vec α) : Except Failure (Vec α) :=
  if p.reduced.isOde then .ok (p.rates t x []) else .error .needsOde

/-- What is left of the equations at the states and algebraic variables `s` with the derivatives
`sDot`. -/
def residual (t : Rat) (s sDot : Vec α) : Vec α :=
  let n := p.reduced.states.length
  let x := s.take n
  let y := s.drop n
  Vec.sub (sDot.take n) (p.rates t x y) ++
    p.reduced.constraints.map (Expr.eval (p.valuation t x y))

/-- The value at place `k` of each row. -/
def column (rows : List (Vec α)) (k : Nat) : Vec α := rows.map fun r => r.getD k Vec.zero

/-- A variable along a trajectory: `xs` and `ys` have a row for each state and each algebraic
variable. -/
def observe (s : Symbol) (ts : List Rat) (xs : List (Vec α)) (ys : Option (List (Vec α))) :
    Except Failure (Vec α) := do
  let e ← p.reduced.expressionFor s
  if e.hasDerivative then throw (.needsDerivative s)
  if ys.isNone && !p.reduced.isOde then throw .needsAlgebraic
  return ts.zipIdx.map fun (t, k) =>
    e.eval (p.valuation t (column xs k) (column (ys.getD []) k))

end Problem

/-- The problem on a span of time, from a consistent initial condition at its start. -/
def ReducedSystem.problem {α : Type} [Scalar α] (r : ReducedSystem) (s : Solver α)
    (o : InitialOptions) (span : List Rat) (given : List Request) (inputs : InputFunctions) :
    Run (Problem α) := do
  let c ← r.initialConditions s o given (span.headD 0) inputs
  let fs ← Initialization.lift (r.inputFunctions inputs)
  return { reduced := r, span, initial := c, inputs := fs }

end Flange

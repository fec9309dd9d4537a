import Flange.Number.Double
import Flange.Number.Symbolic
import Flange.Numerics.LeastSquares
import Flange.Reduction.Reduced
import Flange.Run

/-! # Initial conditions

The constraints, the values asked for by the caller and the strong values of the model are always
imposed. Weak values, and then zeros, are imposed one at a time as long as that helps to determine
more unknowns. The equations are then solved in the sense of least squares.
-/

namespace Flange

/-- Input functions of time. -/
abbrev InputFunctions := List (Var × (Rat → Rat))

structure InitialOptions where
  /-- the largest residual that counts as zero -/
  tolerance : Rat := mkRat 1 100000000
  maxEvaluations : Option Nat := none
  /-- the condition of a matrix that counts as singular -/
  singularCondition : Rat := 1000000000000

/-- How equations are solved numerically. -/
structure Solver (α : Type) where
  /-- `none` where the search meets something that is not finite -/
  minimize : Option Nat → LeastSquares α → Option (Vec α)
  condition : List (Vec α) → α

namespace Solver

def standard {α : Type} [Scalar α] : Solver α where
  minimize limit p := p.solve limit
  condition := Vec.condition

end Solver

structure InitialConditions (α : Type) where
  states : Vec α
  algebraic : Vec α
  /-- for every retained and every eliminated variable -/
  values : List (Var × α)

namespace ReducedSystem

variable (r : ReducedSystem)

/-- The functions of all inputs; of two given for one input the later counts. -/
def inputFunctions (given : InputFunctions) : Except Failure InputFunctions :=
  r.inputs.mapM fun u =>
    match given.reverse.lookup u with
    | some f => .ok (u, f)
    | none =>
      .error (.model { cause := .initial (.noInputValue u), symbols := [.var u] })

/-- What is known at the time `t`: the time, the parameters and the inputs. -/
def knownAt (t : Rat) (inputs : InputFunctions) : Replacement :=
  (.time, .num t) :: r.knowns.map (fun p => (.par p.1, .num p.2.toRat)) ++
    inputs.map fun p => (.var p.1, .num (p.2 t))

/-- The unknowns in an expression, by text. -/
def unknownsIn (e : Expr) : List Var := EquationSystem.unknownsIn r.unknowns e

end ReducedSystem

/-- A value that is asked for. -/
abbrev Request := Symbol × Rat

namespace Initialization

/-- The valuation at a point. -/
def pointValuation {α : Type} [Scalar α] (vs : List Var) (x : Vec α) : Valuation α where
  time := Vec.zero
  par _ := Vec.zero
  var v := ((vs.zip x).lookup v).getD Vec.zero

variable (r : ReducedSystem) (known : Replacement)

/-- `0 = key - value`, before anything known is put in. -/
def request (q : Request) : Except Failure Expr :=
  match r.expressionFor q.1 with
  | .error _ =>
    .error (.model { cause := .initial (.notAVariable q.1), symbols := [q.1] })
  | .ok e =>
    let e := e - .num q.2
    if e.hasDerivative then
      .error (.model { cause := .initial (.needsDerivative q.1), symbols := [q.1] })
    else .ok e

/-- With everything known put in. What has no value then has no unknowns either. -/
def settle (e : Expr) : Expr := (e.substitute known).collapse

/-- `0 = key - value` with everything known put in. -/
def express (q : Request) : Except Failure Expr := (request r q).map (settle known)

/-- The value of an expression without unknowns, as a number. -/
def constant? {α : Type} [Scalar α] (e : Expr) : Option α :=
  if e.symbols.isEmpty then e.number? (pointValuation [] []) else none

/-- Requests of the caller and the strong values of other variables, by name. -/
def requests (given : List Request) : List Request :=
  let rest := r.strong.filter fun p => !given.any fun q => q.1 == .var p.1
  given ++ (ReducedSystem.sortedPairs rest).map fun p => (.var p.1, p.2)

/-- What a request adds to the equations, if it holds an unknown. -/
def strongEquation (α : Type) [Scalar α] (o : InitialOptions) (q : Request) :
    Run (Option Expr) :=
  match express r known q with
  | .error e => Run.fail e
  | .ok e =>
    if !(r.unknownsIn e).isEmpty then pure (some e)
    else match (constant? e : Option α) with
    | none => Run.fail .notReal
    | some x =>
      if Scalar.lt (Scalar.ofRat o.tolerance) (Scalar.abs x) then
        let cause := InitialCause.conflictWithModel q.1 (NumberFormat.standard.render q.2)
          (Scalar.render x)
        Run.fail (.model { cause := .initial cause, symbols := [q.1] })
      else do
        Run.line ⟨.debug, "Initialization: redundant initial value for " ++ q.1.display ++ ".", []⟩
        return none

/-- The equations that are always imposed: the constraints and the requests. -/
def strongEquations (α : Type) [Scalar α] (o : InitialOptions) (given : List Request) :
    Run (List Expr) := do
  let es ← (requests r given).mapM (strongEquation r known α o)
  return r.constraints.map (settle known) ++ es.filterMap fun e => e

/-- States come first, then algebraic variables, then eliminated ones. -/
def weakRank (v : Var) : Nat :=
  if r.states.contains v then 0 else if r.algebraic.contains v then 1 else 2

def weakBefore (p q : Var × Rat) : Bool :=
  weakRank r p.1 < weakRank r q.1 ||
    (weakRank r p.1 == weakRank r q.1 && p.1.display ≤ q.1.display)

/-- The weak values that no request and no strong value replaces. -/
def weakRequests (given : List Request) : List Request :=
  let rest := r.weak.filter fun p =>
    !(given.any fun q => q.1 == .var p.1) && !r.strong.has p.1
  (sortedBy (weakBefore r) rest).map fun p => (.var p.1, p.2)

/-- What may be imposed to determine more: weak values, and zeros for all unknowns. -/
def candidates (given : List Request) : Except Failure (List Expr) := do
  let es ← (weakRequests r given).mapM (express r known)
  return es.filter (fun e => !(r.unknownsIn e).isEmpty) ++ r.unknowns.map Expr.var

def matching (es : List Expr) : Matching Var := Matching.maximum (es.map r.unknownsIn)

/-- Adds the candidates that let more unknowns be matched. -/
def fill : List Expr → List Expr → List Expr
  | [], es => es
  | c :: cs, es =>
    let size := (matching r es).size
    if size = r.unknowns.length then es
    else if size < (matching r (es ++ [c])).size then fill cs (es ++ [c])
    else fill cs es

/-- Where the search starts: requests count more than strong values, these more than weak ones. -/
def guess (given : List Request) (v : Var) : Rat :=
  match given.reverse.lookup (.var v) with
  | some q => q
  | none =>
    match r.strong.lookup v with
    | some q => q
    | none => (r.weak.lookup v).getD 0

def leastSquares {α : Type} [Scalar α] (es : List Expr) (given : List Request) :
    LeastSquares α :=
  let vs := r.unknowns
  let rows := es.map fun e => vs.map fun v => e.partialDerivative (.var v)
  { residuals := fun x => es.map (Expr.eval (pointValuation vs x))
    jacobian := fun x => rows.map (·.map (Expr.eval (pointValuation vs x)))
    start := vs.map fun v => Scalar.ofRat (guess r given v) }

/-- The rows and columns of the Jacobian that are matched. -/
def matchedSquare {α : Type} [Scalar α] (es : List Expr) (rows : List (Vec α)) : List (Vec α) :=
  let m := matching r es
  let cols := m.pairs.map fun p => r.unknowns.idxOf p.2
  m.pairs.map fun p => cols.map fun j => (rows.getD p.1 []).getD j Vec.zero

/-- Why the point that was found is no solution. -/
def fault? {α : Type} [Scalar α] (s : Solver α) (o : InitialOptions) (es : List Expr)
    (p : LeastSquares α) (x : Vec α) : Option ModelError :=
  let f := p.residuals x
  let isLarge (a : α) : Bool := Scalar.lt (Scalar.ofRat o.tolerance) (Scalar.abs a)
  let bad := (es.zip f).filter fun q => isLarge q.2
  let square := matchedSquare r es (p.jacobian x)
  if !bad.isEmpty then
    some
      { cause := .initial (.contradictory (Scalar.render (Vec.largest f)))
        equations := bad.map Prod.fst }
  else if !Scalar.lt (s.condition square) (Scalar.ofRat o.singularCondition) then
    some
      { cause := .initial .singularJacobian
        equations := (matching r es).pairs.filterMap fun q => es[q.1]? }
  else none

/-- The values of the unknowns. -/
def solve {α : Type} [Scalar α] (s : Solver α) (o : InitialOptions) (es : List Expr)
    (given : List Request) : Except Failure (Vec α) :=
  if r.unknowns.isEmpty then .ok []
  else
    let p : LeastSquares α := leastSquares r es given
    if !(p.residuals p.start).all Scalar.isFinite then .error .notFinite
    else match s.minimize o.maxEvaluations p with
      | none => .error .notFinite
      | some x =>
        match fault? r s o es p x with
        | some e => .error (.model e)
        | none => .ok x

/-- The value of an eliminated variable where the unknowns have the values `x`. -/
def observedValue {α : Type} [Scalar α] (x : Vec α) (p : Var × Expr) : Except Failure (Var × α) :=
  let e := settle known p.2
  if e.symbols.all fun s => (s.var?.map r.unknowns.contains).getD false then
    match e.number? (pointValuation r.unknowns x) with
    | some y => .ok (p.1, y)
    | none => .error .notReal
  else .error .notReal

/-- The values of all variables; an eliminated one counts more than an unknown of its name. -/
def allValues {α : Type} (unknowns observed : List (Var × α)) : List (Var × α) :=
  unknowns.filter (fun p => (observed.lookup p.1).isNone) ++ observed

def summaryLine (equations strong unknowns : Nat) : LogLine :=
  ⟨.debug, s!"Initialization solved {equations} equations for {unknowns} unknowns.",
    [("n_strong", .count strong), ("n_weak", .count (equations - strong))]⟩

/-- An expected outcome as a run. -/
def lift {α : Type} : Except Failure α → Run α
  | .ok a => pure a
  | .error e => Run.fail e

end Initialization

open Initialization in
/-- Initial conditions at the time `t` that satisfy the requests. -/
def ReducedSystem.initialConditions {α : Type} [Scalar α] (r : ReducedSystem) (s : Solver α)
    (o : InitialOptions) (given : List Request) (t : Rat) (inputs : InputFunctions) :
    Run (InitialConditions α) := do
  let known := r.knownAt t (← lift (r.inputFunctions inputs))
  let strong ← strongEquations r known α o given
  let es := fill r (← lift (candidates r known given)) strong
  if (matching r es).size < r.unknowns.length then
    Run.fail (.model { cause := .initial .structurallySingular, equations := es })
  else do
    let x ← lift (solve r s o es given)
    let observed ← lift (r.observed.mapM (observedValue r known x))
    Run.line (summaryLine es.length strong.length r.unknowns.length)
    return {
      states := x.take r.states.length
      algebraic := x.drop r.states.length
      values := allValues (r.unknowns.zip x) observed }

end Flange

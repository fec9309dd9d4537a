import Flange.Expr.Substitution
import Flange.Reduction.SemiExplicit

/-! # Reduced systems

States with their rates, algebraic variables with constraints, and an expression for every
variable that was eliminated.
-/

namespace Flange

structure ReducedSystem where
  states : List Var
  rates : List Expr
  algebraic : List Var
  constraints : List Expr
  observed : Observed := []
  knowns : Constants := []
  inputs : List Var := []
  strong : InitialValues := []
  weak : InitialValues := []
  quantities : List (Symbol × Quantity) := []
  deriving Repr

namespace ReducedSystem

variable (r : ReducedSystem)

def isOde : Bool := r.algebraic.isEmpty

/-- The variables that are neither eliminated nor given. -/
def unknowns : List Var := r.states ++ r.algebraic

/-- The rates of the states, to be put for their derivatives. -/
def rateReplacement : Replacement :=
  List.zipWith (fun x f => (.var x.der, f)) r.states r.rates

/-- The total derivative along the system; derivatives of algebraic variables and inputs stay. -/
def timeDerivative (e : Expr) : (order : Nat) → Expr
  | 0 => e
  | k + 1 => (timeDerivative e k).timeDerivative.substitute r.rateReplacement

/-- The function or parameter `s` in terms of what is retained or given. -/
def baseExpression (s : Symbol) : Except Failure Expr :=
  match s with
  | .time => .error (.notOfSystem .time)
  | .par n => if (r.knowns.lookup n).isSome then .ok (.par n) else .error (.notOfSystem s)
  | .var v =>
    if r.unknowns.contains v then .ok (.var v)
    else match r.observed.lookup v with
    | some e => .ok e
    | none => if r.inputs.contains v then .ok (.var v) else .error (.notOfSystem s)

/-- The derivative of order `k` of `s`, a parameter's too, in terms of what is retained or given. -/
def derivativeFor (s : Symbol) (k : Nat) : Except Failure Expr :=
  (r.baseExpression s).map fun e => r.timeDerivative e k

/-- A variable, a derivative or a parameter in terms of what is retained or given. -/
def expressionFor (s : Symbol) : Except Failure Expr :=
  match s with
  | .var v => if v.isDerivative then r.derivativeFor (.var v.base) v.order else r.baseExpression s
  | s => r.baseExpression s

/-- The reduced system as a system to be reduced again. -/
def toEquationSystem : EquationSystem :=
  let rateEqs : List Eqn :=
    List.zipWith (fun x f => ⟨⟨.var x.der, f⟩, .comp, .nobody⟩) r.states r.rates
  let constraintEqs : List Eqn := r.constraints.map fun g => ⟨⟨.zero, g⟩, .comp, .nobody⟩
  let eqs := rateEqs ++ constraintEqs
  { equations := eqs
    exprs := eqs.map Eqn.residual
    unknowns := r.unknowns
    knowns := r.knowns
    inputs := r.inputs
    quantities := r.quantities
    strong := r.strong
    weak := r.weak
    observed := r.observed }

/-- Items with their names, sorted by name. -/
def sortedPairs {α : Type} (ps : List (Var × α)) : List (Var × α) :=
  sortedByText (fun p => p.1.display) ps

/-- The reduced system of a semi-explicit form: everything but the constraints is sorted. -/
def ofSemiExplicit (x : SemiExplicit) (s : EquationSystem) (strong weak : InitialValues) :
    ReducedSystem :=
  let states := sortedPairs (x.states.zip x.rates)
  { states := states.map Prod.fst
    rates := states.map Prod.snd
    algebraic := sortedByText Var.display x.algebraic
    constraints := x.constraints
    observed := sortedPairs x.observed
    knowns := s.knowns
    inputs := s.inputs
    strong, weak
    quantities := s.quantities }

end ReducedSystem

end Flange

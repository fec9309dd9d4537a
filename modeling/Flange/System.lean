import Flange.Component.Basic
import Flange.Expr.Constant

/-! # Systems of equations

A flat system of differential and algebraic equations, with what is known of its symbols.
-/

namespace Flange

/-- Values given to variables. -/
abbrev InitialValues := List (Var × Rat)

namespace InitialValues

/-- Gives `v` the value `q`. -/
def set (ics : InitialValues) (v : Var) (q : Rat) : InitialValues :=
  match ics with
  | [] => [(v, q)]
  | (w, r) :: rest => if w = v then (v, q) :: rest else (w, r) :: set rest v q

def erase (ics : InitialValues) (v : Var) : InitialValues := ics.filter fun p => p.1 != v

def has (ics : InitialValues) (v : Var) : Bool := (ics.lookup v).isSome

end InitialValues

/-- Expressions that give eliminated variables. -/
abbrev Observed := List (Var × Expr)

/-- Gives `v` the expression `e`. -/
def Observed.set (o : Observed) (v : Var) (e : Expr) : Observed :=
  if (o.lookup v).isSome then o.map fun p => if p.1 = v then (v, e) else p else o ++ [(v, e)]

structure EquationSystem where
  equations : List Eqn
  /-- the equations as expressions that are zero -/
  exprs : List Expr
  unknowns : List Var
  knowns : Constants := []
  inputs : List Var := []
  quantities : List (Symbol × Quantity) := []
  /-- values that must be respected -/
  strong : InitialValues := []
  /-- values that are suggestions -/
  weak : InitialValues := []
  observed : Observed := []

namespace EquationSystem

/-- The kind declared for the function `v`. -/
def kind? (s : EquationSystem) (v : Var) : Option SymKind :=
  (s.quantities.lookup (.var v)).map Quantity.kind

def tags (s : EquationSystem) : List String := s.equations.map Eqn.tag

/-- The unknowns among `vs` that occur in `e`, themselves or in a derivative, by text. -/
def unknownsIn (vs : List Var) (e : Expr) : List Var :=
  sortVars (e.functions.filter vs.contains)

/-- For each equation the unknowns in it. -/
def incidence (exprs : List Expr) (vs : List Var) : List (List Var) :=
  exprs.map (unknownsIn vs)

end EquationSystem

end Flange

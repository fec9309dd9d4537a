import Flange.Expr.Basic
import Flange.Error
import Flange.Graph.Matching

/-! # Structure of a system

Which variables and derivatives occur in which equation. A system has the right structure when its
equations, with one more for each differentiated variable that links it to its derivative, can be
matched to all of its variables and derivatives.
-/

namespace Flange

namespace Expr

/-- Derivatives in `e`, those of known functions left out, by text. -/
def unknownDerivatives (known : List Var) (e : Expr) : List Var :=
  sortVars (e.derivatives.filter fun d => !known.contains d && !known.contains d.base)

/-- Functions that occur in `e` outside derivatives, known ones left out, by text. -/
def unknownFunctions (known : List Var) (e : Expr) : List Var :=
  sortVars (e.vars.filter fun v => !v.isDerivative && !known.contains v)

end Expr

/-- The variables of a list of equations, each list by text. -/
structure Structure where
  /-- differentiated functions -/
  states : List Var
  derivatives : List Var
  /-- functions that are nowhere differentiated -/
  algebraic : List Var
  /-- all of them -/
  all : List Var
  /-- for each equation what occurs in it -/
  perEquation : List (List Var)
  deriving Repr

namespace Structure

def ofExprs (known : List Var) (es : List Expr) : Structure :=
  let ders := sortVars (es.flatMap (Expr.unknownDerivatives known))
  let funs := es.flatMap (Expr.unknownFunctions known)
  let states := sortVars (ders.map Var.base)
  let algebraic := sortVars (funs.filter fun v => !states.contains v)
  { states, derivatives := ders, algebraic
    all := sortVars (states ++ ders ++ algebraic)
    perEquation := es.map fun e =>
      sortVars (e.unknownDerivatives known ++ e.unknownFunctions known) }

/-- How many equations a system of this structure needs. -/
def size (s : Structure) : Nat := s.states.length + s.algebraic.length

/-- The equations and the links between variables and their derivatives. -/
def extended (s : Structure) : Adjacency Var :=
  s.perEquation ++ s.states.map fun x => [x, x.der]

def unmatchedEquations (s : Structure) (m : Matching Var) : List Nat :=
  (List.range s.perEquation.length).filter fun i => (m.matched? i).isNone

def unmatchedVars (s : Structure) (m : Matching Var) : List Var :=
  s.all.filter fun v => (m.equation? v).isNone

/-- Why equations of this structure are not well posed. -/
def fault? (s : Structure) (es : List Expr) : Option ModelError :=
  let m := Matching.maximum s.extended
  let left := s.unmatchedEquations m
  let vars := s.unmatchedVars m
  let error (cause : ReductionCause) : ModelError :=
    { cause := .reduction cause, equations := left.filterMap fun i => es[i]?
      symbols := vars.map .var }
  if s.size ≠ es.length then
    some (error (.equationCount es.length s.size s.states.length s.algebraic.length))
  else if !left.isEmpty || !vars.isEmpty then some (error .structurallySingular)
  else none

end Structure

end Flange

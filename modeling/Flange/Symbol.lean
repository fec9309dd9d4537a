import Flange.Order

/-! # Variables and symbols

A variable is a function of time or one of its time derivatives. Symbols add the parameters and
time itself. The displayed text of a symbol is also its sort key.
-/

namespace Flange

/-- The time derivative of the given order of the function `name`; order 0 is the function. -/
structure Var where
  name : String
  order : Nat := 0
  deriving DecidableEq, Repr, Inhabited

namespace Var

/-- The function that `v` is a derivative of. -/
def base (v : Var) : Var := ⟨v.name, 0⟩

def der (v : Var) (k : Nat := 1) : Var := ⟨v.name, v.order + k⟩

def isDerivative (v : Var) : Bool := v.order != 0

def display (v : Var) : String :=
  match v.order with
  | 0 => v.name ++ "(t)"
  | 1 => "Derivative(" ++ v.name ++ "(t), t)"
  | k => "Derivative(" ++ v.name ++ "(t), (t, " ++ toString k ++ "))"

/-- One name for the variable: a derivative adds an underscore and a `t` for each order. -/
def flatName (v : Var) : String :=
  if v.order = 0 then v.name
  else v.name ++ "_" ++ String.ofList (List.replicate v.order 't')

end Var

inductive Symbol
  | time
  | par (name : String)
  | var (v : Var)
  deriving DecidableEq, Repr, Inhabited

namespace Symbol

def display : Symbol → String
  | time => "t"
  | par n => n
  | var v => v.display

def flatName : Symbol → String
  | time => "t"
  | par n => n
  | var v => v.flatName

def base : Symbol → Symbol
  | var v => var v.base
  | s => s

def var? : Symbol → Option Var
  | var v => some v
  | _ => none

def par? : Symbol → Option String
  | par n => some n
  | _ => none

def cmp : Symbol → Symbol → Ordering
  | time, time => .eq
  | time, _ => .lt
  | _, time => .gt
  | par a, par b => compare a b
  | par _, _ => .lt
  | _, par _ => .gt
  | var v, var w => (compare v.name w.name).then (compare v.order w.order)

end Symbol

/-- Sorted by the text of each element, equal texts in their order. -/
def sortedByText {α : Type} (text : α → String) (xs : List α) : List α :=
  sortedBy (fun a b => decide (text a ≤ text b)) xs

def sortVars (vs : List Var) : List Var := sortedByText Var.display vs.eraseDups

def sortSymbols (ss : List Symbol) : List Symbol := sortedByText Symbol.display ss.eraseDups

end Flange

import Flange.Expr.Basic

/-! # Values of expressions

One evaluator over any kind of number that has the arithmetic, the functions and a comparison.
-/

namespace Flange

/-- Numbers that expressions can be evaluated in. -/
class Scalar (α : Type) extends Add α, Sub α, Mul α, Div α, Neg α where
  ofRat : Rat → α
  power : α → Rat → α
  /-- the first number to the power of the second -/
  raise : α → α → α
  apply : Fn → α → α
  le : α → α → Bool
  /-- the number as shown -/
  render : α → String

structure Valuation (α : Type) where
  time : α
  par : String → α
  var : Var → α

namespace Valuation

def symbol {α : Type} (ρ : Valuation α) : Symbol → α
  | .time => ρ.time
  | .par n => ρ.par n
  | .var v => ρ.var v

/-- Every value taken to another kind of number. -/
def map {α β : Type} (f : α → β) (ρ : Valuation α) : Valuation β where
  time := f ρ.time
  par n := f (ρ.par n)
  var v := f (ρ.var v)

end Valuation

namespace Scalar

variable {α : Type} [Scalar α]

def within (x : α) : Bool := le (ofRat (-1)) x && le x (ofRat 1)

/-- Not comparable even with itself. -/
def isUndefined (x : α) : Bool := !le x x

def clamp (x : α) : α :=
  if isUndefined x then x
  else if !le (ofRat (-1)) x then ofRat (-1) else if le x (ofRat 1) then x else ofRat 1

/-- `y` where `x` lies in the interval from -1 to 1, and 0 elsewhere. -/
def gated (x y : α) : α :=
  if isUndefined x then x else if within x then y else ofRat 0

def lt (x y : α) : Bool := le x y && !le y x

def abs (x : α) : α := if le (ofRat 0) x then x else -x

/-- The larger one; what compares with nothing is larger than everything. -/
def max (x y : α) : α := if le x y || isUndefined y then y else x

/-- A number that its own difference makes zero. -/
def isFinite (x : α) : Bool := le (x - x) (ofRat 0) && le (ofRat 0) (x - x)

end Scalar

namespace Expr

variable {α : Type} [Scalar α]

def eval (ρ : Valuation α) : Expr → α
  | num q => Scalar.ofRat q
  | sym s => ρ.symbol s
  | sum a b => eval ρ a + eval ρ b
  | prod a b => eval ρ a * eval ρ b
  | power a q => Scalar.power (eval ρ a) q
  | fn f a => Scalar.apply f (eval ρ a)
  | sat a => Scalar.clamp (eval ρ a)
  | gate a b => Scalar.gated (eval ρ a) (eval ρ b)
  | raised a b => Scalar.raise (eval ρ a) (eval ρ b)

end Expr

end Flange

import Flange.Expr.Eval

/-! # What a closed expression can stand for

A number, or one of three things that are none: what is unbounded and has no sign, what is not
real, and what has no value at all.
-/

namespace Flange

inductive Symbolic (α : Type)
  | real (x : α)
  | infinite
  | imaginary
  | undefined
  deriving Repr, Inhabited

namespace Scalar

variable {α : Type} [Scalar α]

def isZero (x : α) : Bool := le x (ofRat 0) && le (ofRat 0) x

def isNegative (x : α) : Bool := lt x (ofRat 0)

/-- Zero divided by zero. -/
def undefined : α := ofRat 0 / ofRat 0

end Scalar

namespace Symbolic

variable {α : Type} [Scalar α]

open Scalar

def add : Symbolic α → Symbolic α → Symbolic α
  | undefined, _ | _, undefined | infinite, infinite => undefined
  | infinite, _ | _, infinite => infinite
  | imaginary, _ | _, imaginary => imaginary
  | real x, real y => real (x + y)

def neg : Symbolic α → Symbolic α
  | real x => real (-x)
  | x => x

def mul : Symbolic α → Symbolic α → Symbolic α
  | undefined, _ | _, undefined => undefined
  | real x, real y => real (x * y)
  | real x, infinite | infinite, real x => if isZero x then undefined else infinite
  | infinite, _ | _, infinite => infinite
  | real x, imaginary | imaginary, real x => if isZero x then real x else imaginary
  | imaginary, imaginary => imaginary

def power (x : Symbolic α) (q : Rat) : Symbolic α :=
  if q = 0 then real (ofRat 1)
  else match x with
    | real x =>
      if q < 0 && isZero x then infinite
      else if q.den != 1 && isNegative x then imaginary
      else real (Scalar.power x q)
    | infinite => if q < 0 then real (ofRat 0) else infinite
    | x => x

/-- A power that comes out as no number is not real. -/
def raise (x y : Symbolic α) : Symbolic α :=
  match x, y with
  | undefined, imaginary | _, undefined | _, infinite => undefined
  | _, imaginary => imaginary
  | x, real y =>
    if isZero y then real (ofRat 1)
    else match x with
      | real x =>
        if isZero x && isNegative y then infinite
        else
          let z := Scalar.raise x y
          if isUndefined z then imaginary else real z
      | infinite => if isNegative y then real (ofRat 0) else infinite
      | x => x

def apply (f : Fn) : Symbolic α → Symbolic α
  | real x =>
    if f = .log && isZero x then infinite
    else if f = .log && isNegative x then imaginary
    else real (Scalar.apply f x)
  | infinite => match f with
    | .sin | .cos | .tanh | .exp => undefined
    | .log | .abs | .sign => infinite
    | .impulse _ => imaginary
  | x => x

/-- Only numbers are compared. -/
def le : Symbolic α → Symbolic α → Bool
  | real x, real y => Scalar.le x y
  | _, _ => false

def render : Symbolic α → String
  | real x => Scalar.render x
  | infinite => "zoo"
  | imaginary => "I"
  | undefined => "nan"

instance : Scalar (Symbolic α) where
  add := add
  sub x y := add x (neg y)
  mul := mul
  div x y := mul x (power y (-1))
  neg := neg
  ofRat q := real (ofRat q)
  power := power
  raise := raise
  apply := apply
  le := le
  render := render

/-- As a number: what has no value becomes one that compares with nothing, and what is unbounded or
not real has no conversion. -/
def number? : Symbolic α → Option α
  | real x => some x
  | undefined => some Scalar.undefined
  | infinite | imaginary => none

end Symbolic

/-- The value of an expression that has all its symbols at `ρ`. -/
def Expr.number? {α : Type} [Scalar α] (ρ : Valuation α) (e : Expr) : Option α :=
  (e.eval (ρ.map Symbolic.real)).number?

end Flange

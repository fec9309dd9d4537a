import Flange.Expr.Arithmetic
import Flange.Kind

/-! # Equations

An equation has two sides. Sides that agree, or differ by something that is never zero, make a
truth value and no equation.
-/

namespace Flange

namespace Expr

/-- What is known of the sign of an expression over real symbols. -/
inductive Sign
  | positive | negative | nonneg | nonpos | unknown
  deriving DecidableEq, Repr

namespace Sign

def ofRat (q : Rat) : Sign := if q < 0 then negative else if q = 0 then nonneg else positive

def neg : Sign → Sign
  | positive => negative | negative => positive | nonneg => nonpos | nonpos => nonneg
  | unknown => unknown

def add : Sign → Sign → Sign
  | positive, positive | positive, nonneg | nonneg, positive => positive
  | nonneg, nonneg => nonneg
  | negative, negative | negative, nonpos | nonpos, negative => negative
  | nonpos, nonpos => nonpos
  | _, _ => unknown

def mul : Sign → Sign → Sign
  | positive, s => s
  | negative, s => s.neg
  | nonneg, positive | nonneg, nonneg | nonpos, negative | nonpos, nonpos => nonneg
  | nonneg, negative | nonneg, nonpos | nonpos, positive | nonpos, nonneg => nonpos
  | _, _ => unknown

end Sign

def signOf : Expr → Sign
  | num q => Sign.ofRat q
  | sym _ => .unknown
  | sum a b => (signOf a).add (signOf b)
  | prod a b => (signOf a).mul (signOf b)
  | power a q =>
    if q.den = 1 ∧ q.num % 2 = 0 then
      match signOf a with
      | .positive | .negative => .positive
      | _ => .nonneg
    else match signOf a with
      | .positive => .positive
      | .nonneg => .nonneg
      | .negative => if q.den = 1 then .negative else .unknown
      | _ => .unknown
  | fn .exp _ => .positive
  | fn .abs _ => .nonneg
  | fn .tanh a => signOf a
  | raised a _ => match signOf a with
    | .positive => .positive
    | _ => .unknown
  | _ => .unknown

/-- The value is a number other than 0 whatever the symbols are. -/
def neverZero (e : Expr) : Bool :=
  match e.signOf with
  | .positive | .negative => true
  | _ => false

end Expr

structure Equation where
  lhs : Expr
  rhs : Expr
  deriving DecidableEq, Repr, Inhabited

namespace Equation

/-- `none` when the two sides make a truth value. -/
def of? (lhs rhs : Expr) : Option Equation :=
  let d := lhs - rhs
  if lhs = rhs ∨ d.isZero ∨ d.neverZero then none else some ⟨lhs, rhs⟩

/-- The equation as an expression that is equal to zero. -/
def residual (e : Equation) : Expr := e.lhs - e.rhs

def isDifferential (e : Equation) : Bool := e.lhs.hasDerivative || e.rhs.hasDerivative

/-- The symbols of both sides, derivatives given by their function. -/
def symbols (e : Equation) : List Symbol :=
  ((e.lhs.symbols ++ e.rhs.symbols).map Symbol.base).eraseDups

end Equation

inductive EqnOwner
  | connectionClass (n : Nat)
  | component (name : String)
  | nobody
  deriving DecidableEq, Repr, Inhabited

/-- An equation with its kind and origin. -/
structure Eqn where
  equation : Equation
  kind : EqnKind
  owner : EqnOwner := .nobody
  deriving DecidableEq, Repr, Inhabited

namespace Eqn

def residual (e : Eqn) : Expr := e.equation.residual

def tag (e : Eqn) : String :=
  if e.equation.isDifferential then "differential" else "algebraic"

end Eqn

end Flange

import Flange.Expr.Basic

/-! # Poles

A negative power of zero is unbounded, and some expressions that contain one have no value.
-/

namespace Flange

namespace Expr

/-- What is unbounded and has no sign. -/
def pole : Expr := power zero (-1)

/-- What has no value at all: the sine has none at a pole. -/
def undefined : Expr := fn .sin pole

/-- A pole, or a number times one. -/
def isPole : Expr → Bool
  | power a q => a == zero && q < 0
  | prod (num _) b => b.isPole
  | _ => false

/-- A pole is in the expression. -/
def hasPole : Expr → Bool
  | num _ | sym _ => false
  | sum a b | prod a b | gate a b | raised a b => a.hasPole || b.hasPole
  | power a q => (power a q).isPole || a.hasPole
  | fn _ a | sat a => a.hasPole

/-- The function has no value at a pole. -/
def isSingular : Fn → Bool
  | .sin | .cos | .tanh | .exp => true
  | _ => false

/-- A part of the expression has no value. -/
def hasUndefined : Expr → Bool
  | num _ | sym _ => false
  | sum a b | prod a b | gate a b | raised a b => a.hasUndefined || b.hasUndefined
  | power a _ | sat a => a.hasUndefined
  | fn f a => isSingular f && a.isPole || a.hasUndefined

/-- The expression itself, or nothing but that it has no value. -/
def collapse (e : Expr) : Expr := if e.hasUndefined then undefined else e

end Expr

end Flange

import Flange.Number.Double
import Flange.Expr.Eval

/-! # Doubles as scalars -/

namespace Flange

namespace Double

def natPower (x : Float) : Nat → Float
  | 0 => 1
  | n + 1 => natPower x n * x

/-- Whole exponents by repeated multiplication, halves by the square root. -/
def power (x : Float) (q : Rat) : Float :=
  if q.den = 1 then
    if 0 ≤ q.num then natPower x q.num.toNat else 1 / natPower x (-q.num).toNat
  else if q = 1 / 2 then x.sqrt
  else if q = -1 / 2 then 1 / x.sqrt
  else x.pow (ofRat q)

def apply : Fn → Float → Float
  | .sin => Float.sin
  | .cos => Float.cos
  | .tanh => Float.tanh
  | .exp => Float.exp
  | .log => Float.log
  | .abs => Float.abs
  | .sign => fun x => if x < 0 then -1 else if 0 < x then 1 else if x == 0 then 0 else x
  | .impulse _ => fun x => if x == x then 0 else x

instance : Scalar Float where
  ofRat := ofRat
  power := power
  raise := Float.pow
  apply := apply
  le x y := decide (x ≤ y)
  render := Double.render

end Double

end Flange

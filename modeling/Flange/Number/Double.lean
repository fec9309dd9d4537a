import Flange.Number.Scientific

/-! # Doubles and rationals

The exact value of a finite double, and the double nearest to a rational.
-/

namespace Flange

namespace Double

/-- The value of a finite double; `none` for an infinity or a NaN. -/
def toRat? (x : Float) : Option Rat :=
  let bits := x.toBits.toNat
  let frac := bits % Nat.pow 2 52
  let expo := bits / Nat.pow 2 52 % Nat.pow 2 11
  if expo = 2047 then none
  else
    let m : Nat := if expo = 0 then frac else frac + Nat.pow 2 52
    let e : Int := (if expo = 0 then 1 else expo : Nat) - 1075
    let q : Rat := if 0 ≤ e then ((m * Nat.pow 2 e.toNat : Nat) : Rat) else mkRat m (Nat.pow 2 (-e).toNat)
    some (if bits / Nat.pow 2 63 = 1 then -q else q)

/-- Scaled by `2 ^ e`, as numerator and denominator. -/
def scaleTwo (n d : Nat) (e : Int) : Nat × Nat :=
  if 0 ≤ e then (n * Nat.pow 2 e.toNat, d) else (n, d * Nat.pow 2 (-e).toNat)

/-- `n / d` as a 53-bit whole number and a binary exponent. -/
def significand (n d : Nat) : Nat × Int :=
  let e : Int := (n.log2 : Int) - d.log2
  let (a, b) := scaleTwo n d (-e)
  let e := if a < b then e - 1 else e
  let s := max (e - 52) (-1074)
  let (a, b) := scaleTwo n d (-s)
  (roundDiv a b, s)

/-- The double nearest to `q`. -/
def ofRat (q : Rat) : Float :=
  if q.num = 0 then 0
  else
    let (m, s) := significand q.num.natAbs q.den
    let x := (Float.ofNat m).scaleB s
    if q.num < 0 then -x else x

/-- `q` as the nearest double holds it. -/
def nearest (q : Rat) : Rat := (toRat? (ofRat q)).getD q

/-- The shown form of a double. -/
def render (x : Float) : String :=
  match toRat? x with
  | some q => NumberFormat.standard.render q
  | none => if x.isNaN then "nan" else if x < 0 then "-inf" else "inf"

end Double

end Flange

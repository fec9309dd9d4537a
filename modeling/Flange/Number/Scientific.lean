import Flange.Number.Decimal

/-! # Seven significant digits

The form in which computed numbers are shown: seven significant digits and an exponent. Values
below a threshold show as `0`.
-/

namespace Flange

/-- `n / d` to the nearest whole number, a tie going to the even neighbour. -/
def roundDiv (n d : Nat) : Nat :=
  let q := n / d
  let r := 2 * (n % d)
  if r < d then q else if d < r then q + 1 else if q % 2 = 0 then q else q + 1

def decimalLength (n : Nat) : Nat := (Nat.toDigits 10 n).length

/-- Scaled by `10 ^ e`, as numerator and denominator. -/
def scaleTen (n d : Nat) (e : Int) : Nat × Nat :=
  if 0 ≤ e then (n * Nat.pow 10 e.toNat, d) else (n, d * Nat.pow 10 (-e).toNat)

/-- The `e` with `10 ^ e ≤ n / d < 10 ^ (e + 1)`, for positive `n` and `d`. -/
def decimalExponent (n d : Nat) : Int :=
  let e : Int := (decimalLength n : Int) - decimalLength d
  let (a, b) := scaleTen n d (-e)
  if a < b then e - 1 else e

/-- How computed numbers are shown. -/
structure NumberFormat where
  /-- digits after the point -/
  digits : Nat
  /-- smaller values show as `0` -/
  zeroBelow : Rat

namespace NumberFormat

/-- Six digits after the point, and nothing below a thousand-millionth. -/
def standard : NumberFormat := ⟨6, mkRat 1 1000000000⟩

/-- The digits of `m` with a point after the first, and the exponent `e`. -/
def compose (m : Nat) (e : Int) : String :=
  let ds := Nat.toDigits 10 m
  String.ofList (ds.take 1) ++ "." ++ String.ofList (ds.drop 1) ++
    (if e < 0 then "e-" else "e+") ++ Decimal.twoDigits e.natAbs

def render (f : NumberFormat) (q : Rat) : String :=
  let n := q.num.natAbs
  if q.num = 0 then "0"
  else if mkRat n q.den < f.zeroBelow then "0"
  else
    let e := decimalExponent n q.den
    let (a, b) := scaleTen n q.den (f.digits - e)
    let m := roundDiv a b
    let body := if m < Nat.pow 10 (f.digits + 1) then compose m e else compose (m / 10) (e + 1)
    if q.num < 0 then "-" ++ body else body

example : standard.render (3/2) = "1.500000e+00" := by decide +kernel
example : standard.render (-1/3) = "-3.333333e-01" := by decide +kernel
example : standard.render (99999999/10) = "1.000000e+07" := by decide +kernel
example : standard.render (1/10000000000) = "0" := by decide +kernel

end NumberFormat

end Flange

/-! # Numbers as written

A whole number or a decimal fraction, kept with the digits it was written with, so that it can be
both computed with exactly and shown again.
-/

namespace Flange

/-- The number `mantissa / 10 ^ places`; it is whole when `places = 0`. -/
structure Decimal where
  mantissa : Int
  places : Nat := 0
  deriving DecidableEq, Repr, Inhabited

namespace Decimal

def toRat (d : Decimal) : Rat := mkRat d.mantissa (Nat.pow 10 d.places)

def whole (n : Int) : Decimal := ⟨n, 0⟩

/-- Drops the zeros at the end of a digit string. -/
def dropTrailingZeros (ds : List Char) : List Char :=
  (ds.reverse.dropWhile (· == '0')).reverse

/-- The written form of the digits `ds` with the point `point` places after their start:
positional for points from -3 to 16, with an exponent otherwise. -/
def positional (ds : List Char) (point : Int) : String :=
  if 0 < point then
    let p := point.toNat
    let pad := ds ++ List.replicate (p - ds.length) '0'
    let frac := pad.drop p
    String.ofList (pad.take p) ++ "." ++ (if frac.isEmpty then "0" else String.ofList frac)
  else
    "0." ++ String.ofList (List.replicate (-point).toNat '0' ++ ds)

/-- Two digits at least for the size of an exponent. -/
def twoDigits (n : Nat) : String :=
  if n < 10 then "0" ++ toString n else toString n

def scientific (ds : List Char) (point : Int) : String :=
  let e := point - 1
  let lead := String.ofList (ds.take 1)
  let frac := ds.drop 1
  lead ++ (if frac.isEmpty then "" else "." ++ String.ofList frac) ++
    (if e < 0 then "e-" else "e+") ++ twoDigits e.natAbs

/-- A whole number shows its digits; a decimal always shows a point or an exponent. -/
def render (d : Decimal) : String :=
  if d.places = 0 then toString d.mantissa
  else if d.mantissa = 0 then "0.0"
  else
    let all := Nat.toDigits 10 d.mantissa.natAbs
    let point : Int := (all.length : Int) - d.places
    let ds := dropTrailingZeros all
    let body := if -3 ≤ point ∧ point ≤ 16 then positional ds point else scientific ds point
    if d.mantissa < 0 then "-" ++ body else body

example : render ⟨-25, 1⟩ = "-2.5" := by decide +kernel
example : render ⟨40, 1⟩ = "4.0" := by decide +kernel
example : render ⟨4, 0⟩ = "4" := by decide +kernel
example : render ⟨1, 5⟩ = "1e-05" := by decide +kernel
example : render ⟨1, 4⟩ = "0.0001" := by decide +kernel

end Decimal

end Flange

import Flange.Number.Scientific
import Flange.Expr.Eval

/-! # High precision numbers

Rational arithmetic stays exact, so that an exact zero is recognised. The values of functions and
roots are held to a few hundred bits. What has no real value is `undefined`.
-/

namespace Flange

/-- The number `m * 2 ^ e`. -/
structure Binary where
  m : Int
  e : Int
  deriving Repr, Inhabited

namespace Binary

/-- Bits kept. -/
def precision : Nat := 320

/-- Cuts the significand to `precision` bits. -/
def cut (m : Int) (e : Int) : Binary :=
  let n := m.natAbs.log2
  if n ≤ precision then ⟨m, e⟩
  else
    let k := n - precision
    ⟨Int.tdiv m (Int.pow 2 k), e + k⟩

def ofRat (q : Rat) : Binary :=
  if q.num = 0 then ⟨0, 0⟩
  else
    let k : Int := (q.den.log2 : Int) - q.num.natAbs.log2 + precision + 8
    if 0 ≤ k then cut (Int.tdiv (q.num * Int.pow 2 k.toNat) q.den) (-k)
    else cut (Int.tdiv q.num (q.den * Int.pow 2 (-k).toNat)) (-k)

def toRat (x : Binary) : Rat :=
  if 0 ≤ x.e then ((x.m * Int.pow 2 x.e.toNat : Int) : Rat) else mkRat x.m (Nat.pow 2 (-x.e).toNat)

def neg (x : Binary) : Binary := ⟨-x.m, x.e⟩

/-- The exponent of the leading bit. -/
def top (x : Binary) : Int := x.e + x.m.natAbs.log2

def add (x y : Binary) : Binary :=
  if x.m = 0 then y
  else if y.m = 0 then x
  else if y.top + 2 * precision < x.top then x
  else if x.top + 2 * precision < y.top then y
  else
    let e := min x.e y.e
    cut (x.m * Int.pow 2 (x.e - e).toNat + y.m * Int.pow 2 (y.e - e).toNat) e

def mul (x y : Binary) : Binary := cut (x.m * y.m) (x.e + y.e)

/-- The quotient by a nonzero number. -/
def div (x y : Binary) : Binary :=
  let k := precision + 8 + y.m.natAbs.log2
  cut (Int.tdiv (x.m * Int.pow 2 k) y.m) (x.e - y.e - k)

def sub (x y : Binary) : Binary := add x (neg y)

def lt (x y : Binary) : Bool := (sub x y).m < 0

/-- The whole number `floor (x * 2 ^ p)`. -/
def fixed (p : Nat) (x : Binary) : Int :=
  let k := x.e + p
  if 0 ≤ k then x.m * Int.pow 2 k.toNat else Int.fdiv x.m (Int.pow 2 (-k).toNat)

def ofFixed (p : Nat) (n : Int) : Binary := cut n (-p)

/-- Bits of fixed-point work. -/
def work : Nat := 448

/-- `atan (1 / k)` in fixed point. -/
def arctanInv (p k : Nat) : Int :=
  let rec go : (fuel : Nat) → Nat → Int → Int → Int → Int
    | 0, _, _, _, acc => acc
    | fuel + 1, n, t, s, acc =>
      if t = 0 then acc else go fuel (n + 2) (t / (k * k : Nat)) (-s) (acc + s * (t / n))
  go p 1 (Int.pow 2 p / (k : Int)) 1 0

/-- `4 * (4 * atan (1 / 5) - atan (1 / 239))` in fixed point. -/
def piFixed (p : Nat) : Int := 4 * (4 * arctanInv p 5 - arctanInv p 239)

/-- `2 * (1 / 3 + 1 / (3 * 3 ^ 3) + …)` in fixed point, the natural logarithm of 2. -/
def ln2Fixed (p : Nat) : Int :=
  let rec go : (fuel : Nat) → Nat → Int → Int → Int
    | 0, _, _, acc => acc
    | fuel + 1, n, t, acc => if t = 0 then acc else go fuel (n + 2) (t / 9) (acc + t / n)
  2 * go p 1 (Int.pow 2 p / 3) 0

/-- The exponential series in fixed point, for small arguments. -/
def expSeries (p : Nat) (r : Int) : Int :=
  let rec go : (fuel : Nat) → Nat → Int → Int → Int
    | 0, _, _, acc => acc
    | fuel + 1, n, t, acc =>
      let t' := Int.tdiv (t * r) (Int.pow 2 p * (n + 1 : Nat))
      if t' = 0 then acc else go fuel (n + 1) t' (acc + t')
  go p 0 (Int.pow 2 p) (Int.pow 2 p)

/-- Squares the fixed-point number `x` a given number of times. -/
def squares (p : Nat) : Nat → Int → Int
  | 0, x => x
  | n + 1, x => squares p n (x * x / Int.pow 2 p)

def ln2Work : Int := ln2Fixed work

def exp (x : Binary) : Binary :=
  let f := fixed work x
  let k := Int.fdiv (2 * f + ln2Work) (2 * ln2Work)
  let r := f - k * ln2Work
  let y := squares work 8 (expSeries work (Int.fdiv r 256))
  cut y (k - work)

/-- The sine or cosine series from the term `t` of degree `n` on. -/
def circleSeries (p : Nat) (r2 : Int) : (fuel n : Nat) → Int → Int → Int
  | 0, _, _, acc => acc
  | fuel + 1, n, t, acc =>
    let t' := -(Int.tdiv (t * r2) (Int.pow 2 p * ((n + 1) * (n + 2) : Nat)))
    if t' = 0 then acc else circleSeries p r2 fuel (n + 2) t' (acc + t')

/-- Sine and cosine, by the remainder modulo a quarter turn. -/
def sinCos (x : Binary) : Binary × Binary :=
  let extra := (max 0 x.top).toNat
  let p := work + extra
  let quarter := Int.fdiv (piFixed p) 2
  let f := fixed p x
  let k := Int.fdiv (2 * f + quarter) (2 * quarter)
  let r := Int.fdiv (f - k * quarter) (Int.pow 2 extra)
  let r2 := r * r / Int.pow 2 work
  let s := circleSeries work r2 work 1 r r
  let c := circleSeries work r2 work 0 (Int.pow 2 work) (Int.pow 2 work)
  let (s, c) := match (k % 4).toNat with
    | 0 => (s, c)
    | 1 => (c, -s)
    | 2 => (-s, -c)
    | _ => (-c, s)
  (ofFixed work s, ofFixed work c)

def tanh (x : Binary) : Binary :=
  if 10 < x.top then ⟨if x.m < 0 then -1 else 1, 0⟩
  else
    let y := exp ⟨x.m, x.e + 1⟩
    div (sub y ⟨1, 0⟩) (add y ⟨1, 0⟩)

/-- One Newton step for the logarithm of `x` in `[1/2, 1)`. -/
def logStep (x y : Binary) : Binary :=
  let z := exp y
  add y (mul ⟨2, 0⟩ (div (sub x z) (add x z)))

/-- The logarithm of a positive number. -/
def log (x : Binary) : Binary :=
  let n : Int := x.m.natAbs.log2 + 1
  let f : Binary := ⟨x.m, -n⟩
  let y := (List.range 9).foldl (fun y _ => logStep f y) ⟨-1, -2⟩
  add y (mul (ofRat (x.e + n : Int)) (ofFixed work ln2Work))

/-- Whole square root, by Newton steps from above. -/
def isqrt (n : Nat) : Nat :=
  let rec go : (fuel : Nat) → Nat → Nat
    | 0, x => x
    | fuel + 1, x =>
      let y := (x + n / x) / 2
      if y < x then go fuel y else x
  if n = 0 then 0 else go (n.log2 + 2) (Nat.pow 2 (n.log2 / 2 + 1))

/-- The root of a positive number. -/
def sqrt (x : Binary) : Binary :=
  let k := 2 * precision + 16
  let (m, e) := if x.e % 2 = 0 then (x.m, x.e) else (2 * x.m, x.e - 1)
  cut (isqrt (m.toNat * Nat.pow 2 k)) (e / 2 - k / 2)

end Binary

inductive Precise
  | exact (q : Rat)
  | approx (x : Binary)
  | undefined
  deriving Repr, Inhabited

namespace Precise

/-- Longer rationals are held to a few hundred bits only. -/
def exactLimit : Nat := 20000

def ofExact (q : Rat) : Precise :=
  if q.num.natAbs.log2 + q.den.log2 ≤ exactLimit then exact q else approx (Binary.ofRat q)

def binary : Precise → Binary
  | exact q => Binary.ofRat q
  | approx x => x
  | undefined => ⟨0, 0⟩

/-- An operation that is exact on rationals. -/
def combine (f : Rat → Rat → Rat) (g : Binary → Binary → Binary) : Precise → Precise → Precise
  | undefined, _ => undefined
  | _, undefined => undefined
  | exact p, exact q => ofExact (f p q)
  | x, y => approx (g x.binary y.binary)

def add : Precise → Precise → Precise := combine (· + ·) Binary.add

def sub : Precise → Precise → Precise := combine (· - ·) Binary.sub

/-- An exact zero makes the product exact. -/
def mul : Precise → Precise → Precise
  | undefined, _ => undefined
  | _, undefined => undefined
  | exact p, exact q => ofExact (p * q)
  | exact p, approx y => if p = 0 then exact 0 else approx (Binary.mul (Binary.ofRat p) y)
  | approx x, exact q => if q = 0 then exact 0 else approx (Binary.mul x (Binary.ofRat q))
  | approx x, approx y => approx (Binary.mul x y)

def isZero : Precise → Bool
  | exact q => q == 0
  | approx x => x.m == 0
  | undefined => false

def div (x y : Precise) : Precise :=
  if y.isZero then undefined
  else match x with
    | exact p =>
      if p = 0 then mul (exact 0) y else combine (· / ·) Binary.div (exact p) y
    | x => combine (· / ·) Binary.div x y

def neg : Precise → Precise
  | exact q => exact (-q)
  | approx x => approx x.neg
  | undefined => undefined

def isNegative : Precise → Bool
  | exact q => q < 0
  | approx x => x.m < 0
  | undefined => false

def natPower (x : Precise) : Nat → Precise
  | 0 => exact 1
  | n + 1 => mul (natPower x n) x

def sqrt : Precise → Precise
  | exact q =>
    let n := Binary.isqrt q.num.natAbs
    let d := Binary.isqrt q.den
    if n * n = q.num.natAbs ∧ d * d = q.den then exact (mkRat n d)
    else approx (Binary.sqrt (Binary.ofRat q))
  | approx x => approx (Binary.sqrt x)
  | undefined => undefined

def power (x : Precise) (q : Rat) : Precise :=
  match x with
  | undefined => undefined
  | x =>
    if q.den = 1 then
      if 0 ≤ q.num then natPower x q.num.toNat
      else div (exact 1) (natPower x (-q.num).toNat)
    else if x.isZero then (if q < 0 then undefined else exact 0)
    else if x.isNegative then undefined
    else if q.den = 2 then
      let r := natPower (sqrt x) q.num.natAbs
      if q < 0 then div (exact 1) r else r
    else approx (Binary.exp (Binary.mul (Binary.ofRat q) (Binary.log x.binary)))

/-- A negative base with an exponent that is not exact has no power. -/
def raise (x y : Precise) : Precise :=
  match x, y with
  | undefined, _ | _, undefined => undefined
  | x, exact q => power x q
  | x, y =>
    if x.isZero then (if y.isNegative then undefined else exact 0)
    else if x.isNegative then undefined
    else approx (Binary.exp (Binary.mul y.binary (Binary.log x.binary)))

def apply (f : Fn) (x : Precise) : Precise :=
  match x with
  | undefined => undefined
  | x =>
    match f with
    | .sin => if x.isZero then exact 0 else approx (Binary.sinCos x.binary).1
    | .cos => if x.isZero then exact 1 else approx (Binary.sinCos x.binary).2
    | .tanh => if x.isZero then exact 0 else approx (Binary.tanh x.binary)
    | .exp => if x.isZero then exact 1 else approx (Binary.exp x.binary)
    | .log =>
      if x.isZero || x.isNegative then undefined else approx (Binary.log x.binary)
    | .abs => if x.isNegative then neg x else x
    | .sign => exact (if x.isZero then 0 else if x.isNegative then -1 else 1)
    | .impulse _ => exact 0

def le : Precise → Precise → Bool
  | undefined, _ => false
  | _, undefined => false
  | x, y => !(sub y x).isNegative

/-- The shown form; what is undefined shows as `nan`. -/
def render : Precise → String
  | exact q => NumberFormat.standard.render q
  | approx x => NumberFormat.standard.render x.toRat
  | undefined => "nan"

instance : Scalar Precise where
  add := add
  sub := sub
  mul := mul
  div := div
  neg := neg
  ofRat := exact
  power := power
  raise := raise
  apply := apply
  le := le
  render := render

/-- The rational held, or nothing for what is undefined. -/
def toRat? : Precise → Option Rat
  | exact q => some q
  | approx x => some x.toRat
  | undefined => none

end Precise

end Flange

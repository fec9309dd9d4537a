import Flange.Expr.Pole

/-! # Normal sums, products and powers

Sums collect like terms, products multiply equal bases, numbers are folded, and a number times a
sum is distributed. Nothing else is expanded and no common denominators are formed. A negative
power of zero is kept as a pole; zero times a pole, and the sum of a pole with itself, have no value.
-/

namespace Flange

namespace Expr

/-! ### Sums -/

/-- `e` as a number times the rest. -/
def splitCoeff : Expr → Rat × Expr
  | num q => (q, one)
  | prod (num q) b => (q, b)
  | e => (1, e)

/-- The number `q` times `e`, where `e` has no number in front and is no sum. -/
def scaled (q : Rat) : Expr → Expr
  | num r => num (q * r)
  | e => if q = 1 then e else prod (num q) e

def terms : Expr → List (Rat × Expr)
  | sum a b => terms a ++ terms b
  | e => [splitCoeff e]

def insertTerm (q : Rat) (e : Expr) : List (Rat × Expr) → List (Rat × Expr)
  | [] => if q = 0 then [] else [(q, e)]
  | (r, f) :: rest =>
    match cmp e f with
    | .lt => if q = 0 then (r, f) :: rest else (q, e) :: (r, f) :: rest
    | .eq =>
      if f.isPole || f.hasUndefined then (1, undefined) :: rest
      else if q + r = 0 then rest else (q + r, f) :: rest
    | .gt => (r, f) :: insertTerm q e rest

def ofTerms : List (Rat × Expr) → Expr
  | [] => zero
  | [(q, e)] => scaled q e
  | (q, e) :: rest => sum (scaled q e) (ofTerms rest)

def plus (a b : Expr) : Expr :=
  match a, b with
  | num q, num r => num (q + r)
  | a, b =>
    ofTerms ((terms a).foldr (fun t acc => insertTerm t.1 t.2 acc)
      ((terms b).filter fun t => t.1 != 0))

instance : Add Expr := ⟨plus⟩

def sumOf (es : List Expr) : Expr := es.foldl (· + ·) zero

/-! ### Products -/

/-- A product taken apart: a number, the argument of its exponential, and powers of the other
bases. -/
structure Factors where
  coeff : Rat := 1
  exponent : Expr := zero
  powers : List (Expr × Rat) := []

/-- The number `q` times every term of `e`. -/
def distribute (q : Rat) (e : Expr) : Expr :=
  if q = 0 then zero
  else ofTerms ((terms e).map fun t => (q * t.1, t.2))

def insertPower (b : Expr) (q : Rat) : List (Expr × Rat) → List (Expr × Rat)
  | [] => if q = 0 then [] else [(b, q)]
  | (c, r) :: rest =>
    match cmp b c with
    | .lt => if q = 0 then (c, r) :: rest else (b, q) :: (c, r) :: rest
    | .eq => if q + r = 0 then rest else (c, q + r) :: rest
    | .gt => (c, r) :: insertPower b q rest

/-- The exponents of the base `b` together. -/
def exponentOf (b : Expr) : List (Expr × Rat) → Rat
  | [] => 0
  | (c, r) :: rest => if b = c then r + exponentOf b rest else exponentOf b rest

namespace Factors

/-- Multiplies by the number `c` to the power `q`; whole powers join the number in front. -/
def timesRoot (f : Factors) (c q : Rat) : Factors :=
  if c = 0 then { f with powers := insertPower (num c) q f.powers }
  else
    let r := exponentOf (num c) f.powers + q
    let k := r.floor
    let rest := f.powers.filter fun p => p.1 != num c
    { f with coeff := f.coeff * c ^ k, powers := insertPower (num c) (r - k) rest }

/-- Multiplies by the magnitude of `b` to the power `q`; even powers of a magnitude are powers of
`b` itself. -/
def timesMagnitude (f : Factors) (b : Expr) (q : Rat) : Factors :=
  let r := exponentOf (fn .abs b) f.powers + q
  let even : Rat := if r.den = 1 ∧ r ≠ -1 then 2 * (r / 2).floor else 0
  let rest := f.powers.filter fun p => p.1 != fn .abs b
  { f with powers := insertPower b even (insertPower (fn .abs b) (r - even) rest) }

/-- In a whole power of a power of `a`, how often the exponent contains `t`. -/
def share? (a t : Expr) : Expr × Rat → Option Rat
  | (raised b c, q) =>
    if q.den = 1 ∧ b = a ∧ (splitCoeff c).2 = t then some ((splitCoeff c).1 * q) else none
  | _ => none

/-- How often the exponents of the powers of `a` contain `t`. -/
def shares (a t : Expr) (ps : List (Expr × Rat)) : Rat :=
  (ps.filterMap (share? a t)).foldr (· + ·) 0

/-- Multiplies by the whole power `q` of `a` to the power `b`; exponents that are the same but for
a number are added. -/
def timesRaised (f : Factors) (a b : Expr) (q : Rat) : Factors :=
  let (c, t) := splitCoeff b
  let r := c * q + shares a t f.powers
  let rest := f.powers.filter fun p => (share? a t p).isNone
  { f with powers := if r = 0 then rest else insertPower (raised a (scaled r t)) 1 rest }

def timesPower (f : Factors) (b : Expr) (q : Rat) : Factors :=
  match b with
  | num c => f.timesRoot c q
  | fn .exp a => { f with exponent := f.exponent + distribute q a }
  | fn .abs (prod a b) => { f with powers := insertPower (fn .abs (prod a b)) q f.powers }
  | fn .abs a => f.timesMagnitude a q
  | raised a b =>
    if q.den = 1 then f.timesRaised a b q
    else { f with powers := insertPower (raised a b) q f.powers }
  | b => { f with powers := insertPower b q f.powers }

def times (f : Factors) : Expr → Factors
  | num q => { f with coeff := f.coeff * q }
  | prod a b => (f.times a).times b
  | power b q => f.timesPower b q
  | e => f.timesPower e 1

def chain : List Expr → Expr
  | [] => one
  | [e] => e
  | e :: rest => prod e (chain rest)

/-- The exponential of `a`; the exponential of a logarithm is its argument. -/
def exponential : Expr → List Expr
  | num q => if q = 0 then [] else [fn .exp (num q)]
  | fn .log b => [b]
  | a => [fn .exp a]

/-- A pole is among the factors. -/
def hasPole (f : Factors) : Bool := f.powers.any fun p => (power p.1 p.2).hasPole

def toExpr (f : Factors) : Expr :=
  if f.coeff = 0 then (if f.hasPole then undefined else zero)
  else
    let bases := f.powers.map (fun p => if p.2 = 1 then p.1 else power p.1 p.2) ++
      exponential f.exponent
    match bases with
    | [] => num f.coeff
    | [sum a b] => distribute f.coeff (sum a b)
    | bases => if f.coeff = 1 then chain bases else prod (num f.coeff) (chain bases)

end Factors

/-- The product of the listed expressions. -/
def productOf : List Expr → Expr
  | [e] => e
  | es => (es.foldl Factors.times {}).toExpr

instance : Mul Expr := ⟨fun a b => productOf [a, b]⟩

instance : Neg Expr := ⟨fun a => num (-1) * a⟩

instance : Sub Expr := ⟨fun a b => a + -b⟩

/-! ### Functions -/

/-- A sign is taken out of odd functions when most terms of the argument carry it. -/
def leadsNegative : Expr → Bool
  | num q => q < 0
  | prod (num q) _ => q < 0
  | sum a b =>
    let ts := terms (sum a b)
    let neg := (ts.filter fun t => t.1 < 0).length
    let pos := ts.length - neg
    if pos = neg then (ts.head?.map fun t => decide (t.1 < 0)).getD false else pos < neg
  | _ => false

def sin (a : Expr) : Expr :=
  if a.isZero then zero else if a.leadsNegative then -(fn .sin (-a)) else fn .sin a

def cos (a : Expr) : Expr :=
  if a.isZero then one else if a.leadsNegative then fn .cos (-a) else fn .cos a

def tanh (a : Expr) : Expr :=
  if a.isZero then zero else if a.leadsNegative then -(fn .tanh (-a)) else fn .tanh a

def exp (a : Expr) : Expr := Factors.toExpr { exponent := a }

def log : Expr → Expr
  | num q => if q = 1 then zero else if q = 0 then pole else fn .log (num q)
  | fn .exp a => a
  | a => fn .log a

def sign : Expr → Expr
  | num q => num (if q < 0 then -1 else if q = 0 then 0 else 1)
  | a => fn .sign a

/-- A sign is taken out of the argument. -/
def impulse (k : Nat) : Expr → Expr
  | num q => if q = 0 then fn (.impulse k) (num 0) else zero
  | prod (num q) a =>
    if q < 0 then num ((-1) ^ k) * fn (.impulse k) (-prod (num q) a)
    else fn (.impulse k) (prod (num q) a)
  | a => fn (.impulse k) a

def abs (a : Expr) : Expr :=
  match a with
  | num q => num (if q < 0 then -q else q)
  | fn .exp b => fn .exp b
  | fn .abs b => fn .abs b
  | prod (num q) b => num (if q < 0 then -q else q) * fn .abs b
  | power b q => if q.den = 1 ∧ q.num % 2 = 0 then power b q else fn .abs (power b q)
  | a => if a.leadsNegative then fn .abs (-a) else fn .abs a

def saturate : Expr → Expr
  | num q => num (if q < -1 then -1 else if q ≤ 1 then q else 1)
  | a => sat a

def gated (a b : Expr) : Expr :=
  if b.isZero then zero
  else match a with
    | num q => if -1 ≤ q ∧ q ≤ 1 then b else zero
    | a => gate a b

def apply : Fn → Expr → Expr
  | .sin => sin | .cos => cos | .tanh => tanh | .exp => exp | .log => log | .abs => abs
  | .sign => sign | .impulse k => impulse k

/-! ### Powers -/

/-- How often `p` divides `n`, and what is left. -/
def splitPrime (p : Nat) : (fuel n : Nat) → Nat × Nat
  | 0, n => (0, n)
  | fuel + 1, n =>
    if n % p = 0 then
      let (k, m) := splitPrime p fuel (n / p)
      (k + 1, m)
    else (0, n)

/-- Largest divisor tried when a root of a number is taken apart. -/
def trialLimit : Nat := 32768

/-- Prime powers of `n` by trial division from `p` on; a rest without small divisors is kept
whole. -/
def primePowers : (fuel p n : Nat) → List (Nat × Nat)
  | 0, _, n => if n ≤ 1 then [] else [(n, 1)]
  | fuel + 1, p, n =>
    if n ≤ 1 then []
    else if n < p * p then [(n, 1)]
    else
      let (k, m) := splitPrime p n.log2 n
      let rest := primePowers fuel (p + 1) m
      if k = 0 then rest else (p, k) :: rest

/-- The number `c` to the power `q`, as a number times roots of primes. -/
def numPower (c q : Rat) : Expr :=
  if c = 0 then (if q < 0 then pole else zero)
  else if q.den = 1 then num (c ^ q.num)
  else
    let start : Factors := if c < 0 then Factors.timesRoot {} (-1) q else {}
    let up := primePowers trialLimit 2 c.num.natAbs
    let down := primePowers trialLimit 2 c.den
    let f := up.foldl (fun f p => f.timesRoot (p.1 : Nat) (q * (p.2 : Nat))) start
    (down.foldl (fun f p => f.timesRoot (p.1 : Nat) (-(q * (p.2 : Nat)))) f).toExpr

/-- Factors that are never negative, whose roots can be taken apart from the rest. -/
def neverNegative : Expr → Rat → Bool
  | num c, _ => 0 ≤ c
  | fn .exp _, _ => true
  | fn .abs _, _ => true
  | power _ r, q => (r.den = 1 && r.num % 2 == 0) || q.den != 1 || r.den != 1
  | _, q => (q.den = 1 && q.num % 2 == 0) || q.den != 1

/-- `b ^ r` to the power `q`, for `q` not whole. -/
def rootOfPower (b : Expr) (r q : Rat) : Expr :=
  if r.den = 1 ∧ r.num % 2 = 0 then (Factors.timesPower {} (abs b) (r * q)).toExpr
  else if r.den ≠ 1 ∧ -1 < r ∧ r < 1 then
    if r * q = 1 then b else power b (r * q)
  else power (power b r) q

/-- A product to the power `q`, for `q` not whole: what is never negative is taken out. -/
def rootOfProduct (f : Factors) (q : Rat) : Expr :=
  let front := if f.coeff < 0 then -f.coeff else f.coeff
  let (out, inside) := f.powers.partition fun p => neverNegative p.1 p.2
  let kept : Factors := { coeff := if f.coeff < 0 then -1 else 1, powers := inside }
  let keptRoot := match kept.toExpr with
    | num c => numPower c q
    | e => power e q
  productOf (numPower front q :: (out.map fun p => rootOfPower p.1 p.2 q) ++
    [exp (distribute q f.exponent), keptRoot])

/-- `e` to the power `q`. -/
def pow (e : Expr) (q : Rat) : Expr :=
  if q = 0 then one
  else if q = 1 then e
  else match e with
    | num c => numPower c q
    | fn .exp a => exp (distribute q a)
    | fn .abs a => (Factors.timesPower {} (fn .abs a) q).toExpr
    | power b r =>
      if q.den = 1 then (Factors.timesPower {} b (r * q)).toExpr else rootOfPower b r q
    | prod a b =>
      let f := Factors.times {} (prod a b)
      if q.den = 1 then
        let start : Factors :=
          { coeff := f.coeff ^ q.num, exponent := distribute q f.exponent }
        (f.powers.foldl (fun g p => g.timesPower p.1 (p.2 * q)) start).toExpr
      else rootOfProduct f q
    | raised a b =>
      if q.den = 1 then (Factors.timesPower {} (raised a b) q).toExpr else power (raised a b) q
    | e => power e q

instance : Div Expr := ⟨fun a b => a * b.pow (-1)⟩

def sqrt (e : Expr) : Expr := e.pow (1 / 2)

/-- A power whose exponent is any expression. -/
def raise (a b : Expr) : Expr :=
  match b with
  | num q => a.pow q
  | b => match a with
    | num c => if c = 1 then one else raised (num c) b
    | fn .exp x => exp (b * x)
    | a => raised a b

end Expr

end Flange

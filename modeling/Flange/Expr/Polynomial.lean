/-! # Polynomials with rational coefficients

Sparse polynomials in a fixed list of generators, with exact division and greatest common
divisors.
-/

namespace Flange

/-- The exponents of the generators, in their order. -/
abbrev Monomial := List Nat

namespace Monomial

def unit (k : Nat) : Monomial := List.replicate k 0

def mul (m n : Monomial) : Monomial := List.zipWith (· + ·) m n

/-- Lexicographic, the larger exponent first. -/
def cmp : Monomial → Monomial → Ordering
  | [], [] => .eq
  | [], _ => .gt
  | _, [] => .lt
  | a :: m, b :: n => (compare b a).then (cmp m n)

def divides (m n : Monomial) : Bool := (List.zipWith (fun a b => decide (a ≤ b)) m n).all id

def div (n m : Monomial) : Monomial := List.zipWith (· - ·) n m

end Monomial

/-- Terms in decreasing order, none with coefficient 0. -/
abbrev Poly := List (Monomial × Rat)

namespace Poly

def isZero (p : Poly) : Bool := p.isEmpty

def const (k : Nat) (q : Rat) : Poly := if q = 0 then [] else [(Monomial.unit k, q)]

/-- The generator with index `i` among `k`. -/
def generator (k i : Nat) : Poly := [((Monomial.unit k).set i 1, 1)]

def addTerm (m : Monomial) (c : Rat) : Poly → Poly
  | [] => if c = 0 then [] else [(m, c)]
  | (n, d) :: rest =>
    match Monomial.cmp m n with
    | .lt => if c = 0 then (n, d) :: rest else (m, c) :: (n, d) :: rest
    | .eq => if c + d = 0 then rest else (n, c + d) :: rest
    | .gt => (n, d) :: addTerm m c rest

def add (p q : Poly) : Poly := p.foldr (fun t acc => addTerm t.1 t.2 acc) q

def scale (c : Rat) (p : Poly) : Poly :=
  if c = 0 then [] else p.map fun t => (t.1, c * t.2)

def neg (p : Poly) : Poly := p.map fun t => (t.1, -t.2)

def sub (p q : Poly) : Poly := add p (neg q)

def mulTerm (m : Monomial) (c : Rat) (p : Poly) : Poly :=
  p.map fun t => (Monomial.mul m t.1, c * t.2)

def mul (p q : Poly) : Poly := p.foldr (fun t acc => add (mulTerm t.1 t.2 q) acc) []

def pow (k : Nat) (p : Poly) : Nat → Poly
  | 0 => const k 1
  | n + 1 => mul p (pow k p n)

/-- The value of a polynomial without generators. -/
def constant? (p : Poly) : Option Rat :=
  match p with
  | [] => some 0
  | [(m, c)] => if m.all (· == 0) then some c else none
  | _ => none

/-- Division by a divisor of `p`; `none` when `q` does not divide `p`. -/
def divExact (q : Poly) : (fuel : Nat) → Poly → Option Poly
  | 0, p => if p.isEmpty then some [] else none
  | fuel + 1, p =>
    match p, q with
    | [], _ => some []
    | _, [] => none
    | (m, c) :: rest, (n, d) :: qs =>
      if Monomial.divides n m then
        let t := Monomial.div m n
        (divExact q fuel (sub rest (mulTerm t (c / d) qs))).map fun r => (t, c / d) :: r
      else none

/-- Steps enough for any exact division of `p`. -/
def divisionFuel (p : Poly) : Nat :=
  (p.map fun t => t.1.foldl (fun n a => n * (a + 1)) 1).foldl max 1 * (p.length + 1) + 64

def div? (p q : Poly) : Option Poly := divExact q (divisionFuel p) p

/-! ### Greatest common divisors -/

def degree (i : Nat) (p : Poly) : Nat := (p.map fun t => t.1.getD i 0).foldl max 0

/-- The coefficient of the power `d` of generator `i`. -/
def coeffAt (i d : Nat) (p : Poly) : Poly :=
  (p.filter fun t => t.1.getD i 0 == d).map fun t => (t.1.set i 0, t.2)

def coeffs (i : Nat) (p : Poly) : List Poly :=
  (List.range (degree i p + 1)).map fun d => coeffAt i d p

/-- The pseudo-remainder by `b` in generator `i`. -/
def pseudoRem (i : Nat) (b : Poly) : (fuel : Nat) → Poly → Poly
  | 0, a => a
  | fuel + 1, a =>
    let da := degree i a
    let db := degree i b
    if a.isEmpty ∨ da < db then a
    else
      let shift := (Monomial.unit ((a.head?.map fun t => t.1.length).getD 0)).set i (da - db)
      let left := mul (coeffAt i db b) a
      let right := mulTerm shift 1 (mul (coeffAt i da a) b)
      pseudoRem i b fuel (sub left right)

/-- Scaled to a leading coefficient of 1. -/
def monic (p : Poly) : Poly :=
  match p with
  | [] => []
  | (_, c) :: _ => scale (1 / c) p

/-- The greatest common divisor in the listed generators, up to a number. -/
def gcd : List Nat → Poly → Poly → Poly
  | [], p, q =>
    match p, q with
    | [], [] => []
    | (m, _) :: _, _ => [(m.map fun _ => 0, 1)]
    | [], (m, _) :: _ => [(m.map fun _ => 0, 1)]
  | i :: rest, p, q =>
    if p.isEmpty then monic q
    else if q.isEmpty then monic p
    else
      let content (r : Poly) := (coeffs i r).foldl (gcd rest) []
      let dp := degree i p
      let dq := degree i q
      if dp = 0 ∧ dq = 0 then gcd rest p q
      else if dp = 0 then gcd rest p (content q)
      else if dq = 0 then gcd rest (content p) q
      else
        let cp := content p
        let cq := content q
        let primitive (r : Poly) := if r.isEmpty then r else (div? r (content r)).getD r
        let rec euclid : (fuel : Nat) → Poly → Poly → Poly
          | 0, a, _ => a
          | fuel + 1, a, b =>
            if b.isEmpty then a
            else if degree i b = 0 then const ((a.head?.map fun t => t.1.length).getD 0) 1
            else euclid fuel b (monic (primitive (pseudoRem i b (degree i a + 1) a)))
        let a := primitive p
        let b := primitive q
        let g := if dp < dq then euclid (dq + 2) b a else euclid (dp + 2) a b
        monic (mul (gcd rest cp cq) (primitive g))

end Poly

end Flange

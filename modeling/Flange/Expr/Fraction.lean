import Flange.Expr.Arithmetic
import Flange.Expr.Polynomial

/-! # Expressions as quotients of polynomials

The polynomial generators of an expression are its symbols, roots and function values. Over these
an expression is a quotient of two polynomials, which is what decides whether a coefficient
vanishes identically.
-/

namespace Flange

namespace Expr

/-- The generators of `e` as a rational function. -/
def generators : Expr → List Expr
  | num _ => []
  | sum a b | prod a b => generators a ++ generators b
  | power a q => if q.den = 1 then generators a else [power a (mkRat 1 q.den)]
  | e => [e]

def generatorsOf (es : List Expr) : List Expr :=
  sortedBy (fun a b => cmp a b != .gt) (es.flatMap generators).eraseDups

end Expr

structure Fraction where
  num : Poly
  den : Poly
  deriving Repr, Inhabited

namespace Fraction

variable (k : Nat)

def ofPoly (p : Poly) : Fraction := ⟨p, Poly.const k 1⟩

def const (q : Rat) : Fraction := ofPoly k (Poly.const k q)

def isZero (f : Fraction) : Bool := f.num.isZero

def size (f : Fraction) : Nat := f.num.length + f.den.length

/-- Numerator and denominator without their common factors; of a number there are none. -/
def lowest (f : Fraction) : Poly × Poly :=
  match Poly.constant? f.den with
  | some _ => (f.num, f.den)
  | none =>
    let g := Poly.gcd (List.range k) f.num f.den
    match Poly.div? f.num g, Poly.div? f.den g with
    | some n, some d => (n, d)
    | _, _ => (f.num, f.den)

/-- Free of common factors, with a denominator whose leading coefficient is 1. -/
def cancel (f : Fraction) : Fraction :=
  if f.num.isZero then const k 0
  else
    let (n, d) := lowest k f
    match d with
    | [] => ⟨n, d⟩
    | (_, c) :: _ => ⟨Poly.scale (1 / c) n, Poly.scale (1 / c) d⟩

def add (f g : Fraction) : Fraction :=
  if f.isZero then g
  else if g.isZero then f
  else if f.den == g.den then cancel k ⟨Poly.add f.num g.num, f.den⟩
  else cancel k ⟨Poly.add (Poly.mul f.num g.den) (Poly.mul g.num f.den), Poly.mul f.den g.den⟩

def mul (f g : Fraction) : Fraction :=
  cancel k ⟨Poly.mul f.num g.num, Poly.mul f.den g.den⟩

def neg (f : Fraction) : Fraction := ⟨Poly.neg f.num, f.den⟩

def sub (f g : Fraction) : Fraction := add k f (neg g)

/-- The inverse of a fraction that is not zero. -/
def inv (f : Fraction) : Fraction := cancel k ⟨f.den, f.num⟩

def div (f g : Fraction) : Fraction := mul k f (inv k g)

def pow (f : Fraction) (n : Int) : Fraction :=
  if 0 ≤ n then ⟨Poly.pow k f.num n.toNat, Poly.pow k f.den n.toNat⟩
  else inv k ⟨Poly.pow k f.num (-n).toNat, Poly.pow k f.den (-n).toNat⟩

/-- `e` as a quotient of polynomials in `gens`. -/
def ofExpr (gens : List Expr) : Expr → Fraction
  | .num q => const gens.length q
  | .sum a b => add gens.length (ofExpr gens a) (ofExpr gens b)
  | .prod a b => mul gens.length (ofExpr gens a) (ofExpr gens b)
  | .power a q =>
    if q.den = 1 then pow gens.length (ofExpr gens a) q.num
    else
      let i := gens.idxOf (.power a (mkRat 1 q.den))
      pow gens.length (ofPoly gens.length (Poly.generator gens.length i)) q.num
  | e => ofPoly gens.length (Poly.generator gens.length (gens.idxOf e))

/-- A monomial as an expression. -/
def monomialExpr (gens : List Expr) (m : Monomial) (c : Rat) : Expr :=
  Expr.productOf (.num c :: List.zipWith (fun g (n : Nat) => g.pow n) gens m)

def polyExpr (gens : List Expr) (p : Poly) : Expr :=
  Expr.sumOf (p.map fun t => monomialExpr gens t.1 t.2)

/-- Every term of the numerator over the denominator. -/
def toExpr (gens : List Expr) (f : Fraction) : Expr :=
  match Poly.constant? f.den with
  | some c => polyExpr gens (Poly.scale (1 / c) f.num)
  | none =>
    let d := (polyExpr gens f.den).pow (-1)
    Expr.sumOf (f.num.map fun t => monomialExpr gens t.1 t.2 * d)

end Fraction

end Flange

import Flange.Proofs.Expr.Embedding

/-! # Real numbers with infinities

Floating-point arithmetic without rounding: real numbers, two infinities, and what compares with
nothing. Divided by zero, a number is infinite, and zero is undefined; so are roots and logarithms
of negative numbers.
-/

namespace Flange

inductive WideReal
  | real (x : ℝ)
  | infinity (negative : Bool)
  | undefined

namespace WideReal

noncomputable section

def add : WideReal → WideReal → WideReal
  | undefined, _ | _, undefined => undefined
  | infinity a, infinity b => if a = b then infinity a else undefined
  | infinity a, real _ | real _, infinity a => infinity a
  | real x, real y => real (x + y)

def neg : WideReal → WideReal
  | real x => real (-x)
  | infinity a => infinity !a
  | undefined => undefined

def mul : WideReal → WideReal → WideReal
  | undefined, _ | _, undefined => undefined
  | infinity a, infinity b => infinity (a != b)
  | infinity a, real x | real x, infinity a =>
    if x = 0 then undefined else infinity (a != decide (x < 0))
  | real x, real y => real (x * y)

def inverse : WideReal → WideReal
  | real x => if x = 0 then infinity false else real x⁻¹
  | infinity _ => real 0
  | undefined => undefined

/-- A power of minus infinity is positive unless the exponent is odd; what is formed with its square
root is undefined. -/
def power (x : WideReal) (q : ℚ) : WideReal :=
  if q = 0 then real 1
  else match x with
    | real x =>
      if x = 0 ∧ q < 0 then infinity false
      else if x < 0 ∧ q.den ≠ 1 then undefined
      else real (realPower x q)
    | infinity a =>
      if a ∧ |q| = 1 / 2 then undefined
      else if q < 0 then real 0
      else infinity (a && decide (q.den = 1 ∧ q.num % 2 = 1))
    | undefined => undefined

open Classical in
/-- To the power of zero everything is one, and so is one to any power. An infinite exponent
compares the magnitude of the base with one. -/
def raise : WideReal → WideReal → WideReal
  | x, real y =>
    if y = 0 then real 1
    else match x with
      | real x =>
        if x = 0 ∧ y < 0 then infinity false
        else if x < 0 ∧ ¬ ∃ n : ℤ, y = n then undefined
        else real (x ^ y)
      | infinity a => if y < 0 then real 0 else infinity (a && decide (∃ n : ℤ, Odd n ∧ y = n))
      | undefined => undefined
  | real x, infinity a =>
    if |x| = 1 then real 1 else if decide (1 < |x|) = a then real 0 else infinity false
  | infinity _, infinity a => if a then real 0 else infinity false
  | real x, undefined => if x = 1 then real 1 else undefined
  | undefined, _ | _, undefined => undefined

def apply (f : Fn) : WideReal → WideReal
  | real x =>
    if f = .log ∧ x = 0 then infinity true
    else if f = .log ∧ x < 0 then undefined
    else real (f.real x)
  | infinity a => match f with
    | .sin | .cos => undefined
    | .tanh | .sign => real (if a then -1 else 1)
    | .exp => if a then real 0 else infinity false
    | .log => if a then undefined else infinity false
    | .abs => infinity false
    | .impulse _ => real 0
  | undefined => undefined

def le : WideReal → WideReal → Bool
  | undefined, _ | _, undefined => false
  | infinity true, _ | _, infinity false => true
  | infinity false, _ | _, infinity true => false
  | real x, real y => decide (x ≤ y)

instance : Scalar WideReal where
  add := add
  sub x y := add x (neg y)
  mul := mul
  div x y := mul x (inverse y)
  neg := neg
  ofRat q := real q
  power := power
  raise := raise
  apply := apply
  le := le
  render _ := ""

/-- The numbers are the real ones. -/
theorem embeds : Scalar.Embeds WideReal.real where
  ofRat _ := rfl
  add _ _ := rfl
  mul _ _ := rfl
  neg _ := rfl
  power {x q} hx := by
    change power (real x) q = _
    unfold power
    split
    · next hq => rw [hq, realPower_zero]
    · dsimp only
      rw [if_neg fun hbad => hx.ne_zero hbad.2 hbad.1,
        if_neg fun hbad => (hx.pos hbad.2).not_gt hbad.1]
  raise {x y} hxy := by
    change raise (real x) (real y) = _
    simp only [raise]
    split
    · next hy => rw [hy, Real.rpow_zero]
    · rw [if_neg fun hbad => hxy.ne_zero hbad.1,
        if_neg fun hbad => hbad.2 (hxy.resolve_left hbad.1.not_gt).2]
  apply {f x} hx := by
    have hpos : f = .log → 0 < x := by
      rintro rfl
      exact hx
    change apply f (real x) = _
    unfold apply
    dsimp only
    rw [if_neg fun hbad => (hpos hbad.1).ne' hbad.2, if_neg fun hbad => (hpos hbad.1).not_gt hbad.2]
  le _ _ := rfl

theorem undefined_eq : (Scalar.undefined : WideReal) = undefined := by
  change mul (real (0 : ℚ)) (inverse (real (0 : ℚ))) = undefined
  simp [inverse, mul]

/-- What is not found to be larger than `ε` is not larger, or it is undefined. -/
theorem not_lt_abs_iff {ε : ℚ} {v : WideReal} :
    Scalar.lt (Scalar.ofRat ε) (Scalar.abs v) = false ↔
      v = undefined ∨ ∃ y, v = real y ∧ |y| ≤ ε := by
  cases v with
  | real y =>
    have hlt : Scalar.lt (Scalar.ofRat ε) (real |y|) = decide ((ε : ℝ) < |y|) := by
      rw [Scalar.lt, embeds.ofRat_le, embeds.le_ofRat, ← decide_not, ← Bool.decide_and]
      exact decide_eq_decide.mpr lt_iff_le_not_ge.symm
    rw [embeds.abs, hlt, decide_eq_false_iff_not, not_lt]
    simp
  | infinity a =>
    have habs : Scalar.abs (infinity a) = infinity false := by cases a <;> rfl
    rw [habs]
    exact iff_of_false Bool.noConfusion (by simp)
  | undefined => exact iff_of_true rfl (Or.inl rfl)

end

end WideReal

end Flange

import Flange.Number.Symbolic
import Flange.Proofs.Expr.Value

/-! # Real numbers among others

Where an expression is regular it has its real value also in a kind of number that has more than the
real numbers, as long as the operations agree on these.
-/

namespace Flange

namespace Scalar

variable {α : Type} [Scalar α] {ι : ℝ → α} {x y : ℝ} {q : ℚ} {f : Fn}

/-- The real numbers lie in `α` with their operations, where these are defined, and their order. -/
structure Embeds (ι : ℝ → α) : Prop where
  ofRat : ∀ q : ℚ, Scalar.ofRat q = ι q
  add : ∀ x y, ι x + ι y = ι (x + y)
  mul : ∀ x y, ι x * ι y = ι (x * y)
  neg : ∀ x, -ι x = ι (-x)
  power : ∀ {x q}, PowerDefined x q → Scalar.power (ι x) q = ι (realPower x q)
  raise : ∀ {x y}, RaiseDefined x y → Scalar.raise (ι x) (ι y) = ι (x ^ y)
  apply : ∀ {f x}, f.Defined False x → Scalar.apply f (ι x) = ι (f.real x)
  le : ∀ x y, Scalar.le (ι x) (ι y) = decide (x ≤ y)

namespace Embeds

variable (h : Embeds ι)

include h

theorem le_ofRat : Scalar.le (ι x) (Scalar.ofRat q) = decide (x ≤ q) := by rw [h.ofRat, h.le]

theorem ofRat_le : Scalar.le (Scalar.ofRat q) (ι x) = decide ((q : ℝ) ≤ x) := by
  rw [h.ofRat, h.le]

theorem isUndefined (x : ℝ) : Scalar.isUndefined (ι x) = false := by
  simp [Scalar.isUndefined, h.le]

theorem isZero (x : ℝ) : Scalar.isZero (ι x) = decide (x = 0) := by
  rw [Scalar.isZero, h.le_ofRat, h.ofRat_le, Rat.cast_zero, ← Bool.decide_and]
  exact decide_eq_decide.mpr le_antisymm_iff.symm

theorem lt_ofRat : Scalar.lt (ι x) (Scalar.ofRat q) = decide (x < q) := by
  rw [Scalar.lt, h.le_ofRat, h.ofRat_le, ← decide_not, ← Bool.decide_and]
  exact decide_eq_decide.mpr lt_iff_le_not_ge.symm

theorem isNegative (x : ℝ) : Scalar.isNegative (ι x) = decide (x < 0) := by
  rw [Scalar.isNegative, h.lt_ofRat, Rat.cast_zero]

theorem clamp (x : ℝ) : Scalar.clamp (ι x) = ι (Scalar.clamp x) := by
  rw [Scalar.clamp_real, Scalar.clamp, h.isUndefined, if_neg Bool.false_ne_true, h.ofRat_le,
    h.le_ofRat, h.ofRat, h.ofRat, Rat.cast_neg, Rat.cast_one]
  by_cases hlow : x < -1
  · simp [hlow]
  · by_cases hhigh : x ≤ 1 <;> simp [hlow, hhigh, not_lt.mp hlow]

theorem gated (x y : ℝ) : Scalar.gated (ι x) (ι y) = ι (Scalar.gated x y) := by
  rw [Scalar.gated_real, Scalar.gated, h.isUndefined, if_neg Bool.false_ne_true, Scalar.within,
    h.ofRat_le, h.le_ofRat, h.ofRat, Rat.cast_neg, Rat.cast_one, Rat.cast_zero, ← Bool.decide_and]
  simp only [abs_le, decide_eq_true_eq]
  split_ifs <;> rfl

theorem abs (x : ℝ) : Scalar.abs (ι x) = ι |x| := by
  rw [Scalar.abs, h.ofRat_le, Rat.cast_zero]
  split
  · next hx => rw [abs_of_nonneg (of_decide_eq_true hx)]
  · next hx => rw [h.neg, abs_of_neg (by simpa using hx)]

/-- A regular expression has its real value. -/
theorem eval {ρ : Valuation ℝ} {e : Expr} (he : e.Regular False ρ) :
    e.eval (ρ.map ι) = ι (e.eval ρ) := by
  induction e with
  | num q => exact h.ofRat q
  | sym s => cases s <;> rfl
  | sum a b iha ihb =>
    change a.eval (ρ.map ι) + b.eval (ρ.map ι) = _
    rw [iha he.1, ihb he.2, h.add, Expr.eval_sum]
  | prod a b iha ihb =>
    change a.eval (ρ.map ι) * b.eval (ρ.map ι) = _
    rw [iha he.1, ihb he.2, h.mul, Expr.eval_prod]
  | power a q ih =>
    change Scalar.power (a.eval (ρ.map ι)) q = _
    rw [ih he.1, h.power he.2.1, Expr.eval_power]
  | fn f a ih =>
    change Scalar.apply f (a.eval (ρ.map ι)) = _
    rw [ih he.1, h.apply he.2, Expr.eval_fn]
  | sat a ih =>
    change Scalar.clamp (a.eval (ρ.map ι)) = _
    rw [ih he.1, h.clamp, Expr.eval_sat]
  | gate a b iha ihb =>
    change Scalar.gated (a.eval (ρ.map ι)) (b.eval (ρ.map ι)) = _
    rw [iha he.1, ihb he.2.1, h.gated, Expr.eval_gate]
  | raised a b iha ihb =>
    change Scalar.raise (a.eval (ρ.map ι)) (b.eval (ρ.map ι)) = _
    rw [iha he.1, ihb he.2.1, h.raise he.2.2, Expr.eval_raised]

/-- What is closed and has a real value is that number. -/
theorem symbolic : Embeds fun x => Symbolic.real (ι x) where
  ofRat q := congrArg Symbolic.real (h.ofRat q)
  add x y := congrArg Symbolic.real (h.add x y)
  mul x y := congrArg Symbolic.real (h.mul x y)
  neg x := congrArg Symbolic.real (h.neg x)
  power {x q} hx := by
    change Symbolic.power (Symbolic.real (ι x)) q = _
    unfold Symbolic.power
    split
    · next hq => rw [hq, realPower_zero, h.ofRat, Rat.cast_one]
    · dsimp only
      have hpole : (decide (q < 0) && Scalar.isZero (ι x)) = false := by
        rw [h.isZero, ← Bool.decide_and]
        exact decide_eq_false fun hbad => hx.ne_zero hbad.1 hbad.2
      have hroot : (q.den != 1 && Scalar.isNegative (ι x)) = false := by
        rw [h.isNegative, Bool.and_eq_false_iff]
        by_cases hq : q.den = 1
        · exact Or.inl (by simp [hq])
        · exact Or.inr (decide_eq_false (hx.pos hq).not_gt)
      rw [hpole, hroot, if_neg Bool.false_ne_true, if_neg Bool.false_ne_true, h.power hx]
  raise {x y} hxy := by
    change Symbolic.raise (Symbolic.real (ι x)) (Symbolic.real (ι y)) = _
    unfold Symbolic.raise
    dsimp only
    rw [h.isZero, h.isZero, h.raise hxy, h.isUndefined, if_neg Bool.false_ne_true]
    by_cases hy : y = 0
    · simp [hy, h.ofRat]
    · simp [hy, hxy.ne_zero]
  apply {f x} hx := by
    change Symbolic.apply f (Symbolic.real (ι x)) = _
    unfold Symbolic.apply
    dsimp only
    have hpos : f = .log → 0 < x := by
      rintro rfl
      exact hx
    have hzero : (decide (f = .log) && Scalar.isZero (ι x)) = false := by
      rw [h.isZero, ← Bool.decide_and]
      exact decide_eq_false fun hbad => (hpos hbad.1).ne' hbad.2
    have hnegative : (decide (f = .log) && Scalar.isNegative (ι x)) = false := by
      rw [h.isNegative, ← Bool.decide_and]
      exact decide_eq_false fun hbad => (hpos hbad.1).not_gt hbad.2
    rw [hzero, hnegative, if_neg Bool.false_ne_true, if_neg Bool.false_ne_true, h.apply hx]
  le x y := h.le x y

theorem number? {ρ : Valuation ℝ} {e : Expr} (he : e.Regular False ρ) :
    e.number? (ρ.map ι) = some (ι (e.eval ρ)) := by
  have hvalue := h.symbolic.eval he
  rw [Expr.number?]
  change (e.eval (ρ.map fun x => Symbolic.real (ι x))).number? = _
  rw [hvalue]
  rfl

theorem number?_undefined (ρ : Valuation α) :
    Expr.undefined.number? ρ = some (Scalar.undefined : α) := by
  have hzero : Scalar.isZero (Scalar.ofRat 0 : α) = true := by
    rw [h.ofRat, h.isZero]
    simp
  have hpole : Expr.pole.eval (ρ.map Symbolic.real) = Symbolic.infinite := by
    change Symbolic.power (Symbolic.real (Scalar.ofRat 0)) (-1) = Symbolic.infinite
    rw [Symbolic.power, if_neg (by decide), hzero]
    rfl
  rw [Expr.number?, Expr.undefined, Expr.eval, hpole]
  rfl

end Embeds

end Scalar

end Flange

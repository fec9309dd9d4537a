import Flange.Proofs.Expr.Product

/-! # Values of functions

Taking a sign out of a function, and the functions of numbers, keep the value.
-/

namespace Flange

namespace Expr

variable {smooth : Prop} {ρ : Valuation ℝ} {a b e : Expr} {x y : ℝ} {q : ℚ}

theorem eq_zero_of_isZero (h : e.isZero = true) : e = zero := by
  cases e <;> simp_all [isZero, zero]

theorem Denotes.eq_zero (h : e.Denotes smooth ρ x) (hz : e.isZero = true) : x = 0 := by
  rw [← h.eval, eq_zero_of_isZero hz, eval_zero]

theorem denotes_sat (h : e.Denotes smooth ρ x) (hx : smooth → |x| ≠ 1) :
    (sat e).Denotes smooth ρ (Scalar.clamp x) := by
  obtain ⟨h, rfl⟩ := h
  exact ⟨⟨h, hx⟩, rfl⟩

theorem denotes_gate (ha : a.Denotes smooth ρ x) (hb : b.Denotes smooth ρ y)
    (hx : smooth → |x| ≠ 1) : (gate a b).Denotes smooth ρ (Scalar.gated x y) := by
  obtain ⟨ha, rfl⟩ := ha
  obtain ⟨hb, rfl⟩ := hb
  exact ⟨⟨ha, hb, hx⟩, rfl⟩

theorem denotes_sin (h : e.Denotes smooth ρ x) : (sin e).Denotes smooth ρ (Real.sin x) := by
  unfold sin
  split
  · next hz => exact denotes_zero.congr (by rw [h.eq_zero hz, Real.sin_zero])
  · split
    · refine (denotes_neg (denotes_fn (f := .sin) (denotes_neg h) trivial)).congr ?_
      rw [Fn.real, Real.sin_neg, neg_neg]
    · exact denotes_fn h trivial

theorem denotes_cos (h : e.Denotes smooth ρ x) : (cos e).Denotes smooth ρ (Real.cos x) := by
  unfold cos
  split
  · next hz => exact denotes_one.congr (by rw [h.eq_zero hz, Real.cos_zero])
  · split
    · refine (denotes_fn (f := .cos) (denotes_neg h) trivial).congr ?_
      rw [Fn.real, Real.cos_neg]
    · exact denotes_fn h trivial

theorem denotes_tanh (h : e.Denotes smooth ρ x) : (tanh e).Denotes smooth ρ (Real.tanh x) := by
  unfold tanh
  split
  · next hz => exact denotes_zero.congr (by rw [h.eq_zero hz, Real.tanh_zero])
  · split
    · refine (denotes_neg (denotes_fn (f := .tanh) (denotes_neg h) trivial)).congr ?_
      rw [Fn.real, Real.tanh_neg, neg_neg]
    · exact denotes_fn h trivial

theorem denotes_exp (h : e.Denotes smooth ρ x) : (exp e).Denotes smooth ρ (Real.exp x) :=
  FactorsDenote.toExpr ⟨x, 1, h, .nil, by simp⟩

theorem denotes_log (h : e.Denotes smooth ρ x) (hx : 0 < x) :
    (log e).Denotes smooth ρ (Real.log x) := by
  unfold log
  split
  · next q =>
    split
    · next hq => exact denotes_zero.congr (by rw [← h.eval, eval_num, hq]; simp)
    · split
      · next hq => exact absurd (h.eval.symm.trans (by rw [eval_num, hq, Rat.cast_zero])) hx.ne'
      · exact denotes_fn h hx
  · next a =>
    obtain ⟨⟨ha, -⟩, rfl⟩ := h
    exact ha.denotes.congr (Real.log_exp _).symm
  · exact denotes_fn h hx

theorem denotes_sign (h : e.Denotes smooth ρ x) (hx : smooth → x ≠ 0) :
    (sign e).Denotes smooth ρ (Real.sign x) := by
  unfold sign
  split
  · next q =>
    obtain rfl := h.eval
    refine (denotes_num _).congr ?_
    rw [eval_num]
    rcases lt_trichotomy q 0 with hq | rfl | hq
    · rw [if_pos hq, Real.sign_of_neg (by exact_mod_cast hq)]
      norm_num
    · simp
    · rw [if_neg hq.not_gt, if_neg hq.ne', Real.sign_of_pos (by exact_mod_cast hq), Rat.cast_one]
  · exact denotes_fn h hx

theorem denotes_impulse (k : Nat) (h : e.Denotes smooth ρ x) (hx : smooth → x ≠ 0) :
    (impulse k e).Denotes smooth ρ 0 := by
  unfold impulse
  split
  · next q =>
    split
    · next hq => exact denotes_fn (f := .impulse k) (hq ▸ h) hx
    · exact denotes_zero
  · split
    · exact (denotes_mul (denotes_num _) (denotes_fn (f := .impulse k) (denotes_neg h)
        fun hs => neg_ne_zero.mpr (hx hs))).congr (mul_zero _)
    · exact denotes_fn (f := .impulse k) h hx
  · exact denotes_fn (f := .impulse k) h hx

theorem cast_magnitude (q : ℚ) : ((if q < 0 then -q else q : ℚ) : ℝ) = |(q : ℝ)| := by
  split
  · next hq => rw [Rat.cast_neg, abs_of_neg (by exact_mod_cast hq)]
  · next hq => rw [abs_of_nonneg (by exact_mod_cast not_lt.mp hq)]

theorem denotes_abs (h : e.Denotes smooth ρ x) (hx : smooth → x ≠ 0) :
    (abs e).Denotes smooth ρ |x| := by
  unfold abs
  split
  · next q =>
    obtain rfl := h.eval
    exact (denotes_num _).congr (cast_magnitude q)
  · next b =>
    refine h.congr ?_
    rw [← h.eval, eval_fn, Fn.real, Real.abs_exp]
  · next b =>
    refine h.congr ?_
    rw [← h.eval, eval_fn, Fn.real, abs_abs]
  · next q b =>
    obtain ⟨⟨-, hb⟩, rfl⟩ := h
    refine (denotes_mul (denotes_num _)
      (denotes_fn (f := .abs) hb.denotes fun hs => right_ne_zero_of_mul (hx hs))).congr ?_
    rw [cast_magnitude, eval_prod, abs_mul, eval_num, Fn.real]
  · next b q =>
    split
    · next hq =>
      refine h.congr ?_
      rw [← h.eval, eval_power, abs_of_nonneg (realPower_nonneg_of_even hq.1 hq.2)]
    · exact denotes_fn h hx
  · split
    · exact (denotes_fn (f := .abs) (denotes_neg h) fun hs => neg_ne_zero.mpr (hx hs)).congr
        (abs_neg x)
    · exact denotes_fn h hx

theorem cast_clamp (q : ℚ) :
    ((if q < -1 then -1 else if q ≤ 1 then q else 1 : ℚ) : ℝ) = Scalar.clamp (q : ℝ) := by
  rw [Scalar.clamp_real]
  have hlow : (q : ℝ) < -1 ↔ q < -1 := by exact_mod_cast Iff.rfl
  have hhigh : (q : ℝ) ≤ 1 ↔ q ≤ 1 := by exact_mod_cast Iff.rfl
  simp only [hlow, hhigh]
  split_ifs <;> simp

theorem denotes_saturate (h : e.Denotes smooth ρ x) (hx : smooth → |x| ≠ 1) :
    (saturate e).Denotes smooth ρ (Scalar.clamp x) := by
  unfold saturate
  split
  · next q =>
    obtain rfl := h.eval
    exact (denotes_num _).congr (cast_clamp q)
  · exact denotes_sat h hx

theorem denotes_gated (ha : a.Denotes smooth ρ x) (hb : b.Denotes smooth ρ y)
    (hx : smooth → |x| ≠ 1) : (gated a b).Denotes smooth ρ (Scalar.gated x y) := by
  unfold gated
  split
  · next hz => exact denotes_zero.congr (by rw [Scalar.gated_real, hb.eq_zero hz, ite_self])
  · split
    · next q =>
      have hq : (-1 ≤ q ∧ q ≤ 1) ↔ |x| ≤ 1 := by
        rw [← ha.eval, eval_num, abs_le]
        exact_mod_cast Iff.rfl
      rw [Scalar.gated_real]
      split
      · next h => exact hb.congr (if_pos (hq.mp h)).symm
      · next h => exact denotes_zero.congr (if_neg (mt hq.mpr h)).symm
    · exact denotes_gate ha hb hx

/-- Applying a function to an expression keeps the value. -/
theorem denotes_apply {f : Fn} (h : e.Denotes smooth ρ x) (hf : f.Defined smooth x) :
    (apply f e).Denotes smooth ρ (f.real x) :=
  match f with
  | .sin => denotes_sin h
  | .cos => denotes_cos h
  | .tanh => denotes_tanh h
  | .exp => denotes_exp h
  | .log => denotes_log h hf
  | .abs => denotes_abs h hf
  | .sign => denotes_sign h hf
  | .impulse k => denotes_impulse k h hf

end Expr

end Flange

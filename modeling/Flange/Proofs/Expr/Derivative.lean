import Mathlib.Analysis.Calculus.Deriv.Abs
import Mathlib.Analysis.SpecialFunctions.Pow.Deriv
import Mathlib.Analysis.SpecialFunctions.Trigonometric.DerivHyp
import Flange.Expr.Derivative
import Flange.Proofs.Expr.Powers

/-! # Values of derivatives

The value of a symbolic derivative is the rate at which the value of the expression changes, when
its symbols change at the given rates.
-/

namespace Flange

/-! ### Functions -/

noncomputable def Fn.slope : Fn → ℝ → ℝ
  | .sin => Real.cos
  | .cos => fun x => -Real.sin x
  | .tanh => fun x => 1 - Real.tanh x ^ 2
  | .exp => Real.exp
  | .log => fun x => x⁻¹
  | .abs => Real.sign
  | .sign | .impulse _ => fun _ => 0

theorem hasDerivAt_tanh (x : ℝ) : HasDerivAt Real.tanh (1 - Real.tanh x ^ 2) x := by
  have hcosh := (Real.cosh_pos x).ne'
  have hdiv := (Real.hasDerivAt_sinh x).div (Real.hasDerivAt_cosh x) hcosh
  rw [Real.tanh_eq_sinh_div_cosh]
  refine (hdiv.congr_deriv ?_).congr_of_eventuallyEq
    (.of_forall fun y => Real.tanh_eq_sinh_div_cosh y)
  field_simp

theorem hasDerivAt_abs_sign {x : ℝ} (hx : x ≠ 0) : HasDerivAt (fun y => |y|) (Real.sign x) x := by
  rcases hx.lt_or_gt with h | h
  · rw [Real.sign_of_neg h]
    exact hasDerivAt_abs_neg h
  · rw [Real.sign_of_pos h]
    exact hasDerivAt_abs_pos h

theorem hasDerivAt_sign {x : ℝ} (hx : x ≠ 0) : HasDerivAt Real.sign 0 x := by
  rcases hx.lt_or_gt with h | h
  · refine (hasDerivAt_const x (-1 : ℝ)).congr_of_eventuallyEq ?_
    filter_upwards [gt_mem_nhds h] with y hy using Real.sign_of_neg hy
  · refine (hasDerivAt_const x (1 : ℝ)).congr_of_eventuallyEq ?_
    filter_upwards [lt_mem_nhds h] with y hy using Real.sign_of_pos hy

theorem Fn.hasDerivAt {f : Fn} {x : ℝ} (h : f.Defined True x) :
    HasDerivAt f.real (f.slope x) x :=
  match f with
  | .sin => Real.hasDerivAt_sin x
  | .cos => Real.hasDerivAt_cos x
  | .tanh => hasDerivAt_tanh x
  | .exp => Real.hasDerivAt_exp x
  | .log => Real.hasDerivAt_log (ne_of_gt h)
  | .abs => hasDerivAt_abs_sign (h trivial)
  | .sign => hasDerivAt_sign (h trivial)
  | .impulse _ => hasDerivAt_const x 0

theorem hasDerivAt_clamp {x : ℝ} (hx : |x| ≠ 1) :
    HasDerivAt Scalar.clamp (Scalar.gated x 1) x := by
  rw [Scalar.gated_real]
  rcases hx.lt_or_gt with h | h
  · rw [if_pos h.le]
    refine (hasDerivAt_id x).congr_of_eventuallyEq ?_
    filter_upwards [(isOpen_lt continuous_abs continuous_const).mem_nhds h] with y hy
    obtain ⟨hlow, hhigh⟩ := abs_lt.mp hy
    rw [Scalar.clamp_real, if_neg hlow.le.not_gt, if_pos hhigh.le, id]
  · rw [if_neg h.not_ge]
    rcases lt_abs.mp h with h | h
    · refine (hasDerivAt_const x (1 : ℝ)).congr_of_eventuallyEq ?_
      filter_upwards [lt_mem_nhds h] with y hy
      rw [Scalar.clamp_real, if_neg (by linarith), if_neg hy.not_ge]
    · refine (hasDerivAt_const x (-1 : ℝ)).congr_of_eventuallyEq ?_
      filter_upwards [gt_mem_nhds (lt_neg_of_lt_neg h)] with y hy
      rw [Scalar.clamp_real, if_pos hy]

theorem realPower_whole (a : ℝ) (n : ℕ) : realPower a n = a ^ n := by
  rw [realPower_of_den (Rat.den_natCast n), Rat.num_natCast, zpow_natCast]

theorem one_le_of_den {q : ℚ} (hden : q.den = 1) (hq : 0 < q) : 1 ≤ q := by
  rw [← cast_num_of_den hden] at hq ⊢
  exact_mod_cast hq

/-- The derivative of a power is defined where the power and its first factor are. -/
theorem PowerDefined.slope {a : ℝ} {q : ℚ} (h : PowerDefined a q) (hq : q ≠ 0) :
    a ≠ 0 ∨ 1 ≤ q := by
  by_contra hn
  obtain ⟨rfl, hlt⟩ : a = 0 ∧ q < 1 := by simpa using hn
  have hden : q.den = 1 := by_contra fun hd => lt_irrefl _ (h.pos hd)
  rcases hq.lt_or_gt with hneg | hpos
  · exact h.ne_zero hneg rfl
  · exact hlt.not_ge (one_le_of_den hden hpos)

theorem hasDerivAt_realPower {f : ℝ → ℝ} {f' t : ℝ} {q : ℚ} (hf : HasDerivAt f f' t)
    (h : PowerDefined (f t) q) (hq : q ≠ 0) :
    HasDerivAt (fun s => realPower (f s) q) (q * realPower (f t) (q - 1) * f') t := by
  have hcases : f t ≠ 0 ∨ (1 : ℝ) ≤ q := (h.slope hq).imp_right fun h => by exact_mod_cast h
  refine (hf.rpow_const hcases).congr_deriv ?_
  rw [realPower, Rat.cast_sub, Rat.cast_one]
  ring

/-- The rate of a power whose exponent changes too. -/
theorem hasDerivAt_raised {f g : ℝ → ℝ} {f' g' t : ℝ} (hf : HasDerivAt f f' t)
    (hg : HasDerivAt g g' t) (h : RaiseDefined (f t) (g t)) :
    HasDerivAt (fun s => f s ^ g s) (f t ^ g t * (g' * Real.log (f t) + f' * g t / f t)) t := by
  have hsub := Real.rpow_sub_one h.ne_zero (g t)
  rcases h.ne_zero.lt_or_gt with hneg | hpos
  · -- the sine in the rate of a negative base vanishes at whole exponents
    obtain ⟨-, n, hn⟩ := h.resolve_left hneg.not_gt
    have hsin : Real.sin (g t * Real.pi) = 0 := hn ▸ Real.sin_int_mul_pi n
    have hrate := (Real.hasStrictFDerivAt_rpow_of_neg (f t, g t) hneg).hasFDerivAt.comp_hasDerivAt t
      (hf.prodMk hg)
    refine hrate.congr_deriv ?_
    simp only [hsub, hsin, mul_zero, zero_mul, sub_zero, add_apply, smul_apply, smul_eq_mul,
      ContinuousLinearMap.coe_fst', ContinuousLinearMap.coe_snd']
    field_simp
    ring
  · refine (hf.rpow hg hpos).congr_deriv ?_
    rw [hsub]
    field_simp
    ring

namespace Expr

variable {smooth : Prop} {ρ : Valuation ℝ} {a b e : Expr} {x y : ℝ} {q : ℚ}

theorem denotes_fnDerivative {f : Fn} (h : e.Denotes smooth ρ x) (hf : f.Defined smooth x) :
    (fnDerivative f e).Denotes smooth ρ (f.slope x) := by
  match f with
  | .sin => exact denotes_cos h
  | .cos => exact denotes_neg (denotes_sin h)
  | .tanh =>
    refine (denotes_sub denotes_one (denotes_pow (denotes_tanh h)
      (.of_den rfl (Or.inl (by norm_num))))).congr ?_
    rw [Fn.slope, show (2 : ℚ) = (2 : ℕ) from rfl, realPower_whole]
  | .exp => exact denotes_exp h
  | .log => exact (denotes_pow h (.neg_one (ne_of_gt hf))).congr (realPower_neg_one x)
  | .abs => exact denotes_sign h hf
  | .sign =>
    exact (denotes_mul (denotes_num 2) (denotes_impulse 0 h hf)).congr (mul_zero _)
  | .impulse k => exact denotes_impulse (k + 1) h hf

/-- A whole exponent that is positive needs no division; every other one does, and then the base
is not zero. -/
theorem denotes_powerDerivative {d : Expr} (ha : a.Denotes smooth ρ x) (hd : d.Denotes smooth ρ y)
    (hq : PowerDefined x q) (hq0 : q ≠ 0) :
    Denotes smooth ρ (if d.isZero then zero
      else if q.den = 1 ∧ 0 < q then d * num q * a.pow (q - 1)
      else power a q * (d * num q * a.pow (-1))) (q * realPower x (q - 1) * y) := by
  split
  · next hz => exact denotes_zero.congr (by rw [hd.eq_zero hz, mul_zero])
  split
  · next hwhole =>
    have hone := one_le_of_den hwhole.1 hwhole.2
    have hdef : PowerDefined x (q - 1) := by
      refine .of_den ?_ (Or.inl (by linarith))
      rw [sub_eq_add_neg]
      exact den_add hwhole.1 rfl
    refine (denotes_mul (denotes_mul hd (denotes_num q)) (denotes_pow ha hdef)).congr ?_
    ring
  · next hwhole =>
    have hne : x ≠ 0 := by
      intro h0
      have hden : q.den = 1 := by_contra fun hd => (hq.pos hd).ne' h0
      exact hq.ne_zero ((not_lt.mp fun hpos => hwhole ⟨hden, hpos⟩).lt_of_ne hq0) h0
    refine (denotes_mul (denotes_power ha hq hq0) (denotes_mul (denotes_mul hd (denotes_num q))
      (denotes_pow ha (.neg_one hne)))).congr ?_
    rw [sub_eq_add_neg, realPower_add hq (.neg_one hne)]
    ring

theorem denotes_raisedDerivative {da db : Expr} {x' y' : ℝ} (ha : a.Denotes smooth ρ x)
    (hb : b.Denotes smooth ρ y) (hda : da.Denotes smooth ρ x') (hdb : db.Denotes smooth ρ y')
    (h : RaiseDefined x y) :
    Denotes smooth ρ (if da.isZero && db.isZero then zero
      else raised a b * (db * log (abs a) + da * b * a.pow (-1)))
      (x ^ y * (y' * Real.log x + x' * y / x)) := by
  have hne := h.ne_zero
  split
  · next hz =>
    obtain ⟨hza, hzb⟩ := (Bool.and_eq_true _ _).mp hz
    exact denotes_zero.congr (by rw [hda.eq_zero hza, hdb.eq_zero hzb]; simp)
  · have hlog := denotes_log (denotes_abs ha fun _ => hne) (abs_pos.mpr hne)
    have hbase := denotes_pow ha (.neg_one hne)
    refine (denotes_mul (denotes_raised ha hb h) (denotes_plus (denotes_mul hdb hlog)
      (denotes_mul (denotes_mul hda hb) hbase))).congr ?_
    rw [Real.log_abs, realPower_neg_one, div_eq_mul_inv]

/-! ### Slopes -/

/-- How fast the value of the expression changes at `ρ` when each symbol changes at the rate
`d`. -/
noncomputable def slope (ρ : Valuation ℝ) (d : Symbol → ℝ) : Expr → ℝ
  | num _ => 0
  | sym s => d s
  | sum a b => a.slope ρ d + b.slope ρ d
  | prod a b => a.slope ρ d * b.eval ρ + a.eval ρ * b.slope ρ d
  | power a q => q * realPower (a.eval ρ) (q - 1) * a.slope ρ d
  | fn f a => f.slope (a.eval ρ) * a.slope ρ d
  | sat a => Scalar.gated (a.eval ρ) (a.slope ρ d)
  | gate a b => Scalar.gated (a.eval ρ) (b.slope ρ d)
  | raised a b => a.eval ρ ^ b.eval ρ *
      (b.slope ρ d * Real.log (a.eval ρ) + a.slope ρ d * b.eval ρ / a.eval ρ)

/-- The factors are regular with the product `x`, and their derivatives make it change at the
rate `y`. -/
inductive RatesDenote (smooth : Prop) (ρ : Valuation ℝ) : List (Expr × Expr) → ℝ → ℝ → Prop
  | nil : RatesDenote smooth ρ [] 1 0
  | cons {e d : Expr} {ps : List (Expr × Expr)} {x y z w : ℝ} : e.Denotes smooth ρ x →
      d.Denotes smooth ρ y → RatesDenote smooth ρ ps z w →
      RatesDenote smooth ρ ((e, d) :: ps) (x * z) (y * z + x * w)

theorem RatesDenote.factors {ps : List (Expr × Expr)} (h : RatesDenote smooth ρ ps x y) :
    ListDenotes smooth ρ (ps.map Prod.fst) x := by
  induction h with
  | nil => exact .nil
  | cons he _ _ ih => exact .cons he ih

theorem RatesDenote.single {d : Expr} (he : e.Denotes smooth ρ x) (hd : d.Denotes smooth ρ y) :
    RatesDenote smooth ρ [(e, d)] x y := by
  have h := RatesDenote.cons he hd .nil
  rwa [mul_one, mul_one, mul_zero, add_zero] at h

theorem denotes_leibnizFrom {ps : List (Expr × Expr)} (h : RatesDenote smooth ρ ps x y)
    {before : List Expr} {z : ℝ} (hb : ListDenotes smooth ρ before z) :
    (leibnizFrom before ps).Denotes smooth ρ (z * y) := by
  induction h generalizing before z with
  | nil => exact denotes_zero.congr (mul_zero z).symm
  | @cons e d ps x y u w he hd hps ih =>
    have hhere : Denotes smooth ρ (if d.isZero then zero
        else (before ++ d :: ps.map Prod.fst).foldl (· * ·) one) (z * (y * u)) := by
      split
      · next hz => exact denotes_zero.congr (by rw [hd.eq_zero hz, zero_mul, mul_zero])
      · exact ((hb.append (.cons hd hps.factors)).foldl_mul denotes_one).congr (one_mul _)
    exact (denotes_plus hhere (ih (hb.append (.single he)))).congr (by ring)

theorem denotes_leibniz {ps : List (Expr × Expr)} (h : RatesDenote smooth ρ ps x y) :
    (leibniz ps).Denotes smooth ρ y := by
  unfold leibniz
  split
  · obtain _ | ⟨-, hd, hnil⟩ := h
    cases hnil
    exact hd.congr (by ring)
  · exact (denotes_leibnizFrom h .nil).congr (one_mul y)

theorem ratesDenote_factorDerivatives {δ : Symbol → Expr} {d : Symbol → ℝ}
    (h : e.Regular smooth ρ) (hδ : ∀ s ∈ e.symbolList, (δ s).Denotes smooth ρ (d s)) :
    RatesDenote smooth ρ (factorDerivatives δ e) (e.eval ρ) (e.slope ρ d) := by
  induction e with
  | num q => exact .single (denotes_num q) denotes_zero
  | sym s => exact .single (denotes_sym s) (hδ s (by simp [symbolList]))
  | sum a b iha ihb =>
    simp only [symbolList, List.mem_append] at hδ
    exact .single h.denotes (denotes_plus (denotes_leibniz (iha h.1 fun s hs => hδ s (Or.inl hs)))
      (denotes_leibniz (ihb h.2 fun s hs => hδ s (Or.inr hs))))
  | prod a b iha ihb =>
    simp only [symbolList, List.mem_append] at hδ
    exact .cons h.1.denotes (denotes_leibniz (iha h.1 fun s hs => hδ s (Or.inl hs)))
      (ihb h.2 fun s hs => hδ s (Or.inr hs))
  | power a q ih =>
    have hd := denotes_leibniz (ih h.1 hδ)
    exact .single h.denotes (denotes_powerDerivative h.1.denotes hd h.2.1 h.2.2)
  | fn f a ih =>
    have hd := denotes_leibniz (ih h.1 hδ)
    refine .single h.denotes ?_
    split
    · next hz => exact denotes_zero.congr (by rw [slope, hd.eq_zero hz, mul_zero])
    · exact denotes_mul (denotes_fnDerivative h.1.denotes h.2) hd
  | sat a ih =>
    exact .single h.denotes (denotes_gated h.1.denotes (denotes_leibniz (ih h.1 hδ)) h.2)
  | gate a b iha ihb =>
    simp only [symbolList, List.mem_append] at hδ
    exact .single h.denotes (denotes_gated h.1.denotes
      (denotes_leibniz (ihb h.2.1 fun s hs => hδ s (Or.inr hs))) h.2.2)
  | raised a b iha ihb =>
    simp only [symbolList, List.mem_append] at hδ
    have hda := denotes_leibniz (iha h.1 fun s hs => hδ s (Or.inl hs))
    have hdb := denotes_leibniz (ihb h.2.1 fun s hs => hδ s (Or.inr hs))
    exact .single h.denotes (denotes_raisedDerivative h.1.denotes h.2.1.denotes hda hdb h.2.2)

/-- A symbolic derivative has the value of the slope. -/
theorem denotes_derive {δ : Symbol → Expr} {d : Symbol → ℝ} (h : e.Regular smooth ρ)
    (hδ : ∀ s ∈ e.symbolList, (δ s).Denotes smooth ρ (d s)) :
    (e.derive δ).Denotes smooth ρ (e.slope ρ d) :=
  denotes_leibniz (ratesDenote_factorDerivatives h hδ)

/-- Along a path the value changes at the rate of the slope. -/
theorem hasDerivAt_eval {γ : ℝ → Valuation ℝ} {d : Symbol → ℝ} {t : ℝ}
    (h : e.Regular True (γ t))
    (hγ : ∀ s ∈ e.symbolList, HasDerivAt (fun u => (γ u).symbol s) (d s) t) :
    HasDerivAt (fun u => e.eval (γ u)) (e.slope (γ t) d) t := by
  induction e with
  | num q => exact hasDerivAt_const t _
  | sym s => exact hγ s (by simp [symbolList])
  | sum a b iha ihb =>
    simp only [symbolList, List.mem_append] at hγ
    exact (iha h.1 fun s hs => hγ s (Or.inl hs)).add (ihb h.2 fun s hs => hγ s (Or.inr hs))
  | prod a b iha ihb =>
    simp only [symbolList, List.mem_append] at hγ
    exact (iha h.1 fun s hs => hγ s (Or.inl hs)).mul (ihb h.2 fun s hs => hγ s (Or.inr hs))
  | power a q ih => exact hasDerivAt_realPower (ih h.1 hγ) h.2.1 h.2.2
  | fn f a ih => exact (Fn.hasDerivAt h.2).comp t (ih h.1 hγ)
  | sat a ih =>
    have hcomp := (hasDerivAt_clamp (h.2 trivial)).comp t (ih h.1 hγ)
    refine hcomp.congr_deriv ?_
    rw [slope, Scalar.gated_real, Scalar.gated_real]
    split <;> simp
  | gate a b iha ihb =>
    simp only [symbolList, List.mem_append] at hγ
    have ha := iha h.1 fun s hs => hγ s (Or.inl hs)
    have hb := ihb h.2.1 fun s hs => hγ s (Or.inr hs)
    have hkink : |a.eval (γ t)| ≠ 1 := h.2.2 trivial
    simp only [eval_gate, slope, Scalar.gated_real]
    have habs := (continuous_abs.continuousAt.comp ha.continuousAt)
    rcases hkink.lt_or_gt with hlt | hgt
    · rw [if_pos hlt.le]
      refine hb.congr_of_eventuallyEq ?_
      filter_upwards [habs.eventually (gt_mem_nhds hlt)] with u hu
      exact if_pos (le_of_lt hu)
    · rw [if_neg hgt.not_ge]
      refine (hasDerivAt_const t (0 : ℝ)).congr_of_eventuallyEq ?_
      filter_upwards [habs.eventually (lt_mem_nhds hgt)] with u hu
      exact if_neg (not_le_of_gt hu)
  | raised a b iha ihb =>
    simp only [symbolList, List.mem_append] at hγ
    exact hasDerivAt_raised (iha h.1 fun s hs => hγ s (Or.inl hs))
      (ihb h.2.1 fun s hs => hγ s (Or.inr hs)) h.2.2

end Expr

end Flange

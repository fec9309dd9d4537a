import Mathlib.Analysis.Analytic.IsolatedZeros
import Mathlib.Analysis.SpecialFunctions.Complex.Analytic
import Mathlib.MeasureTheory.Integral.DivergenceTheorem
import Mathlib.Order.Filter.Cocardinal
import Flange.Proofs.Expr.Straight

/-! # Paths with kinks

Along a straight line of symbols the value of a defined expression is analytic, except at countably
many kinks and jumps. An expression that does not jump is therefore the integral of its slope, and
one with a constant slope changes by that slope.
-/

namespace Flange

open Filter Topology Set

/-! ### Isolated values -/

section Isolated

variable {f g : ℝ → ℝ} {f' g' c t : ℝ}

/-- Where `f` takes the value `c` by itself. -/
def isolated (f : ℝ → ℝ) (c : ℝ) : Set ℝ := {t | f t = c ∧ ∀ᶠ u in 𝓝[≠] t, f u ≠ c}

theorem eventually_not_isolated (f : ℝ → ℝ) (c : ℝ) : ∀ᶠ t in cocountable, t ∉ isolated f c := by
  have hdiscrete : DiscreteTopology (isolated f c) := by
    refine discreteTopology_subtype_iff.mpr fun t ht => ?_
    rw [inf_principal_eq_bot]
    filter_upwards [ht.2] with u hu hmem
    exact hu hmem.1
  have hcountable := countable_coe_iff.mp (countable_of_Lindelof_of_discrete (X := isolated f c))
  refine mem_cocountable.mpr ?_
  change (isolated f c)ᶜᶜ.Countable
  rwa [compl_compl]

/-- An analytic function takes no value by itself where it is constant. -/
theorem ne_or_eventually_eq (hf : AnalyticAt ℝ f t) (ht : t ∉ isolated f c) :
    f t ≠ c ∨ ∀ᶠ u in 𝓝 t, f u = f t := by
  by_cases hc : f t = c
  · refine Or.inr ?_
    rw [hc]
    exact (hf.eventually_eq_or_eventually_ne analyticAt_const).resolve_right fun h => ht ⟨hc, h⟩
  · exact Or.inl hc

/-- Around `t` the function is analytic, and it changes at the rate `f'` there. -/
structure AnalyticRate (f : ℝ → ℝ) (f' t : ℝ) : Prop where
  analyticAt : AnalyticAt ℝ f t
  hasDerivAt : HasDerivAt f f' t

theorem AnalyticRate.congr_rate (h : AnalyticRate f f' t) (heq : f' = g') : AnalyticRate f g' t :=
  heq ▸ h

theorem AnalyticRate.of_eventually_const (h : ∀ᶠ u in 𝓝 t, f u = f t) : AnalyticRate f 0 t where
  analyticAt := analyticAt_const.congr (h.mono fun _ hu => hu.symm)
  hasDerivAt := (hasDerivAt_const t (f t)).congr_of_eventuallyEq h

/-- The outer function need not be analytic where the inner one stays constant. -/
theorem AnalyticRate.comp (hf : AnalyticRate f f' t)
    (hg : AnalyticRate g g' (f t) ∨ ∀ᶠ u in 𝓝 t, f u = f t) :
    AnalyticRate (fun u => g (f u)) (g' * f') t := by
  rcases hg with hg | hconst
  · exact ⟨hg.analyticAt.comp hf.analyticAt, hg.hasDerivAt.comp t hf.hasDerivAt⟩
  · have hrate : f' = 0 := hf.hasDerivAt.unique (of_eventually_const hconst).hasDerivAt
    refine (of_eventually_const ?_).congr_rate (by rw [hrate, mul_zero])
    exact hconst.mono fun u hu => by rw [hu]

end Isolated

/-! ### Operations -/

theorem analyticAt_realPower {x : ℝ} {q : ℚ} (h : PowerDefined x q) :
    AnalyticAt ℝ (fun y => realPower y q) x := by
  by_cases hx : 0 < x
  · have hexp : AnalyticAt ℝ (fun y => Real.exp (Real.log y * q)) x :=
      ((analyticAt_log hx).mul analyticAt_const).rexp'
    refine hexp.congr ?_
    filter_upwards [lt_mem_nhds hx] with y hy
    exact (Real.rpow_def_of_pos hy _).symm
  · have hden : q.den = 1 := by_contra fun hd => hx (h.pos hd)
    simp only [realPower_of_den hden]
    rcases le_or_gt 0 q.num with hnum | hnum
    · exact AnalyticAt.fun_zpow_nonneg analyticAt_id hnum
    · exact AnalyticAt.fun_zpow analyticAt_id (h.ne_zero (Rat.num_neg.mp hnum))

theorem analyticRate_realPower {x : ℝ} {q : ℚ} (h : PowerDefined x q) (hq : q ≠ 0) :
    AnalyticRate (fun y => realPower y q) (q * realPower x (q - 1)) x :=
  ⟨analyticAt_realPower h, by simpa using hasDerivAt_realPower (hasDerivAt_id x) h hq⟩

theorem analyticAt_log_of_ne {x : ℝ} (hx : x ≠ 0) : AnalyticAt ℝ Real.log x := by
  rcases hx.lt_or_gt with hneg | hpos
  · have hlog : AnalyticAt ℝ (fun y => Real.log (-y)) x :=
      (analyticAt_log (neg_pos.mpr hneg)).fun_comp analyticAt_id.neg
    exact hlog.congr (.of_forall Real.log_neg_eq_log)
  · exact analyticAt_log hpos

theorem analyticAt_raised {f g : ℝ → ℝ} {t : ℝ} (hf : AnalyticAt ℝ f t) (hg : AnalyticAt ℝ g t)
    (h : f t ≠ 0) : AnalyticAt ℝ (fun u => f u ^ g u) t := by
  have hexp : AnalyticAt ℝ (fun u => Real.exp (Real.log (f u) * g u)) t :=
    (((analyticAt_log_of_ne h).fun_comp hf).mul hg).rexp'
  rcases h.lt_or_gt with hneg | hpos
  · have hcos : AnalyticAt ℝ (fun u => Real.cos (g u * Real.pi)) t :=
      Real.analyticAt_cos.fun_comp (hg.mul analyticAt_const)
    refine (hexp.mul hcos).congr ?_
    filter_upwards [hf.continuousAt.eventually (gt_mem_nhds hneg)] with u hu
    exact (Real.rpow_def_of_neg hu _).symm
  · refine hexp.congr ?_
    filter_upwards [hf.continuousAt.eventually (lt_mem_nhds hpos)] with u hu
    exact (Real.rpow_def_of_pos hu _).symm

theorem analyticAt_tanh (x : ℝ) : AnalyticAt ℝ Real.tanh x := by
  have hdiv := Real.analyticAt_sinh.div Real.analyticAt_cosh (Real.cosh_pos x).ne'
  exact hdiv.congr (.of_forall fun y => (Real.tanh_eq_sinh_div_cosh y).symm)

theorem analyticAt_of_eventually_const {f : ℝ → ℝ} {x c : ℝ} (h : ∀ᶠ y in 𝓝 x, f y = c) :
    AnalyticAt ℝ f x :=
  analyticAt_const.congr (h.mono fun _ hy => hy.symm)

theorem Fn.analyticRate {f : Fn} {x : ℝ} (h : f.Defined True x) :
    AnalyticRate f.real (f.slope x) x where
  hasDerivAt := Fn.hasDerivAt h
  analyticAt :=
    match f with
    | .sin => Real.analyticAt_sin
    | .cos => Real.analyticAt_cos
    | .tanh => analyticAt_tanh x
    | .exp => analyticAt_rexp
    | .log => analyticAt_log h
    | .abs => by
      rcases (h trivial).lt_or_gt with hx | hx
      · refine analyticAt_id.neg.congr ?_
        filter_upwards [gt_mem_nhds hx] with y hy using (abs_of_neg hy).symm
      · refine analyticAt_id.congr ?_
        filter_upwards [lt_mem_nhds hx] with y hy using (abs_of_pos hy).symm
    | .sign => by
      rcases (h trivial).lt_or_gt with hx | hx
      · refine analyticAt_of_eventually_const (c := -1) ?_
        filter_upwards [gt_mem_nhds hx] with y hy using Real.sign_of_neg hy
      · refine analyticAt_of_eventually_const (c := 1) ?_
        filter_upwards [lt_mem_nhds hx] with y hy using Real.sign_of_pos hy
    | .impulse _ => analyticAt_const

theorem analyticRate_gated {x : ℝ} (hx : |x| ≠ 1) :
    AnalyticRate (fun y => Scalar.gated y 1) 0 x := by
  refine .of_eventually_const ?_
  simp only [Scalar.gated_real]
  rcases hx.lt_or_gt with h | h
  · filter_upwards [continuous_abs.continuousAt.eventually (gt_mem_nhds h)] with y hy
    rw [if_pos (le_of_lt hy), if_pos h.le]
  · filter_upwards [continuous_abs.continuousAt.eventually (lt_mem_nhds h)] with y hy
    rw [if_neg (not_le_of_gt hy), if_neg h.not_ge]

theorem analyticRate_clamp {x : ℝ} (hx : |x| ≠ 1) :
    AnalyticRate Scalar.clamp (Scalar.gated x 1) x where
  hasDerivAt := hasDerivAt_clamp hx
  analyticAt := by
    rcases hx.lt_or_gt with h | h
    · refine analyticAt_id.congr ?_
      filter_upwards [continuous_abs.continuousAt.eventually (gt_mem_nhds h)] with y hy
      obtain ⟨hlow, hhigh⟩ := abs_lt.mp hy
      rw [Scalar.clamp_real, if_neg hlow.le.not_gt, if_pos hhigh.le, id]
    · rcases lt_abs.mp h with h | h
      · refine analyticAt_of_eventually_const (c := 1) ?_
        filter_upwards [lt_mem_nhds h] with y hy
        rw [Scalar.clamp_real, if_neg (by linarith), if_neg hy.not_ge]
      · refine analyticAt_of_eventually_const (c := -1) ?_
        filter_upwards [gt_mem_nhds (lt_neg_of_lt_neg h)] with y hy
        rw [Scalar.clamp_real, if_pos hy]

theorem Fn.Defined.of_ne_zero {f : Fn} {x : ℝ} (h : f.Defined False x) (hx : x ≠ 0) :
    f.Defined True x := by
  cases f with
  | abs | sign | impulse => exact fun _ => hx
  | _ => exact h

theorem Scalar.gated_eq_mul (x y : ℝ) : Scalar.gated x y = Scalar.gated x 1 * y := by
  simp only [Scalar.gated_real]
  split <;> simp

namespace Expr

/-! ### Expressions along a path -/

section Path

variable {γ : ℝ → Valuation ℝ} {d : Symbol → ℝ} {t : ℝ} {a b e : Expr} {q : ℚ} {f : Fn}

/-- Along the path the value of `e` is analytic around `t` and changes at the rate of the slope. -/
def Follows (e : Expr) (γ : ℝ → Valuation ℝ) (d : Symbol → ℝ) (t : ℝ) : Prop :=
  AnalyticRate (fun u => e.eval (γ u)) (e.slope (γ t) d) t

theorem Follows.sum (ha : a.Follows γ d t) (hb : b.Follows γ d t) : (sum a b).Follows γ d t :=
  ⟨ha.analyticAt.add hb.analyticAt, ha.hasDerivAt.add hb.hasDerivAt⟩

theorem Follows.prod (ha : a.Follows γ d t) (hb : b.Follows γ d t) : (prod a b).Follows γ d t :=
  ⟨ha.analyticAt.mul hb.analyticAt, ha.hasDerivAt.mul hb.hasDerivAt⟩

theorem Follows.power (ha : a.Follows γ d t) (h : PowerDefined (a.eval (γ t)) q) (hq : q ≠ 0) :
    (power a q).Follows γ d t :=
  AnalyticRate.comp ha (Or.inl (analyticRate_realPower h hq))

theorem Follows.fn (ha : a.Follows γ d t) (h : f.Defined False (a.eval (γ t)))
    (ht : t ∉ isolated (fun u => a.eval (γ u)) 0) : (fn f a).Follows γ d t := by
  refine AnalyticRate.comp ha ?_
  exact (ne_or_eventually_eq ha.analyticAt ht).imp_left fun hne => f.analyticRate (h.of_ne_zero hne)

theorem Follows.abs_ne_one (ha : a.Follows γ d t) (h1 : t ∉ isolated (fun u => a.eval (γ u)) 1)
    (h2 : t ∉ isolated (fun u => a.eval (γ u)) (-1)) :
    |a.eval (γ t)| ≠ 1 ∨ ∀ᶠ u in 𝓝 t, a.eval (γ u) = a.eval (γ t) := by
  rcases ne_or_eventually_eq ha.analyticAt h1 with hone | hconst
  · rcases ne_or_eventually_eq ha.analyticAt h2 with hneg | hconst
    · refine Or.inl fun habs => ?_
      rcases eq_or_eq_neg_of_abs_eq habs with h | h
      · exact hone h
      · exact hneg h
    · exact Or.inr hconst
  · exact Or.inr hconst

theorem Follows.sat (ha : a.Follows γ d t) (h1 : t ∉ isolated (fun u => a.eval (γ u)) 1)
    (h2 : t ∉ isolated (fun u => a.eval (γ u)) (-1)) : (sat a).Follows γ d t :=
  (AnalyticRate.comp ha ((ha.abs_ne_one h1 h2).imp_left analyticRate_clamp)).congr_rate
    (Scalar.gated_eq_mul _ _).symm

theorem Follows.gate (ha : a.Follows γ d t) (hb : b.Follows γ d t)
    (h1 : t ∉ isolated (fun u => a.eval (γ u)) 1)
    (h2 : t ∉ isolated (fun u => a.eval (γ u)) (-1)) : (gate a b).Follows γ d t := by
  have hgate := AnalyticRate.comp ha ((ha.abs_ne_one h1 h2).imp_left analyticRate_gated)
  have hvalue : (fun u => (Expr.gate a b).eval (γ u)) =
      fun u => Scalar.gated (a.eval (γ u)) 1 * b.eval (γ u) :=
    funext fun u => Scalar.gated_eq_mul _ _
  unfold Follows
  rw [hvalue]
  refine ⟨hgate.analyticAt.mul hb.analyticAt, ?_⟩
  refine (hgate.hasDerivAt.mul hb.hasDerivAt).congr_deriv ?_
  rw [slope, Scalar.gated_eq_mul _ (b.slope _ _)]
  ring

theorem Follows.raised (ha : a.Follows γ d t) (hb : b.Follows γ d t)
    (h : RaiseDefined (a.eval (γ t)) (b.eval (γ t))) : (raised a b).Follows γ d t :=
  ⟨analyticAt_raised ha.analyticAt hb.analyticAt h.ne_zero,
    hasDerivAt_raised ha.hasDerivAt hb.hasDerivAt h⟩

/-- At all but countably many points where it is defined, an expression follows its slope. -/
theorem eventually_follows {S : Set ℝ} (h : ∀ t ∈ S, e.Regular False (γ t))
    (hγ : ∀ s t, AnalyticRate (fun u => (γ u).symbol s) (d s) t) :
    ∀ᶠ t in cocountable, t ∈ S → e.Follows γ d t := by
  induction e with
  | num q => exact .of_forall fun t _ => ⟨analyticAt_const, hasDerivAt_const t _⟩
  | sym s => exact .of_forall fun t _ => hγ s t
  | sum a b iha ihb =>
    filter_upwards [iha fun t ht => (h t ht).1, ihb fun t ht => (h t ht).2] with t ha hb ht
    exact (ha ht).sum (hb ht)
  | prod a b iha ihb =>
    filter_upwards [iha fun t ht => (h t ht).1, ihb fun t ht => (h t ht).2] with t ha hb ht
    exact (ha ht).prod (hb ht)
  | power a q ih =>
    filter_upwards [ih fun t ht => (h t ht).1] with t ha ht
    exact (ha ht).power (h t ht).2.1 (h t ht).2.2
  | fn f a ih =>
    filter_upwards [ih fun t ht => (h t ht).1,
      eventually_not_isolated (fun u => a.eval (γ u)) 0] with t ha h0 ht
    exact (ha ht).fn (h t ht).2 h0
  | sat a ih =>
    filter_upwards [ih fun t ht => (h t ht).1,
      eventually_not_isolated (fun u => a.eval (γ u)) 1,
      eventually_not_isolated (fun u => a.eval (γ u)) (-1)] with t ha h1 h2 ht
    exact (ha ht).sat h1 h2
  | gate a b iha ihb =>
    filter_upwards [iha fun t ht => (h t ht).1, ihb fun t ht => (h t ht).2.1,
      eventually_not_isolated (fun u => a.eval (γ u)) 1,
      eventually_not_isolated (fun u => a.eval (γ u)) (-1)] with t ha hb h1 h2 ht
    exact (ha ht).gate (hb ht) h1 h2
  | raised a b iha ihb =>
    filter_upwards [iha fun t ht => (h t ht).1, ihb fun t ht => (h t ht).2.1] with t ha hb ht
    exact (ha ht).raised (hb ht) (h t ht).2.2

/-- Without jumps, an expression with a constant slope changes by that slope. -/
theorem eval_sub_of_slope {k : ℝ} (h : ∀ t ∈ Icc (0 : ℝ) 1, e.Regular False (γ t))
    (hγ : ∀ s t, AnalyticRate (fun u => (γ u).symbol s) (d s) t)
    (hcont : ContinuousOn (fun u => e.eval (γ u)) (Icc 0 1))
    (hslope : ∀ t ∈ Icc (0 : ℝ) 1, e.slope (γ t) d = k) :
    e.eval (γ 1) - e.eval (γ 0) = k := by
  have hkinks := mem_cocountable.mp (eventually_follows h hγ)
  have hrate : ∀ t ∈ Ioo (0 : ℝ) 1 \ {t | t ∈ Icc (0 : ℝ) 1 → e.Follows γ d t}ᶜ,
      HasDerivAt (fun u => e.eval (γ u)) k t := by
    rintro t ⟨ht, hout⟩
    have htcc := Ioo_subset_Icc_self ht
    exact hslope t htcc ▸ (not_not.mp hout htcc).hasDerivAt
  have hint := MeasureTheory.integral_eq_of_hasDerivAt_off_countable_of_le _ (fun _ => k)
    zero_le_one hkinks hcont hrate intervalIntegrable_const
  rw [← hint, intervalIntegral.integral_const, sub_zero, one_smul]

end Path

end Expr

end Flange

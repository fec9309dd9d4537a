import Flange.Proofs.Expr.Analytic

/-! # Soundness of linear solving

A partial derivative that does not contain the variable makes an expression linear wherever its
value does not break: while the variables go straight to zero it stays defined and does not jump.
Kinks do no harm. Where the value breaks the expression need not be linear, although it passes for
linear: the derivatives of the parts on both sides of a jump are the same.
-/

namespace Flange

open Set

namespace Valuation

variable {ρ : Valuation ℝ} {vs : List Var}

theorem scale_dedup (ρ : Valuation ℝ) (vs : List Var) : ρ.scale vs.dedup = ρ.scale vs := by
  funext a
  simp only [scale, List.mem_dedup]

theorem analyticRate_scale (ρ : Valuation ℝ) (vs : List Var) (s : Symbol) (a : ℝ) :
    AnalyticRate (fun b => (ρ.scale vs b).symbol s) (Expr.toward ρ vs.dedup s) a where
  hasDerivAt := by
    simpa only [scale_dedup] using Expr.hasDerivAt_scale (ρ := ρ) vs.nodup_dedup a s
  analyticAt := by
    by_cases h : s ∈ vs.map Symbol.var
    · obtain ⟨v, hv, rfl⟩ := List.mem_map.mp h
      simp only [scale_of_mem hv]
      exact analyticAt_id.mul analyticAt_const
    · simp only [scale_of_not_mem h]
      exact analyticAt_const

end Valuation

namespace Expr

variable {ρ : Valuation ℝ} {a b e c sol : Expr} {v : Var} {vs : List Var} {es : List Expr}

/-- While the variables go straight to zero `e` stays defined and its value does not jump. -/
structure Unbroken (e : Expr) (vs : List Var) (ρ : Valuation ℝ) : Prop where
  regular : ∀ a ∈ Icc (0 : ℝ) 1, e.Regular False (ρ.scale vs a)
  continuousOn : ContinuousOn (fun a => e.eval (ρ.scale vs a)) (Icc 0 1)

/-- None of the variables occurs where a sign is taken or a gate is opened. -/
def Seamless (vs : List Var) : Expr → Prop
  | num _ | sym _ => True
  | sum a b | prod a b | raised a b => a.Seamless vs ∧ b.Seamless vs
  | power a _ | sat a => a.Seamless vs
  | fn f a => a.Seamless vs ∧ (f = .sign → a.Within (· ∉ vs.map Symbol.var))
  | gate a b => a.Within (· ∉ vs.map Symbol.var) ∧ b.Seamless vs

theorem eval_scale_of_within (h : e.Within (· ∉ vs.map Symbol.var)) (a : ℝ) :
    e.eval (ρ.scale vs a) = e.eval ρ :=
  eval_congr fun s hs => Valuation.scale_of_not_mem (h s hs)

theorem continuousAt_real {f : Fn} {x : ℝ} (h : f.Defined False x) (hf : f ≠ .sign) :
    ContinuousAt f.real x := by
  cases f with
  | sin => exact Real.continuous_sin.continuousAt
  | cos => exact Real.continuous_cos.continuousAt
  | tanh => exact (hasDerivAt_tanh x).continuousAt
  | exp => exact Real.continuous_exp.continuousAt
  | log => exact Real.continuousAt_log (ne_of_gt h)
  | abs => exact continuous_abs.continuousAt
  | sign => exact absurd rfl hf
  | impulse k => exact continuousAt_const

theorem continuous_clamp : Continuous (Scalar.clamp : ℝ → ℝ) := by
  have hclamp : (Scalar.clamp : ℝ → ℝ) = fun x => max (-1) (min 1 x) := by
    funext x
    rw [Scalar.clamp_real]
    grind
  rw [hclamp]
  fun_prop

/-- Without signs and gates that depend on the variables, what stays defined does not jump. -/
theorem Seamless.unbroken (h : e.Seamless vs)
    (hreg : ∀ a ∈ Icc (0 : ℝ) 1, e.Regular False (ρ.scale vs a)) : e.Unbroken vs ρ := by
  refine ⟨hreg, ?_⟩
  induction e with
  | num q => exact continuousOn_const
  | sym s =>
    exact fun a _ => (ρ.analyticRate_scale vs s a).hasDerivAt.continuousAt.continuousWithinAt
  | sum a b iha ihb =>
    exact (iha h.1 fun t ht => (hreg t ht).1).add (ihb h.2 fun t ht => (hreg t ht).2)
  | prod a b iha ihb =>
    exact (iha h.1 fun t ht => (hreg t ht).1).mul (ihb h.2 fun t ht => (hreg t ht).2)
  | power a q ih =>
    intro t ht
    have hpower := (analyticAt_realPower (hreg t ht).2.1).continuousAt
    exact ContinuousAt.comp_continuousWithinAt (f := fun a' => a.eval (ρ.scale vs a')) hpower
      (ih h (fun t ht => (hreg t ht).1) t ht)
  | fn f a ih =>
    intro t ht
    by_cases hf : f = .sign
    · simp only [eval_fn, eval_scale_of_within (h.2 hf)]
      exact continuousWithinAt_const
    · have hfn := continuousAt_real (hreg t ht).2 hf
      exact ContinuousAt.comp_continuousWithinAt (f := fun a' => a.eval (ρ.scale vs a')) hfn
        (ih h.1 (fun t ht => (hreg t ht).1) t ht)
  | sat a ih => exact continuous_clamp.comp_continuousOn (ih h fun t ht => (hreg t ht).1)
  | gate a b iha ihb =>
    simp only [eval_gate, eval_scale_of_within h.1, Scalar.gated_real]
    split
    · exact ihb h.2 fun t ht => (hreg t ht).2.1
    · exact continuousOn_const
  | raised a b iha ihb =>
    intro t ht
    exact (iha h.1 (fun t ht => (hreg t ht).1) t ht).rpow
      (ihb h.2 (fun t ht => (hreg t ht).2.1) t ht) (Or.inl (hreg t ht).2.2.ne_zero)

/-! ### Linear forms -/

/-- An unbroken expression whose partial derivatives are free of the variables has the value of its
linear form. -/
theorem Unbroken.eval_eq (h : e.Unbroken vs ρ)
    (hfree : ∀ v ∈ vs, ∀ w ∈ vs, (e.partialDerivative (.var v)).has (.var w) = false) :
    e.eval ρ = (vs.dedup.map fun v => (e.partialDerivative (.var v)).eval ρ * ρ.var v).sum +
      e.eval (ρ.scale vs 0) := by
  have hslope : ∀ t ∈ Icc (0 : ℝ) 1, e.slope (ρ.scale vs t) (toward ρ vs.dedup) =
      (vs.dedup.map fun v => (e.partialDerivative (.var v)).eval ρ * ρ.var v).sum := by
    intro t ht
    unfold toward
    rw [slope_sum]
    congr 1
    refine List.map_congr_left fun v hv => ?_
    have hv := List.mem_dedup.mp hv
    rw [← (denotes_partialDerivative (h.regular t ht) v).eval, eval_scale (hfree v hv), mul_comm]
  have hsub := eval_sub_of_slope h.regular (ρ.analyticRate_scale vs) h.continuousOn hslope
  have hone : e.eval (ρ.scale vs 1) = e.eval ρ := eval_congr fun s _ => Valuation.scale_one s
  rw [hone] at hsub
  linarith

/-- Without derivatives of the variables the linear form is the one that is solved. -/
theorem Unbroken.linearAt (h : e.Unbroken [v] ρ)
    (hfree : (e.partialDerivative (.var v)).has (.var v) = false)
    (hders : ∀ s ∈ e.symbolList, Mentions (.var v) s → s = .var v) : e.LinearAt False [v] ρ := by
  have hone : e.Regular False ρ := (h.regular 1 ⟨zero_le_one, le_refl 1⟩).transport
    fun s _ => Valuation.scale_one s
  have hrest : (e.substitute (zeros [v])).Denotes False ρ (e.eval (ρ.scale [v] 0)) := by
    refine denotes_substitute (h.regular 0 ⟨le_refl 0, zero_le_one⟩) fun s hs => ?_
    refine replaceSymbol_zeros fun hmentions => ?_
    obtain ⟨w, hw, hm⟩ := hmentions
    obtain rfl := List.mem_singleton.mp hw
    simp [hders s hs hm]
  refine ⟨?_, hrest.regular, ?_⟩
  · intro w hw
    exact (denotes_partialDerivative hone w).regular
  · rw [hrest.eval, h.eval_eq (by simpa using hfree)]
    simp

theorem has_eq_false_iff : e.has (.var v) = false ↔ e.Within fun u => ¬ Mentions (.var v) u := by
  simp only [has, List.any_eq_false, decide_eq_true_eq, Within]

/-- Nothing but the break is in the way: a gate that the variable opens and shuts passes for a
constant, however its value jumps. -/
theorem exists_jump_taken_for_linear : ∃ (e : Expr) (v : Var) (ρ : Valuation ℝ),
    e.linearCoeff? (.var v) = some one ∧ (∀ a, e.Regular False (ρ.scale [v] a)) ∧
      (∀ s ∈ e.symbolList, Mentions (.var v) s → s = .var v) ∧
      e.eval ρ ≠ one.eval ρ * ρ.var v + e.eval (ρ.scale [v] 0) := by
  refine ⟨sum (var ⟨"w", 0⟩) (gate (var ⟨"w", 0⟩) (var ⟨"tau", 0⟩)), ⟨"w", 0⟩,
    { time := 0, par := fun _ => 0, var := fun v => if v = ⟨"w", 0⟩ then 2 else 7 },
    by decide +kernel, ?_, ?_, ?_⟩
  · intro a
    simp [Regular, var]
  · decide
  · simp [Valuation.scale, Scalar.gated_real]

/-- **Linear solving is sound where the expression does not break.** Neither the coefficient nor the
solution contains the variable. An expression that stays defined and does not jump while the
variable goes to zero is the coefficient times the variable and its value at zero; if no derivative
of the variable occurs in it and the coefficient does not vanish, then it is zero exactly when the
variable has the value of the solution. Expressions that are jointly linear are, in the same sense,
affine in all the variables together. -/
theorem linear_of_unbroken (e : Expr) :
    (∀ (v : Var) (c : Expr), e.linearCoeff? (.var v) = some c →
      c.has (.var v) = false ∧ ∃ sol, e.solveLinear? (.var v) = some sol ∧
        sol.has (.var v) = false ∧ ∀ ρ : Valuation ℝ, e.Unbroken [v] ρ →
          c.Regular False ρ ∧ e.eval ρ = c.eval ρ * ρ.var v + e.eval (ρ.scale [v] 0) ∧
          ((∀ s ∈ e.symbolList, Mentions (.var v) s → s = .var v) → c.eval ρ ≠ 0 →
            sol.Regular False ρ ∧ (e.eval ρ = 0 ↔ ρ.var v = sol.eval ρ))) ∧
    ∀ (es : List Expr) (vs : List Var), e ∈ es → jointlyLinear es (vs.map .var) = true →
      (∀ v ∈ vs, ∀ w ∈ vs, (e.partialDerivative (.var v)).has (.var w) = false) ∧
      ∀ ρ : Valuation ℝ, e.Unbroken vs ρ → e.eval ρ =
        (vs.dedup.map fun v => (e.partialDerivative (.var v)).eval ρ * ρ.var v).sum +
          e.eval (ρ.scale vs 0) := by
  constructor
  · intro v c hc
    obtain ⟨rfl, -, hfree⟩ := linearCoeff_eq_some.mp hc
    have hsol : e.solveLinear? (.var v) = some _ := congrArg (Option.map _) hc
    have hout : e.Within fun u => ¬ Mentions (.var v) u ∨ MentionsAny [v] u := by
      intro u _
      by_cases hm : Mentions (.var v) u
      · exact Or.inr ⟨v, List.mem_singleton_self v, hm⟩
      · exact Or.inl hm
    refine ⟨hfree, _, hsol, has_eq_false_iff.mpr (within_solveLinear hsol hout), ?_⟩
    intro ρ hρ
    have hone : e.Regular False ρ := (hρ.regular 1 ⟨zero_le_one, le_refl 1⟩).transport
      fun s _ => Valuation.scale_one s
    refine ⟨(denotes_partialDerivative hone v).regular, ?_, fun hders hne => ?_⟩
    · simpa using hρ.eval_eq (by simpa using hfree)
    · exact solveLinear_iff hsol (hρ.linearAt hfree hders) hne
  · intro es vs he hlin
    have hfree : ∀ v ∈ vs, ∀ w ∈ vs, (e.partialDerivative (.var v)).has (.var w) = false := by
      intro v hv w hw
      simp only [jointlyLinear, List.all_eq_true, Bool.not_eq_true', List.any_eq_false] at hlin
      simpa using hlin e he (.var v) (List.mem_map_of_mem hv) (.var w) (List.mem_map_of_mem hw)
    exact ⟨hfree, fun ρ hρ => hρ.eval_eq hfree⟩

/-- A friction torque at the limit of its saturation. -/
theorem linear_of_unbroken_saturated :
    let e := sum (var ⟨"tau", 0⟩) (prod (num (-1)) (sat (var ⟨"w", 0⟩)))
    let ρ : Valuation ℝ := { time := 0, par := fun _ => 0, var := fun _ => 1 }
    ∃ sol, e.solveLinear? (.var ⟨"tau", 0⟩) = some sol ∧
      (e.eval ρ = 0 ↔ ρ.var ⟨"tau", 0⟩ = sol.eval ρ) := by
  intro e ρ
  have hcoeff : e.linearCoeff? (.var ⟨"tau", 0⟩) = some one := by decide +kernel
  obtain ⟨-, sol, hsol, -, hsound⟩ := (linear_of_unbroken e).1 _ _ hcoeff
  have hseamless : e.Seamless [⟨"tau", 0⟩] := by simp [e, Seamless, var]
  have hunbroken : e.Unbroken [⟨"tau", 0⟩] ρ := hseamless.unbroken fun a _ => by
    simp [e, Regular, var]
  exact ⟨sol, hsol, ((hsound ρ hunbroken).2.2 (by decide) (by simp)).2⟩

end Expr

end Flange

import Flange.Proofs.Expr.Rate

/-! # Bent expressions

An expression that is no straight line in a variable is not taken for a linear one, in whatever
form it comes.
-/

namespace Flange

namespace Expr

variable {ρ : Valuation ℝ} {e e' : Expr} {v : Var}

/-- Over an interval of values of `v` the expression is smooth and no straight line. -/
def Bends (e : Expr) (v : Var) : Prop :=
  ∃ (ρ : Valuation ℝ) (a b : ℝ), (∀ x ∈ Set.Ioo a b, e.Regular True (ρ.shift v x)) ∧
    ∀ m c : ℝ, ∃ x ∈ Set.Ioo a b, e.eval (ρ.shift v x) ≠ m * x + c

/-- With a partial derivative that does not contain the variable the value changes at one rate. -/
theorem eval_shift_sub {a b : ℝ}
    (h : ∀ x ∈ Set.Ioo a b, e.Regular True (ρ.shift v x))
    (hfree : (e.partialDerivative (.var v)).has (.var v) = false) {x y : ℝ} (hx : x ∈ Set.Ioo a b)
    (hy : y ∈ Set.Ioo a b) : e.eval (ρ.shift v x) - e.eval (ρ.shift v y) =
      (e.partialDerivative (.var v)).eval ρ * (x - y) := by
  have hcoeff : ∀ x, (e.partialDerivative (.var v)).eval (ρ.shift v x) =
      (e.partialDerivative (.var v)).eval ρ := by
    intro x
    refine eval_congr fun s hs => Valuation.shift_of_ne ?_
    rintro rfl
    simp only [has, List.any_eq_false, decide_eq_true_eq] at hfree
    exact hfree _ hs (Or.inl rfl)
  generalize (e.partialDerivative (.var v)).eval ρ = m at hcoeff
  have hslope : ∀ x ∈ Set.Ioo a b,
      HasDerivWithinAt (fun x => e.eval (ρ.shift v x) - m * x) 0 (Set.Ioo a b) x := by
    intro x hx
    have hvalue := hasDerivAt_eval (h x hx) fun s _ => Valuation.hasDerivAt_shift x
    rw [← (denotes_partialDerivative (h x hx) v).eval, hcoeff] at hvalue
    have hline := hvalue.sub ((hasDerivAt_id x).const_mul m)
    exact (hline.congr_deriv (by ring)).hasDerivWithinAt
  have hbound := (convex_Ioo a b).norm_image_sub_le_of_norm_hasDerivWithin_le hslope
    (C := 0) (fun _ _ => by simp) hy hx
  have hsame : e.eval (ρ.shift v x) - m * x - (e.eval (ρ.shift v y) - m * y) = 0 :=
    norm_le_zero_iff.mp (by simpa using hbound)
  linarith

/-- With a partial derivative that does not contain the variable the value is a straight line. -/
theorem line_of_partialDerivative {a b : ℝ}
    (h : ∀ x ∈ Set.Ioo a b, e.Regular True (ρ.shift v x))
    (hfree : (e.partialDerivative (.var v)).has (.var v) = false) :
    ∃ m c : ℝ, ∀ x ∈ Set.Ioo a b, e.eval (ρ.shift v x) = m * x + c := by
  rcases (Set.Ioo a b).eq_empty_or_nonempty with hempty | ⟨y, hy⟩
  · exact ⟨0, 0, fun x hx => absurd (hempty ▸ hx) (Set.notMem_empty x)⟩
  refine ⟨(e.partialDerivative (.var v)).eval ρ,
    e.eval (ρ.shift v y) - (e.partialDerivative (.var v)).eval ρ * y, fun x hx => ?_⟩
  have hsub := eval_shift_sub h hfree hx hy
  linarith

/-- What has the values of a bent expression, up to a factor, has a partial derivative that
contains the variable. -/
theorem Bends.has (h : e.Bends v) {k : ℝ} (hk : k ≠ 0)
    (hvalue : ∀ ρ, e.Regular True ρ → e'.Denotes True ρ (k * e.eval ρ)) :
    (e'.partialDerivative (.var v)).has (.var v) = true := by
  obtain ⟨ρ, a, b, hsmooth, hbent⟩ := h
  by_contra hfree
  obtain ⟨m, c, hline⟩ := line_of_partialDerivative
    (fun x hx => (hvalue _ (hsmooth x hx)).regular) (by simpa using hfree)
  obtain ⟨x, hx, hne⟩ := hbent (m / k) (c / k)
  refine hne (mul_left_cancel₀ hk ?_)
  rw [← (hvalue _ (hsmooth x hx)).eval, hline x hx]
  field_simp

theorem mem_functions_of_has (h : (e.partialDerivative (.var v)).has (.var v) = true)
    (ho : v.order = 0) : v ∈ e.functions := by
  obtain ⟨u, hu, hmentions⟩ := List.any_eq_true.mp h
  have hmem : u ∈ e.symbolList :=
    within_partialDerivative (P := (· ∈ e.symbolList)) (by simp) (fun _ hs => hs) u hu
  rcases of_decide_eq_true hmentions with rfl | hmentions
  · exact mem_functions.mpr ⟨v, mem_vars.mpr hmem, Var.base_of_order ho⟩
  · cases u with
    | var w =>
      refine mem_functions.mpr ⟨w, mem_vars.mpr hmem, ?_⟩
      rw [← Var.base_of_order ho, Var.base_eq_iff]
      exact hmentions.2
    | _ => exact absurd hmentions id

end Expr

end Flange

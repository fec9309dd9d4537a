import Mathlib.Analysis.Calculus.MeanValue
import Flange.Proofs.Expr.Linear
import Flange.Proofs.Expr.Substitution

/-! # Linear forms

An expression that a symbolic derivative shows to be linear has the value of its linear form
wherever it stays smooth while the variables go straight to zero.
-/

namespace Flange

theorem Scalar.gated_linear (x a b y z : ℝ) :
    Scalar.gated x (a * y + b * z) = a * Scalar.gated x y + b * Scalar.gated x z := by
  simp only [Scalar.gated_real]
  split <;> simp

namespace Expr

variable {ρ : Valuation ℝ} {e sol : Expr} {v w : Var} {vs : List Var}

/-! ### Directions -/

theorem slope_linear (a b : ℝ) (d d' : Symbol → ℝ) :
    e.slope ρ (fun s => a * d s + b * d' s) = a * e.slope ρ d + b * e.slope ρ d' := by
  induction e with
  | num q => simp [slope]
  | sym s => rfl
  | sum x y ihx ihy | prod x y ihx ihy | raised x y ihx ihy =>
    rw [slope, ihx, ihy, slope, slope]
    ring
  | power x q ih | fn f x ih =>
    rw [slope, ih, slope, slope]
    ring
  | sat x ih => rw [slope, ih, slope, slope, Scalar.gated_linear]
  | gate x y ihx ihy => rw [slope, ihy, slope, slope, Scalar.gated_linear]

theorem slope_zero : e.slope ρ (fun _ => 0) = 0 := by
  simpa using slope_linear (e := e) (ρ := ρ) 0 0 (fun _ => 0) fun _ => 0

/-- Only `s` changes, at the rate 1. -/
def only (s : Symbol) : Symbol → ℝ := fun u => if u = s then 1 else 0

/-- The slope when several symbols change at their own rates. -/
theorem slope_sum (c : Var → ℝ) : ∀ vs : List Var,
    e.slope ρ (fun s => (vs.map fun v => c v * only (.var v) s).sum) =
      (vs.map fun v => c v * e.slope ρ (only (.var v))).sum
  | [] => slope_zero
  | v :: vs => by
    have h := slope_linear (e := e) (ρ := ρ) (c v) 1 (only (.var v))
      fun s => (vs.map fun v => c v * only (.var v) s).sum
    rw [slope_sum c vs] at h
    simpa using h

theorem denotes_partialDerivative {smooth : Prop} (h : e.Regular smooth ρ) (v : Var) :
    (e.partialDerivative (.var v)).Denotes smooth ρ (e.slope ρ (only (.var v))) := by
  refine denotes_derive h fun s _ => ?_
  dsimp only [only]
  split
  · exact denotes_one
  · exact denotes_zero

/-! ### Linear forms -/

def zeros (vs : List Var) : Replacement := (vs.map Symbol.var).map fun s => (s, zero)

/-- The linear form of `e` in the variables, as equations are solved with it, is defined at `ρ` and
has the value of `e`; with `smooth` it meets no kink. -/
structure LinearAt (smooth : Prop) (e : Expr) (vs : List Var) (ρ : Valuation ℝ) : Prop where
  coeff : ∀ v ∈ vs, (e.partialDerivative (.var v)).Regular smooth ρ
  rest : (e.substitute (zeros vs)).Regular smooth ρ
  eval_eq : e.eval ρ = (vs.map fun v => (e.partialDerivative (.var v)).eval ρ * ρ.var v).sum +
    (e.substitute (zeros vs)).eval ρ

/-- The solution of a linear equation is defined, and it is the only one. -/
theorem solveLinear_iff {smooth : Prop} (hs : e.solveLinear? (.var v) = some sol)
    (h : e.LinearAt smooth [v] ρ) (hc : (e.partialDerivative (.var v)).eval ρ ≠ 0) :
    sol.Regular smooth ρ ∧ (e.eval ρ = 0 ↔ ρ.var v = sol.eval ρ) := by
  obtain ⟨c, hcoeff, rfl⟩ := Option.map_eq_some_iff.mp hs
  obtain ⟨rfl, -⟩ := linearCoeff_eq_some.mp hcoeff
  have hsol := denotes_div (denotes_neg h.rest.denotes) (h.coeff v (by simp)).denotes hc
  refine ⟨hsol.regular, ?_⟩
  change _ ↔ _ = (-(e.substitute (zeros [v])) / e.partialDerivative (.var v)).eval ρ
  rw [hsol.eval, h.eval_eq, eq_div_iff hc]
  simp only [List.map_cons, List.map_nil, List.sum_cons, List.sum_nil, add_zero]
  constructor <;> intro h <;> linarith

/-! ### Straight lines -/

end Expr

namespace Valuation

/-- The variables `vs` taken `a` times. -/
noncomputable def scale (ρ : Valuation ℝ) (vs : List Var) (a : ℝ) : Valuation ℝ :=
  { ρ with var := fun v => if v ∈ vs then a * ρ.var v else ρ.var v }

variable {ρ : Valuation ℝ} {vs : List Var} {v : Var} {a : ℝ} {s : Symbol}

theorem scale_of_mem (h : v ∈ vs) : (ρ.scale vs a).symbol (.var v) = a * ρ.var v := if_pos h

theorem scale_of_not_mem (h : s ∉ vs.map Symbol.var) : (ρ.scale vs a).symbol s = ρ.symbol s := by
  cases s with
  | var v => exact if_neg fun hv => h (List.mem_map_of_mem hv)
  | _ => rfl

theorem scale_one (s : Symbol) : (ρ.scale vs 1).symbol s = ρ.symbol s := by
  by_cases h : s ∈ vs.map Symbol.var
  · obtain ⟨v, hv, rfl⟩ := List.mem_map.mp h
    rw [scale_of_mem hv, one_mul]
    rfl
  · exact scale_of_not_mem h

end Valuation

namespace Expr

variable {ρ : Valuation ℝ} {e c : Expr} {v w : Var} {vs : List Var}

/-- `e` stays smooth while the variables go straight to zero. -/
def Straight (e : Expr) (vs : List Var) (ρ : Valuation ℝ) : Prop :=
  ∀ a ∈ Set.Icc (0 : ℝ) 1, e.Regular True (ρ.scale vs a)

/-- The values of the variables as rates. -/
def toward (ρ : Valuation ℝ) (vs : List Var) (s : Symbol) : ℝ :=
  (vs.map fun v => ρ.var v * only (.var v) s).sum

theorem toward_of_not_mem {s : Symbol} : ∀ {vs : List Var}, s ∉ vs.map Symbol.var →
    toward ρ vs s = 0
  | [], _ => rfl
  | v :: vs, h => by
    simp only [List.map_cons, List.mem_cons, not_or] at h
    have ih := toward_of_not_mem h.2
    rw [toward] at ih ⊢
    rw [List.map_cons, List.sum_cons, ih, only, if_neg h.1, mul_zero, zero_add]

theorem toward_of_mem : ∀ {vs : List Var}, vs.Nodup → v ∈ vs →
    toward ρ vs (.var v) = ρ.var v
  | w :: vs, hnodup, h => by
    obtain ⟨hw, hnodup⟩ := List.nodup_cons.mp hnodup
    have hsum : toward ρ (w :: vs) (.var v) =
        ρ.var w * only (.var w) (.var v) + toward ρ vs (.var v) := rfl
    rw [hsum]
    rcases List.mem_cons.mp h with rfl | hv
    · rw [toward_of_not_mem (by simpa using hw), only, if_pos rfl]
      ring
    · have hne : Symbol.var v ≠ .var w := by
        rintro ⟨⟩
        exact hw hv
      rw [toward_of_mem hnodup hv, only, if_neg hne]
      ring

theorem hasDerivAt_scale (hnodup : vs.Nodup) (a : ℝ) (s : Symbol) :
    HasDerivAt (fun b => (ρ.scale vs b).symbol s) (toward ρ vs s) a := by
  by_cases h : s ∈ vs.map Symbol.var
  · obtain ⟨v, hv, rfl⟩ := List.mem_map.mp h
    simp only [Valuation.scale_of_mem hv, toward_of_mem hnodup hv]
    simpa using (hasDerivAt_id a).mul_const (ρ.var v)
  · simp only [Valuation.scale_of_not_mem h, toward_of_not_mem h]
    exact hasDerivAt_const a _

/-- A coefficient without the variables is the same all along the line. -/
theorem eval_scale (h : ∀ v ∈ vs, c.has (.var v) = false) (a : ℝ) :
    c.eval (ρ.scale vs a) = c.eval ρ := by
  refine eval_congr fun s hs => Valuation.scale_of_not_mem fun hmem => ?_
  obtain ⟨v, hv, rfl⟩ := List.mem_map.mp hmem
  have hhas := h v hv
  simp only [has, List.any_eq_false, decide_eq_true_eq] at hhas
  exact hhas _ hs (Or.inl rfl)

theorem replaceSymbol_zeros {smooth : Prop} {s : Symbol} (hs : MentionsAny vs s → s ∈ vs.map Symbol.var) :
    (replaceSymbol (zeros vs) s).Denotes smooth ρ ((ρ.scale vs 0).symbol s) := by
  by_cases hmem : s ∈ vs.map Symbol.var
  · obtain ⟨v, hv, rfl⟩ := List.mem_map.mp hmem
    have hzero : replaceSymbol (zeros vs) (.var v) = zero := by
      unfold replaceSymbol zeros
      rw [lookup_zeros, if_pos hmem]
    rw [hzero, Valuation.scale_of_mem hv, zero_mul]
    exact denotes_zero
  · have hsame : replaceSymbol (zeros vs) s = sym s := by
      unfold replaceSymbol zeros
      rw [lookup_zeros, if_neg hmem]
      cases s with
      | var v =>
        dsimp only
        split
        · rfl
        · next ho =>
          rw [lookup_zeros, if_neg]
          rintro hb
          obtain ⟨w, hw, hwv⟩ := List.mem_map.mp hb
          obtain rfl := Symbol.var.inj hwv
          exact hmem (hs ⟨v.base, hw, Or.inr ⟨rfl, rfl⟩⟩)
      | _ => rfl
    rw [hsame, Valuation.scale_of_not_mem hmem]
    exact denotes_sym s

/-- An expression without derivatives of the variables, whose partial derivatives are free of
them, is its linear form at the end of a straight line. -/
theorem linearAt_of_straight (hnodup : vs.Nodup) (h : e.Straight vs ρ)
    (hfree : ∀ v ∈ vs, ∀ w ∈ vs, (e.partialDerivative (.var v)).has (.var w) = false)
    (hders : ∀ s ∈ e.symbolList, MentionsAny vs s → s ∈ vs.map Symbol.var) :
    e.LinearAt True vs ρ := by
  have hone : e.Regular True ρ :=
    (h 1 ⟨zero_le_one, le_refl 1⟩).transport fun s _ => Valuation.scale_one s
  have hrest : (e.substitute (zeros vs)).Denotes True ρ (e.eval (ρ.scale vs 0)) :=
    denotes_substitute (h 0 ⟨le_refl 0, zero_le_one⟩) fun s hs => replaceSymbol_zeros (hders s hs)
  refine ⟨fun v _ => (denotes_partialDerivative hone v).regular, hrest.regular, ?_⟩
  rw [hrest.eval]
  -- along the line the value changes at a constant rate
  have hslope : ∀ a ∈ Set.Icc (0 : ℝ) 1, HasDerivAt (fun b => e.eval (ρ.scale vs b))
      (vs.map fun v => (e.partialDerivative (.var v)).eval ρ * ρ.var v).sum a := by
    intro a ha
    refine (hasDerivAt_eval (h a ha) fun s _ => hasDerivAt_scale hnodup a s).congr_deriv ?_
    unfold toward
    rw [slope_sum]
    congr 1
    refine List.map_congr_left fun v hv => ?_
    rw [← (denotes_partialDerivative (h a ha) v).eval, eval_scale (hfree v hv), mul_comm]
  generalize (vs.map fun v => (e.partialDerivative (.var v)).eval ρ * ρ.var v).sum = k at hslope
  have hconst : ∀ a ∈ Set.Icc (0 : ℝ) 1,
      HasDerivWithinAt (fun b => e.eval (ρ.scale vs b) - k * b) 0 (Set.Icc 0 1) a := by
    intro a ha
    have := (hslope a ha).sub ((hasDerivAt_id a).const_mul k)
    exact (this.congr_deriv (by ring)).hasDerivWithinAt
  have hbound := (convex_Icc (0 : ℝ) 1).norm_image_sub_le_of_norm_hasDerivWithin_le hconst
    (C := 0) (fun _ _ => by simp) (Set.left_mem_Icc.mpr zero_le_one)
    (Set.right_mem_Icc.mpr zero_le_one)
  have heq : e.eval (ρ.scale vs 1) = e.eval ρ := eval_congr fun s _ => Valuation.scale_one s
  have hzero : ‖e.eval ρ - k * 1 - (e.eval (ρ.scale vs 0) - k * 0)‖ ≤ 0 := by
    simpa [heq] using hbound
  have := norm_le_zero_iff.mp hzero
  linarith

end Expr

end Flange

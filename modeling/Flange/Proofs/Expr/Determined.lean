import Flange.Expr.Constant
import Flange.Proofs.Expr.Bend

/-! # Determined variables

Where an equation is linear in a variable, it determines the variable just when its coefficient does
not vanish.
-/

namespace Flange

namespace Expr

variable {ρ : Valuation ℝ} {e : Expr} {v : Var} {vs : List Var}

/-- `e` is smooth whatever values the variables take. -/
def SmoothIn (e : Expr) (vs : List Var) (ρ : Valuation ℝ) : Prop :=
  ∀ ρ' : Valuation ℝ, (∀ s ∉ vs.map Symbol.var, ρ'.symbol s = ρ.symbol s) → e.Regular True ρ'

namespace SmoothIn

variable (h : e.SmoothIn vs ρ)

include h

theorem straight : e.Straight vs ρ := by
  intro a _
  apply h
  intro s hs
  exact Valuation.scale_of_not_mem hs

theorem shift (hv : v ∈ vs) (x : ℝ) : e.Regular True (ρ.shift v x) := by
  apply h
  intro s hs
  apply Valuation.shift_of_ne
  rintro rfl
  exact hs (List.mem_map_of_mem hv)

/-- The value changes with the variable at the rate of the coefficient. -/
theorem eval_shift (hv : v ∈ vs) (hfree : (e.partialDerivative (.var v)).has (.var v) = false)
    (x : ℝ) : e.eval (ρ.shift v x) = e.eval ρ + (e.partialDerivative (.var v)).eval ρ * x := by
  have hzero : ρ.shift v 0 = ρ := by simp [Valuation.shift]
  have hx : x ∈ Set.Ioo (-(|x| + 1)) (|x| + 1) := by
    constructor
    · linarith [neg_abs_le x]
    · linarith [le_abs_self x]
  have hsub := eval_shift_sub (fun x _ => h.shift hv x) hfree hx (y := 0) (by
    constructor <;> linarith [abs_nonneg x])
  rw [hzero] at hsub
  linarith

theorem existsUnique_iff (hv : v ∈ vs)
    (hfree : (e.partialDerivative (.var v)).has (.var v) = false) :
    (∃! x, e.eval (ρ.shift v x) = 0) ↔ (e.partialDerivative (.var v)).eval ρ ≠ 0 := by
  simp only [h.eval_shift hv hfree]
  generalize (e.partialDerivative (.var v)).eval ρ = c
  constructor
  · rintro ⟨x, hx, honly⟩ rfl
    have hnext : x + 1 = x := honly (x + 1) (by simpa using hx)
    linarith
  · intro hc
    refine ⟨-e.eval ρ / c, ?_, ?_⟩
    · field_simp
      ring
    · intro x hx
      rw [eq_div_iff hc]
      linarith

end SmoothIn

end Expr

/-! ### Constants -/

/-- The parameters have their known values. -/
def Valuation.Knows (ρ : Valuation ℝ) (ks : Constants) : Prop :=
  ∀ n d, ks.lookup n = some d → ρ.par n = (d.toRat : ℝ)

namespace Constants

variable {ks : Constants} {c : Expr} {ρ ρ' : Valuation ℝ}

/-- The parameters at their known values; nothing else is given a value of its own. -/
noncomputable def point (ks : Constants) : Valuation ℝ where
  time := 0
  par n := ((ks.lookup n).map fun d => (d.toRat : ℝ)).getD 0
  var _ := 0

theorem knows_point (ks : Constants) : ks.point.Knows ks := by
  intro n d hn
  simp [point, hn]

/-- An expression of numbers and parameters has its value from what is known. -/
theorem eval_of_determine (hc : ks.determine c = true) (hρ : ρ.Knows ks) (hρ' : ρ'.Knows ks) :
    c.eval ρ = c.eval ρ' := by
  apply Expr.eval_congr
  intro s hs
  have hconst := List.all_eq_true.mp hc s (List.mem_eraseDups.mpr hs)
  cases s with
  | par n =>
    obtain ⟨d, hd⟩ := Option.isSome_iff_exists.mp hconst
    exact (hρ n d hd).trans (hρ' n d hd).symm
  | _ => simp at hconst

end Constants

end Flange

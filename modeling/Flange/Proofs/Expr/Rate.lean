import Flange.Proofs.Expr.Straight

/-! # Time derivatives and the symbols in them

The time derivative of an expression changes with the derivative of a variable at the rate at which
the expression changes with the variable, unless the expression contains that derivative itself.
-/

namespace Flange

namespace Valuation

variable {ρ : Valuation ℝ} {v w : Var} {x : ℝ} {s : Symbol}

/-- The rate of a symbol when the derivatives of variables have the values that `ρ` gives them. -/
def rate (ρ : Valuation ℝ) : Symbol → ℝ
  | .time => 1
  | .par _ => 0
  | .var v => ρ.var v.der

/-- The value of `v` is larger by `x`. -/
noncomputable def shift (ρ : Valuation ℝ) (v : Var) (x : ℝ) : Valuation ℝ :=
  { ρ with var := fun w => if w = v then ρ.var w + x else ρ.var w }

theorem shift_of_ne (h : s ≠ .var v) : (ρ.shift v x).symbol s = ρ.symbol s := by
  cases s with
  | var w =>
    refine if_neg ?_
    rintro rfl
    exact h rfl
  | _ => rfl

theorem hasDerivAt_shift (y : ℝ) :
    HasDerivAt (fun x => (ρ.shift v x).symbol s) (Expr.only (.var v) s) y := by
  by_cases hs : s = .var v
  · subst hs
    have hvalue : (fun x => (ρ.shift v x).symbol (.var v)) = fun x => ρ.var v + x :=
      funext fun x => if_pos rfl
    rw [hvalue, Expr.only, if_pos rfl]
    exact (hasDerivAt_id y).const_add _
  · simp only [shift_of_ne hs, Expr.only, if_neg hs]
    exact hasDerivAt_const y _

end Valuation

namespace Expr

variable {ρ ρ' : Valuation ℝ} {e : Expr} {v : Var} {s : Symbol} {d : Symbol → ℝ}

theorem denotes_symbolRate (ρ : Valuation ℝ) :
    ∀ s, (symbolRate s).Denotes True ρ (ρ.rate s)
  | .time => denotes_one
  | .par _ => denotes_zero
  | .var _ => denotes_sym _

/-- The time derivative has the value of the slope, whatever values derivatives have. -/
theorem denotes_timeDerivative (h : e.Regular True ρ) :
    e.timeDerivative.Denotes True ρ (e.slope ρ ρ.rate) :=
  denotes_derive h fun s _ => denotes_symbolRate ρ s

theorem Regular.timeDerivatives (h : e.Regular True ρ) : ∀ k, (e.timeDerivatives k).Regular True ρ
  | 0 => h
  | k + 1 => (denotes_timeDerivative (Regular.timeDerivatives h k)).regular

end Expr

end Flange

import Flange.Expr.Substitution
import Flange.Proofs.Expr.Derivative

/-! # Values of substitutions

Substituting expressions that have the values of the symbols they replace keeps the value.
-/

namespace Flange

namespace Expr

variable {smooth : Prop} {ρ ρ' : Valuation ℝ} {e : Expr} {σ : Replacement}

theorem listDenotes_substituteFactors (h : e.Regular smooth ρ')
    (hσ : ∀ s ∈ e.symbolList, (replaceSymbol σ s).Denotes smooth ρ (ρ'.symbol s)) :
    ListDenotes smooth ρ (substituteFactors σ e) (e.eval ρ') := by
  induction e with
  | num q => exact .single (denotes_num q)
  | sym s => exact .single (hσ s (by simp [symbolList]))
  | sum a b iha ihb =>
    simp only [symbolList, List.mem_append] at hσ
    exact .single (denotes_plus (denotes_productOf (iha h.1 fun s hs => hσ s (Or.inl hs)))
      (denotes_productOf (ihb h.2 fun s hs => hσ s (Or.inr hs))))
  | prod a b iha ihb =>
    simp only [symbolList, List.mem_append] at hσ
    exact .cons (denotes_productOf (iha h.1 fun s hs => hσ s (Or.inl hs)))
      (ihb h.2 fun s hs => hσ s (Or.inr hs))
  | power a q ih => exact .single (denotes_pow (denotes_productOf (ih h.1 hσ)) h.2.1)
  | fn f a ih => exact .single (denotes_apply (denotes_productOf (ih h.1 hσ)) h.2)
  | sat a ih => exact .single (denotes_saturate (denotes_productOf (ih h.1 hσ)) h.2)
  | gate a b iha ihb =>
    simp only [symbolList, List.mem_append] at hσ
    exact .single (denotes_gated (denotes_productOf (iha h.1 fun s hs => hσ s (Or.inl hs)))
      (denotes_productOf (ihb h.2.1 fun s hs => hσ s (Or.inr hs))) h.2.2)
  | raised a b iha ihb =>
    simp only [symbolList, List.mem_append] at hσ
    exact .single (denotes_raise (denotes_productOf (iha h.1 fun s hs => hσ s (Or.inl hs)))
      (denotes_productOf (ihb h.2.1 fun s hs => hσ s (Or.inr hs))) h.2.2)

theorem replaceSymbol_nil (s : Symbol) : replaceSymbol [] s = sym s := by
  unfold replaceSymbol
  cases s <;> simp

/-- At `ρ` the result of a substitution has the value that the expression has at `ρ'`, when what
replaces a symbol has at `ρ` the value of the symbol at `ρ'`. -/
theorem denotes_substitute (h : e.Regular smooth ρ')
    (hσ : ∀ s ∈ e.symbolList, (replaceSymbol σ s).Denotes smooth ρ (ρ'.symbol s)) :
    (e.substitute σ).Denotes smooth ρ (e.eval ρ') := by
  unfold substitute
  split
  · next hnil =>
    obtain rfl : σ = [] := List.isEmpty_iff.mp hnil
    have hsame : ∀ s ∈ e.symbolList, ρ'.symbol s = ρ.symbol s := fun s hs => by
      rw [← (hσ s hs).eval, replaceSymbol_nil, eval_sym]
    exact ⟨h.transport hsame, (eval_congr hsame).symm⟩
  · exact denotes_productOf (listDenotes_substituteFactors h hσ)

end Expr

end Flange

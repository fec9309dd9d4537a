import Mathlib.Tactic.NormNum
import Flange.Proofs.Expr.Occurrence

/-! # Variables up to sign

Substituting variables up to sign for each other multiplies the signs.
-/

namespace Flange

namespace Expr

variable {σ : Replacement} {p : Symbol × Expr} {e f : Expr} {u w z : Var} {s s' : Rat}

theorem num_mul_num (p q : Rat) : num p * num q = num (p * q) := by
  change productOf [num p, num q] = _
  by_cases h : p * q = 0
  · simp [productOf, Factors.times, Factors.toExpr, Factors.hasPole, h, zero]
  · simp [productOf, Factors.times, Factors.toExpr, zero, Factors.exponential, h]

theorem num_div_num (p : Rat) {q : Rat} (hq : q ≠ 0) : num p / num q = num (p / q) := by
  have hpow : (num q).pow (-1) = num q⁻¹ := by norm_num [pow, numPower, hq]
  change num p * (num q).pow (-1) = _
  rw [hpow, num_mul_num, div_eq_mul_inv]

theorem one_mul_var (w : Var) : num 1 * var w = var w := by
  change productOf [num 1, sym (.var w)] = _
  simp [productOf, Factors.times, Factors.timesPower, insertPower, Factors.toExpr, zero,
    Factors.exponential, Factors.chain, var]

theorem neg_var (w : Var) : -var w = (num (-1)).prod (var w) := by
  change productOf [num (-1), sym (.var w)] = _
  norm_num [productOf, Factors.times, Factors.timesPower, insertPower, Factors.toExpr, zero,
    Factors.exponential, Factors.chain, var]

theorem neg_neg_var (w : Var) : - -var w = var w := by
  rw [neg_var]
  change productOf [num (-1), (num (-1)).prod (sym (.var w))] = _
  simp [productOf, Factors.times, Factors.timesPower, insertPower, Factors.toExpr, zero,
    Factors.exponential, Factors.chain, var]

theorem substitute_var : (var w).substitute (p :: σ) = replaceSymbol (p :: σ) (.var w) := rfl

theorem substitute_neg_var :
    (-var w).substitute (p :: σ) = -replaceSymbol (p :: σ) (.var w) := by
  rw [neg_var]
  rfl

theorem replaceSymbol_self : replaceSymbol [(.var w, f)] (.var w) = f := by
  simp [replaceSymbol]

theorem replaceSymbol_of_ne (hw : w.order = 0) (h : u ≠ w) :
    replaceSymbol [(.var u, f)] (.var w) = var w := by
  simp [replaceSymbol, List.lookup_cons, hw, beq_false_of_ne, h.symm, var]

/-- The functions of `e` are the same after another one is replaced. -/
theorem Over.substitute_of_not {R : Var → Prop} (h : e.Over R) (hu : u.order = 0) (hR : ¬ R u) :
    (e.substitute [(.var u, f)]).Over R := by
  refine within_substitute fun t ht => ?_
  change (Expr.replaceSymbol [(.var u, f)] t).Within _
  have hR' := h t ht
  rcases replaceSymbol_cases [(.var u, f)] t with
    ⟨g, hg, -⟩ | ⟨v, g, rfl, -, -, hg, -⟩ | ⟨-, -, heq⟩
  · obtain ⟨rfl, -⟩ := Prod.mk.inj (List.mem_singleton.mp (mem_of_lookup hg))
    exact absurd (Var.base_of_order hu ▸ hR' : R u) hR
  · obtain ⟨hv, -⟩ := Prod.mk.inj (List.mem_singleton.mp (mem_of_lookup hg))
    exact absurd (Symbol.var.inj hv ▸ hR' : R u) hR
  · rw [heq]
    exact within_sym.mpr hR'

/-- The only function of `e` is replaced. -/
theorem Over.substitute_self {R : Var → Prop} (h : e.Over fun v => v = u)
    (hf : f.Over R) : (e.substitute [(.var u, f)]).Over R := by
  refine Over.substitute (fun t g hg => ?_) (h.imp fun v hv hnone => ?_)
  · obtain ⟨-, rfl⟩ := Prod.mk.inj (List.mem_singleton.mp (mem_of_lookup hg))
    exact hf
  · subst hv
    simp at hnone

/-- `e` is `w` (with 1) or `-w` (with -1). -/
inductive SignedVar : Rat → Var → Expr → Prop
  | plus (w : Var) : SignedVar 1 w (var w)
  | minus (w : Var) : SignedVar (-1) w (-var w)

namespace SignedVar

theorem neg (h : SignedVar s w e) : SignedVar (-s) w (-e) := by
  cases h with
  | plus => exact .minus w
  | minus => rw [neg_neg, neg_neg_var]; exact .plus w

theorem substitute_self (h : SignedVar s w e) (hf : SignedVar s' z f) :
    SignedVar (s * s') z (e.substitute [(.var w, f)]) := by
  cases h with
  | plus => rwa [substitute_var, replaceSymbol_self, one_mul]
  | minus =>
    rw [substitute_neg_var, replaceSymbol_self, neg_one_mul]
    exact hf.neg

theorem substitute_of_ne (h : SignedVar s w e) (hw : w.order = 0) (hne : u ≠ w) :
    e.substitute [(.var u, f)] = e := by
  cases h with
  | plus => rw [substitute_var, replaceSymbol_of_ne hw hne]
  | minus => rw [substitute_neg_var, replaceSymbol_of_ne hw hne]

theorem symbolList (h : SignedVar s w e) : e.symbolList = [.var w] := by
  cases h with
  | plus => rfl
  | minus => rw [neg_var]; rfl

/-- The quotient of numbers that are equal up to sign. -/
theorem of_quotient {p q : Rat} (hq : q ≠ 0) (h : p = q ∨ p = -q) (w : Var) :
    ∃ s, SignedVar s w (-num p / num q * var w) := by
  have hneg : -num p = num (-1 * p) := num_mul_num (-1) p
  rw [hneg, num_div_num _ hq, neg_one_mul]
  rcases h with rfl | rfl
  · rw [neg_div, div_self hq]
    exact ⟨-1, .minus w⟩
  · rw [neg_neg, div_self hq, one_mul_var]
    exact ⟨1, .plus w⟩

theorem eq (h : SignedVar s w e) (h' : SignedVar s' z e) : s = s' ∧ w = z := by
  have hwz : w = z := by
    have := h.symbolList.symm.trans h'.symbolList
    simpa using this
  subst hwz
  cases h with
  | plus =>
    generalize hf : var w = f at h'
    cases h' with
    | plus => exact ⟨rfl, rfl⟩
    | minus => rw [neg_var] at hf; cases hf
  | minus =>
    generalize hf : -var w = f at h'
    cases h' with
    | plus => rw [neg_var] at hf; cases hf
    | minus => exact ⟨rfl, rfl⟩

end SignedVar

end Expr

end Flange

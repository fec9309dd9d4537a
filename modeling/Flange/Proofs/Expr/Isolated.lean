import Flange.Proofs.Expr.Straight

/-! # Isolated symbols

A symbol that is a term of a sum and occurs in no other term has the coefficient one, and it stays
such a term whatever is put for the other symbols.
-/

namespace Flange

namespace Expr

variable {s : Symbol} {a b e : Expr} {q : Rat} {ts us : List (Rat × Expr)} {σ : Replacement}

/-- `s` does not occur in `e`. -/
def Free (s : Symbol) (e : Expr) : Prop := e.Within (· ≠ s)

/-- `e` is a sum with the term `s`, which does not occur in the other terms. -/
inductive Isolates (s : Symbol) : Expr → Prop
  | self : Isolates s (sym s)
  | left {a b : Expr} : Isolates s a → Free s b → Isolates s (sum a b)
  | right {a b : Expr} : Free s a → Isolates s b → Isolates s (sum a b)

inductive IsolatesIn (s : Symbol) : List (Rat × Expr) → Prop
  | head {ts : List (Rat × Expr)} : (∀ t ∈ ts, Free s t.2) → IsolatesIn s ((1, sym s) :: ts)
  | tail {t : Rat × Expr} {ts : List (Rat × Expr)} : Free s t.2 → IsolatesIn s ts →
      IsolatesIn s (t :: ts)

theorem not_free_sym : ¬ Free s (sym s) := fun h => h s (by simp [symbolList]) rfl

theorem Isolates.mem (h : Isolates s e) : s ∈ e.symbolList := by
  induction h with
  | self => simp [symbolList]
  | left _ _ ih => exact List.mem_append_left _ ih
  | right _ _ ih => exact List.mem_append_right _ ih

/-! ### Sums -/

theorem IsolatesIn.append_free (h : IsolatesIn s ts) (hus : ∀ t ∈ us, Free s t.2) :
    IsolatesIn s (ts ++ us) := by
  induction h with
  | head hts => exact .head (List.forall_mem_append.mpr ⟨hts, hus⟩)
  | tail ht _ ih => exact .tail ht ih

theorem IsolatesIn.free_append (hts : ∀ t ∈ ts, Free s t.2) (h : IsolatesIn s us) :
    IsolatesIn s (ts ++ us) := by
  induction ts with
  | nil => exact h
  | cons t ts ih =>
    obtain ⟨ht, hts⟩ := List.forall_mem_cons.mp hts
    exact .tail ht (ih hts)

theorem Isolates.terms (h : Isolates s e) : IsolatesIn s e.terms := by
  induction h with
  | self => exact .head (by simp)
  | left _ hb ih => exact ih.append_free (within_terms hb)
  | right ha _ ih => exact .free_append (within_terms ha) ih

theorem IsolatesIn.insertTerm (h : IsolatesIn s ts) (he : Free s e) :
    IsolatesIn s (insertTerm q e ts) := by
  induction h with
  | @head ts hts =>
    unfold Expr.insertTerm
    split
    · split
      · exact .head hts
      · exact .tail he (.head hts)
    · next heq => exact absurd (eq_of_cmp heq ▸ he) not_free_sym
    · exact .head (within_insertTerm he hts)
  | @tail t ts ht hrest ih =>
    obtain ⟨r, f⟩ := t
    unfold Expr.insertTerm
    split
    · split
      · exact .tail ht hrest
      · exact .tail he (.tail ht hrest)
    · split
      · exact .tail within_undefined hrest
      · split
        · exact hrest
        · exact .tail ht hrest
    · exact .tail ht ih

theorem isolatesIn_insertTerm (h : ∀ t ∈ ts, Free s t.2) :
    IsolatesIn s (insertTerm 1 (sym s) ts) := by
  induction ts with
  | nil => exact .head (by simp)
  | cons t ts ih =>
    obtain ⟨r, f⟩ := t
    obtain ⟨hf, hts⟩ := List.forall_mem_cons.mp h
    unfold Expr.insertTerm
    split
    · exact .head h
    · next heq => exact absurd (eq_of_cmp heq ▸ hf) not_free_sym
    · exact .tail hf (ih hts)

theorem free_foldr (hts : ∀ t ∈ ts, Free s t.2) (hus : ∀ t ∈ us, Free s t.2) :
    ∀ t ∈ ts.foldr (fun t acc => insertTerm t.1 t.2 acc) us, Free s t.2 := by
  induction ts with
  | nil => exact hus
  | cons t ts ih =>
    obtain ⟨ht, hts⟩ := List.forall_mem_cons.mp hts
    exact within_insertTerm ht (ih hts)

theorem IsolatesIn.foldr (h : IsolatesIn s ts) (hus : ∀ t ∈ us, Free s t.2) :
    IsolatesIn s (ts.foldr (fun t acc => Expr.insertTerm t.1 t.2 acc) us) := by
  induction h with
  | head hts => exact isolatesIn_insertTerm (free_foldr hts hus)
  | tail ht _ ih => exact ih.insertTerm ht

theorem IsolatesIn.free_foldr (hts : ∀ t ∈ ts, Free s t.2) (h : IsolatesIn s us) :
    IsolatesIn s (ts.foldr (fun t acc => Expr.insertTerm t.1 t.2 acc) us) := by
  induction ts with
  | nil => exact h
  | cons t ts ih =>
    obtain ⟨ht, hts⟩ := List.forall_mem_cons.mp hts
    exact (ih hts).insertTerm ht

theorem IsolatesIn.filter (h : IsolatesIn s ts) :
    IsolatesIn s (ts.filter fun t => t.1 != 0) := by
  induction h with
  | head hts =>
    rw [List.filter_cons_of_pos (by simp)]
    exact .head fun t ht => hts t (List.mem_of_mem_filter ht)
  | tail ht _ ih =>
    rw [List.filter_cons]
    split
    · exact .tail ht ih
    · exact ih

theorem IsolatesIn.ofTerms (h : IsolatesIn s ts) : Isolates s (ofTerms ts) := by
  induction h with
  | @head ts hts =>
    cases ts with
    | nil => exact .self
    | cons t ts => exact .left .self (within_ofTerms hts)
  | @tail t ts ht hts ih =>
    cases ts with
    | nil => cases hts
    | cons u ts => exact .right (within_scaled ht) ih

theorem Isolates.add_free (h : Isolates s a) (hb : Free s b) : Isolates s (a + b) := by
  change Isolates s (plus a b)
  unfold plus
  split
  · cases h
  · exact (h.terms.foldr fun t ht => within_terms hb t (List.mem_of_mem_filter ht)).ofTerms

theorem Isolates.free_add (ha : Free s a) (h : Isolates s b) : Isolates s (a + b) := by
  change Isolates s (plus a b)
  unfold plus
  split
  · cases h
  · exact (IsolatesIn.free_foldr (within_terms ha) h.terms.filter).ofTerms

/-! ### Substitution -/

theorem Isolates.productOf_substituteFactors (h : Isolates s e) (hs : replaceSymbol σ s = sym s)
    (hσ : ∀ u ∈ e.symbolList, u ≠ s → Free s (replaceSymbol σ u)) :
    Isolates s (productOf (substituteFactors σ e)) := by
  have hfree : ∀ {f : Expr}, Free s f → f.symbolList ⊆ e.symbolList →
      Free s (productOf (substituteFactors σ f)) := fun hf hsub =>
    within_productOf (within_substituteFactors fun u hu => hσ u (hsub hu) (hf u hu))
  induction h with
  | self =>
    rw [substituteFactors, hs]
    exact .self
  | @left a b _ hb ih =>
    have hleft : a.symbolList ⊆ (sum a b).symbolList := List.subset_append_left _ _
    have iha := ih (fun u hu => hσ u (hleft hu)) fun hf hsub => hfree hf (List.Subset.trans hsub hleft)
    exact iha.add_free (hfree hb (List.subset_append_right _ _))
  | @right a b ha _ ih =>
    have hright : b.symbolList ⊆ (sum a b).symbolList := List.subset_append_right _ _
    have ihb := ih (fun u hu => hσ u (hright hu)) fun hf hsub => hfree hf (List.Subset.trans hsub hright)
    exact .free_add (hfree ha (List.subset_append_left _ _)) ihb

/-- What is put for other symbols leaves the symbol isolated. -/
theorem Isolates.substitute (h : Isolates s e) (hs : replaceSymbol σ s = sym s)
    (hσ : ∀ u ∈ e.symbolList, u ≠ s → Free s (replaceSymbol σ u)) :
    Isolates s (e.substitute σ) := by
  unfold Expr.substitute
  split
  · exact h
  · exact h.productOf_substituteFactors hs hσ

/-! ### Derivatives -/

theorem num_add_num (p q : Rat) : num p + num q = num (p + q) := rfl

theorem zero_add_zero : zero + zero = zero := by rw [zero, num_add_num, add_zero]

theorem leibnizFrom_zero : ∀ {ps : List (Expr × Expr)} {before : List Expr},
    (∀ p ∈ ps, p.2 = zero) → leibnizFrom before ps = zero
  | [], _, _ => rfl
  | (e, d) :: rest, before, h => by
    obtain ⟨rfl, hrest⟩ := List.forall_mem_cons.mp h
    rw [leibnizFrom, leibnizFrom_zero hrest]
    exact zero_add_zero

theorem leibniz_zero {ps : List (Expr × Expr)} (h : ∀ p ∈ ps, p.2 = zero) :
    leibniz ps = zero := by
  unfold leibniz
  split
  · next e d => exact h (e, d) List.mem_cons_self
  · exact leibnizFrom_zero h

/-- When all symbols are constant, so are the factors. -/
theorem factorDerivatives_zero {δ : Symbol → Expr} (h : e.Within fun u => δ u = zero) :
    ∀ p ∈ factorDerivatives δ e, p.2 = zero := by
  induction e with
  | num q => simp [factorDerivatives]
  | sym u => simpa [factorDerivatives] using h
  | sum a b iha ihb =>
    obtain ⟨ha, hb⟩ := within_sum.mp h
    rw [factorDerivatives, leibniz_zero (iha ha), leibniz_zero (ihb hb)]
    exact List.forall_mem_singleton.mpr zero_add_zero
  | prod a b iha ihb =>
    obtain ⟨ha, hb⟩ := within_prod.mp h
    rw [factorDerivatives, leibniz_zero (iha ha)]
    exact List.forall_mem_cons.mpr ⟨rfl, ihb hb⟩
  | power a q ih =>
    rw [factorDerivatives, leibniz_zero (ih (within_power.mp h))]
    exact List.forall_mem_singleton.mpr rfl
  | fn f a ih =>
    rw [factorDerivatives, leibniz_zero (ih (within_fn.mp h))]
    exact List.forall_mem_singleton.mpr rfl
  | sat a ih =>
    rw [factorDerivatives, leibniz_zero (ih (within_sat.mp h))]
    exact List.forall_mem_singleton.mpr rfl
  | gate a b iha ihb =>
    rw [factorDerivatives, leibniz_zero (ihb (within_gate.mp h).2)]
    exact List.forall_mem_singleton.mpr rfl
  | raised a b iha ihb =>
    obtain ⟨ha, hb⟩ := within_raised.mp h
    rw [factorDerivatives, leibniz_zero (iha ha), leibniz_zero (ihb hb)]
    exact List.forall_mem_singleton.mpr rfl

variable {v : Var}

theorem partialDerivative_of_free (h : Free (.var v) e) :
    e.partialDerivative (.var v) = zero :=
  leibniz_zero (factorDerivatives_zero (h.mono fun _ hu => if_neg hu))

/-- An isolated variable has the coefficient one. -/
theorem Isolates.partialDerivative (h : Isolates (.var v) e) :
    e.partialDerivative (.var v) = one := by
  change derive _ e = one
  induction h with
  | self =>
    change (if Symbol.var v = .var v then one else zero) = one
    rw [if_pos rfl]
  | @left a b _ hb ih =>
    change derive _ a + derive _ b = one
    rw [ih, show derive _ b = zero from partialDerivative_of_free hb]
    rw [one, zero, num_add_num, add_zero]
  | @right a b ha _ ih =>
    change derive _ a + derive _ b = one
    rw [ih, show derive _ a = zero from partialDerivative_of_free ha]
    rw [one, zero, num_add_num, zero_add]

/-- An equation can be solved for an isolated variable. -/
theorem Isolates.solveLinear? (h : Isolates (.var v) e) :
    e.solveLinear? (.var v) = some (-(e.substitute [(.var v, zero)]) / one) := by
  have hcoeff : e.linearCoeff? (.var v) = some one := by
    rw [linearCoeff_eq_some, h.partialDerivative]
    exact ⟨rfl, rfl, rfl⟩
  rw [Expr.solveLinear?, hcoeff]
  rfl

/-- The solution for an isolated derivative has the value of what the derivative is set equal to. -/
theorem Isolates.denotes_solution {smooth : Prop} {ρ : Valuation ℝ} {f : Expr} {x : ℝ}
    (hv : v.order ≠ 0) (hfree : Free (.var v) f)
    (hvalue : ∀ ρ x, f.Denotes smooth ρ x → e.Denotes smooth ρ (ρ.var v - x))
    (hf : f.Denotes smooth ρ x) :
    (-(e.substitute [(.var v, zero)]) / one).Denotes smooth ρ x := by
  have hsame : ∀ s ∈ f.symbolList, ρ.symbol s = (ρ.scale [v] 0).symbol s := fun s hs =>
    (Valuation.scale_of_not_mem (by simpa using hfree s hs)).symm
  have hscaled : f.Denotes smooth (ρ.scale [v] 0) x :=
    ⟨hf.regular.transport hsame, (eval_congr hsame).symm.trans hf.eval⟩
  have hzero : (ρ.scale [v] 0).var v = 0 := by
    have h := Valuation.scale_of_mem (ρ := ρ) (a := 0) (List.mem_singleton_self v)
    rwa [zero_mul] at h
  have he := hvalue _ _ hscaled
  have hsub : (e.substitute (zeros [v])).Denotes smooth ρ (e.eval (ρ.scale [v] 0)) := by
    refine denotes_substitute he.regular fun s _ => replaceSymbol_zeros ?_
    rintro ⟨w, hw, hmentions⟩
    obtain rfl := List.mem_singleton.mp hw
    rcases hmentions with rfl | hmentions
    · exact List.mem_singleton_self _
    · cases s with
      | var u => exact absurd hmentions.1 hv
      | _ => exact absurd hmentions id
  refine (denotes_div (denotes_neg hsub) denotes_one one_ne_zero).congr ?_
  rw [he.eval, hzero]
  ring

/-! ### Expressions that a replacement leaves alone -/

/-- No symbol of `e` is replaced. -/
def Untouched (σ : Replacement) (e : Expr) : Prop := e.Within fun u => replaceSymbol σ u = sym u

namespace Untouched

theorem denotes {smooth : Prop} {ρ : Valuation ℝ} {x : ℝ} (h : e.Untouched σ)
    (he : e.Denotes smooth ρ x) : (e.substitute σ).Denotes smooth ρ x :=
  (denotes_substitute he.regular fun u hu => h u hu ▸ denotes_sym u).congr he.eval

theorem within {P : Symbol → Prop} (h : e.Untouched σ) (he : e.Within P) :
    (e.substitute σ).Within P :=
  within_substitute fun u hu => by
    change Expr.Within P (replaceSymbol σ u)
    rw [h u hu]
    exact within_sym.mpr (he u hu)

theorem isolates (h : e.Untouched σ) (he : Isolates s e) : Isolates s (e.substitute σ) :=
  he.substitute (h s he.mem) fun u hu hne => by
    rw [h u hu]
    exact within_sym.mpr hne

end Untouched

end Expr

end Flange

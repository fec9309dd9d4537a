import Flange.Expr.Linear
import Flange.Proofs.Lists

/-! # Zero columns

Elimination leaves a zero column zero, so that no such column is selected.
-/

namespace Flange

namespace Fraction

variable {k i j : Nat} {f g : Fraction} {row pivot : List Fraction} {rows : List (List Fraction)}

theorem poly_mul_nil : ∀ p : Poly, Poly.mul p [] = []
  | [] => rfl
  | _ :: p => by
    rw [Poly.mul, List.foldr_cons, ← Poly.mul, poly_mul_nil p]
    rfl

theorem num_eq_nil (h : f.isZero = true) : f.num = [] := List.isEmpty_iff.mp h

theorem isZero_mul (h : f.isZero = true ∨ g.isZero = true) : (mul k f g).isZero = true := by
  have hnum : Poly.mul f.num g.num = [] := by
    rcases h with hf | hg
    · rw [num_eq_nil hf]
      rfl
    · rw [num_eq_nil hg, poly_mul_nil]
  rw [mul, hnum]
  rfl

theorem isZero_neg (hg : g.isZero = true) : (neg g).isZero = true := by
  rw [neg, num_eq_nil hg]
  rfl

theorem isZero_sub (hf : f.isZero = true) (hg : g.isZero = true) : (sub k f g).isZero = true := by
  rw [sub, add, if_pos hf]
  exact isZero_neg hg

/-- The row has no entry in column `j` other than zero. -/
def ZeroAt (j : Nat) (row : List Fraction) : Prop := ∀ f, row[j]? = some f → f.isZero = true

theorem ZeroAt.normalizeRow (h : ZeroAt j row) : ZeroAt j (normalizeRow k i row) := by
  unfold Fraction.normalizeRow
  cases row[i]? with
  | none => exact h
  | some p =>
    intro f hf
    rw [List.getElem?_map] at hf
    obtain ⟨g, hg, rfl⟩ := Option.map_eq_some_iff.mp hf
    exact isZero_mul (Or.inl (h g hg))

theorem ZeroAt.clearColumn (h : ZeroAt j row) (hp : ZeroAt j pivot) :
    ZeroAt j (clearColumn k i pivot row) := by
  unfold Fraction.clearColumn
  cases row[i]? with
  | none => exact h
  | some q =>
    dsimp only
    split
    · exact h
    · intro f hf
      obtain ⟨a, p, ha, hpj, rfl⟩ := List.getElem?_zipWith_eq_some.mp hf
      exact isZero_sub (h a ha) (isZero_mul (Or.inr (hp p hpj)))

/-- There is no pivot in a zero column. -/
theorem pivotRow?_eq_none (h : ∀ row ∈ rows, ZeroAt j row) : pivotRow? j rows = none := by
  unfold pivotRow?
  dsimp only
  split
  · rfl
  · next c cs hcands =>
    have hc : c ∈ c :: cs := List.mem_cons_self
    rw [← hcands] at hc
    obtain ⟨⟨row, i⟩, hmem, hc⟩ := List.mem_filterMap.mp hc
    have hzero := h row (List.fst_mem_of_mem_zipIdx hmem)
    dsimp only at hc
    split at hc
    · next f hf => simp [hzero f hf] at hc
    · simp at hc

theorem not_mem_pivots : ∀ (js : List Nat) {rows : List (List Fraction)},
    (∀ row ∈ rows, ZeroAt j row) → j ∉ pivots k js rows
  | [], _, _ => List.not_mem_nil
  | i :: js, rows, h => by
    rw [pivots]
    cases hi : pivotRow? i rows with
    | none => exact not_mem_pivots js h
    | some n =>
      dsimp only
      cases hrow : rows[n]? with
      | none => exact not_mem_pivots js h
      | some row =>
        have hpivot := (h row (List.mem_of_getElem? hrow)).normalizeRow (k := k) (i := i)
        have hne : j ≠ i := by
          rintro rfl
          simp [pivotRow?_eq_none h] at hi
        apply List.not_mem_cons_of_ne_of_not_mem hne
        apply not_mem_pivots js
        intro row hrow
        obtain ⟨row, hmem, rfl⟩ := List.mem_map.mp hrow
        exact (h row (List.mem_of_mem_eraseIdx hmem)).clearColumn hpivot

theorem pivots_sublist (k : Nat) : ∀ (js : List Nat) (rows : List (List Fraction)),
    (pivots k js rows).Sublist js
  | [], _ => .slnil
  | j :: js, rows => by
    rw [pivots]
    split
    · exact (pivots_sublist k js _).cons j
    · split
      · exact (pivots_sublist k js _).cons j
      · exact (pivots_sublist k js _).cons_cons j

end Fraction

namespace Expr

/-- A column with a pivot has an entry other than zero. -/
theorem exists_ne_zero_of_mem_pivotColumns {rows : List (List Expr)} {j : Nat}
    (h : j ∈ pivotColumns rows) : ∃ row ∈ rows, ∃ e, row[j]? = some e ∧ e ≠ zero := by
  by_contra hzero
  push Not at hzero
  refine Fraction.not_mem_pivots _ (fun row hrow f hf => ?_) h
  obtain ⟨es, hes, rfl⟩ := List.mem_map.mp hrow
  rw [List.getElem?_map] at hf
  obtain ⟨e, he, rfl⟩ := Option.map_eq_some_iff.mp hf
  rw [hzero es hes e he]
  rfl

end Expr

end Flange

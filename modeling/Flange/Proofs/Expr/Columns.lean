import Mathlib.LinearAlgebra.Matrix.ToLinearEquiv
import Flange.Proofs.Expr.Fraction
import Flange.Proofs.Expr.Pivots

/-! # Dependent columns

A column without a pivot is a linear combination of the columns with pivots before it. In the place
of a pivot column behind it, it makes the chosen columns dependent, over the rational functions and
so wherever the entries are defined.
-/

namespace Flange

namespace Fraction

variable {k w i j l q : Nat} {f : Fraction} {row pivot : List Fraction}
  {rows : List (List Fraction)} {x : ℕ → Formal}

/-! ### Rows of rational functions -/

/-- The entry of a row in column `l`, which is zero beyond the end of the row. -/
noncomputable def entry (row : List Fraction) (l : Nat) : Formal := ((row[l]?).map formal).getD 0

/-- A row of `w` proper fractions. -/
structure ProperRow (k w : Nat) (row : List Fraction) : Prop where
  length : row.length = w
  proper : ∀ f ∈ row, f.Proper k

theorem entry_of_getElem? (h : row[l]? = some f) : entry row l = formal f := by rw [entry, h]; rfl

theorem entry_of_none (h : row[l]? = none) : entry row l = 0 := by rw [entry, h]; rfl

theorem ProperRow.entry_eq_zero (h : ProperRow k w row) (hzero : ZeroAt l row) :
    entry row l = 0 := by
  cases hl : row[l]? with
  | none => exact entry_of_none hl
  | some f =>
    rw [entry_of_getElem? hl]
    exact (h.proper f (List.mem_of_getElem? hl)).isZero_iff.mp (hzero f hl)

theorem ProperRow.clearColumn (hr : ProperRow k w row) (hp : ProperRow k w pivot) :
    ProperRow k w (clearColumn k j pivot row) := by
  unfold Fraction.clearColumn
  split
  · next f hf =>
    split
    · exact hr
    · refine ⟨by simp [hr.length, hp.length], fun g hg => ?_⟩
      rw [← List.map_uncurry_zip_eq_zipWith] at hg
      obtain ⟨⟨a, p⟩, hmem, rfl⟩ := List.mem_map.mp hg
      obtain ⟨ha, hb⟩ := List.of_mem_zip hmem
      exact ((hr.proper a ha).yields.sub
        ((hr.proper f (List.mem_of_getElem? hf)).yields.mul (hp.proper p hb).yields)).proper
  · exact hr

/-- A multiple of the pivot row is taken from the row. -/
theorem entry_clearColumn (hr : ProperRow k w row) (hp : ProperRow k w pivot) (l : Nat) :
    entry (clearColumn k j pivot row) l = entry row l - entry row j * entry pivot l := by
  unfold clearColumn
  split
  · next f hf =>
    have hfp := hr.proper f (List.mem_of_getElem? hf)
    rw [entry_of_getElem? hf]
    split
    · next hzero => rw [hfp.isZero_iff.mp hzero, zero_mul, sub_zero]
    · by_cases hl : l < w
      · obtain ⟨a, ha⟩ : ∃ a, row[l]? = some a :=
          Option.isSome_iff_exists.mp (by simpa [hr.length] using hl)
        obtain ⟨p, hb⟩ : ∃ p, pivot[l]? = some p :=
          Option.isSome_iff_exists.mp (by simpa [hp.length] using hl)
        have hzip : (List.zipWith (fun a p => sub k a (mul k f p)) row pivot)[l]? =
            some (sub k a (mul k f p)) := by rw [List.getElem?_zipWith, ha, hb]
        rw [entry_of_getElem? hzip, entry_of_getElem? ha, entry_of_getElem? hb]
        exact ((hr.proper a (List.mem_of_getElem? ha)).yields.sub
          (hfp.yields.mul (hp.proper p (List.mem_of_getElem? hb)).yields)).formal_eq
      · have ha : row[l]? = none := List.getElem?_eq_none (by rw [hr.length]; omega)
        have hb : pivot[l]? = none := List.getElem?_eq_none (by rw [hp.length]; omega)
        have hzip : (List.zipWith (fun a p => sub k a (mul k f p)) row pivot)[l]? = none := by
          rw [List.getElem?_zipWith, ha, hb]
        rw [entry_of_none hzip, entry_of_none ha, entry_of_none hb, mul_zero, sub_zero]
  · next hnone => rw [entry_of_none hnone, zero_mul, sub_zero]

section Normalize

variable (hr : ProperRow k w row) (hf : row[j]? = some f) (hne : f.isZero = false)

include hr hf hne

theorem entry_ne_zero : entry row j ≠ 0 := by
  rw [entry_of_getElem? hf, Ne, ← (hr.proper f (List.mem_of_getElem? hf)).isZero_iff, hne]
  exact Bool.false_ne_true

theorem ProperRow.normalizeRow : ProperRow k w (normalizeRow k j row) := by
  have hinv := (hr.proper f (List.mem_of_getElem? hf)).yields.inv
    (entry_of_getElem? hf ▸ entry_ne_zero hr hf hne)
  rw [Fraction.normalizeRow, hf]
  refine ⟨by simp [hr.length], List.forall_mem_map.mpr fun g hg => ?_⟩
  exact ((hr.proper g hg).yields.mul hinv).proper

theorem entry_normalizeRow (l : Nat) :
    entry (normalizeRow k j row) l = entry row l * (entry row j)⁻¹ := by
  have hinv := (hr.proper f (List.mem_of_getElem? hf)).yields.inv
    (entry_of_getElem? hf ▸ entry_ne_zero hr hf hne)
  rw [normalizeRow, hf, entry_of_getElem? hf]
  dsimp only
  cases hl : row[l]? with
  | none => rw [entry_of_none hl, entry_of_none (by simp [hl]), zero_mul]
  | some g =>
    have hentry : (row.map fun g => mul k g (inv k f))[l]? = some (mul k g (inv k f)) := by
      rw [List.getElem?_map, hl]
      rfl
    rw [entry_of_getElem? hl, entry_of_getElem? hentry]
    exact ((hr.proper g (List.mem_of_getElem? hl)).yields.mul hinv).formal_eq

end Normalize

/-! ### Pivots -/

/-- Without a pivot row a column is zero. -/
theorem zeroAt_of_pivotRow? (h : pivotRow? j rows = none) : ∀ row ∈ rows, ZeroAt j row := by
  intro row hrow f hf
  by_contra hne
  unfold pivotRow? at h
  dsimp only at h
  split at h
  · next hcands =>
    obtain ⟨n, hn⟩ := List.mem_iff_getElem?.mp hrow
    rw [List.filterMap_eq_nil_iff] at hcands
    have hmem : (row, n) ∈ rows.zipIdx := List.mem_zipIdx_iff_getElem?.mpr hn
    simpa [hf, hne] using hcands _ hmem
  · simp at h

theorem foldl_choose_mem {α : Type} (r : α → α → Bool) (cs : List α) (c : α) :
    cs.foldl (fun b d => if r d b then d else b) c ∈ c :: cs := by
  induction cs generalizing c with
  | nil => exact List.mem_cons_self
  | cons d cs ih =>
    rw [List.foldl_cons]
    rcases List.mem_cons.mp (ih (if r d c then d else c)) with h | h
    · rw [h]
      split <;> simp
    · exact List.mem_cons_of_mem _ (List.mem_cons_of_mem _ h)

/-- The pivot row has an entry other than zero in its column. -/
theorem exists_of_pivotRow? (h : pivotRow? j rows = some i) :
    ∃ row f, rows[i]? = some row ∧ row[j]? = some f ∧ f.isZero = false := by
  unfold pivotRow? at h
  dsimp only at h
  split at h
  · simp at h
  · next c cs hcands =>
    have hmem := foldl_choose_mem (fun d b : Nat × Nat => decide (d.1 < b.1)) cs c
    simp only [decide_eq_true_eq] at hmem
    rw [← hcands] at hmem
    obtain ⟨⟨row, n⟩, hrow, hc⟩ := List.mem_filterMap.mp hmem
    dsimp only at hc
    split at hc
    · next f hf =>
      split at hc
      · simp at hc
      · next hne =>
        have hi : n = i := (congrArg Prod.snd (Option.some.inj hc)).trans (Option.some.inj h)
        exact ⟨row, f, hi ▸ List.mem_zipIdx_iff_getElem?.mp hrow, hf, by simpa using hne⟩
    · simp at hc

/-! ### Relations between columns -/

/-- The combination of the columns with the coefficients `x`, in one row. -/
noncomputable def combine (w : Nat) (x : ℕ → Formal) (row : List Fraction) : Formal :=
  ∑ l ∈ Finset.range w, entry row l * x l

theorem combine_update (hj : j < w) (c : Formal) (hx : x j = 0) :
    combine w (Function.update x j c) row = combine w x row + entry row j * c := by
  have hterm : ∀ l, entry row l * Function.update x j c l =
      entry row l * x l + if l = j then entry row j * c else 0 := by
    intro l
    by_cases hl : l = j
    · subst hl
      rw [Function.update_self, if_pos rfl, hx, mul_zero, zero_add]
    · rw [Function.update_of_ne hl, if_neg hl, add_zero]
  simp only [combine, hterm, Finset.sum_add_distrib]
  rw [Finset.sum_ite_eq', if_pos (Finset.mem_range.mpr hj)]

theorem combine_clearColumn (hr : ProperRow k w row) (hp : ProperRow k w pivot) :
    combine w x (clearColumn k j pivot row) =
      combine w x row - entry row j * combine w x pivot := by
  simp only [combine, entry_clearColumn hr hp, Finset.mul_sum, ← Finset.sum_sub_distrib]
  exact Finset.sum_congr rfl fun l _ => by ring

theorem combine_normalizeRow (hr : ProperRow k w row) (hf : row[j]? = some f)
    (hne : f.isZero = false) :
    entry row j * combine w x (normalizeRow k j row) = combine w x row := by
  simp only [combine, entry_normalizeRow hr hf hne, Finset.mul_sum]
  have hj := entry_ne_zero hr hf hne
  exact Finset.sum_congr rfl fun l _ => by field_simp

/-- In all rows column `q` is a combination of columns before it, those in `is`. -/
structure Relation (w q : Nat) (is : List Nat) (rows : List (List Fraction)) (x : ℕ → Formal) :
    Prop where
  self : x q = 1
  support : ∀ l, x l ≠ 0 → l = q ∨ l ∈ is ∧ l < q
  zero : ∀ row ∈ rows, combine w x row = 0

theorem relation_of_zeroAt (hrows : ∀ row ∈ rows, ProperRow k w row) (hq : q < w)
    (hzero : ∀ row ∈ rows, ZeroAt q row) (is : List Nat) :
    Relation w q is rows (Function.update (fun _ => 0) q 1) where
  self := Function.update_self ..
  support l hl := by
    by_contra hne
    exact hl (Function.update_of_ne (fun h => hne (Or.inl h)) ..)
  zero row hrow := by
    rw [combine_update hq 1 rfl, (hrows row hrow).entry_eq_zero (hzero row hrow)]
    simp [combine]

/-- With the coefficient of the pivot column that makes it hold in the pivot row, a relation that
holds in the cleared rows holds in all of them. -/
theorem Relation.extend {is : List Nat} (hrows : ∀ row ∈ rows, ProperRow k w row) (hj : j < w)
    (hrow : rows[i]? = some row) (hf : row[j]? = some f) (hne : f.isZero = false) (hxj : x j = 0)
    (hjq : j < q)
    (h : Relation w q is ((rows.eraseIdx i).map (clearColumn k j (normalizeRow k j row))) x) :
    Relation w q (j :: is) rows
      (Function.update x j (-combine w x (normalizeRow k j row))) where
  self := by rw [Function.update_of_ne hjq.ne', h.self]
  support l hl := by
    by_cases hlj : l = j
    · exact Or.inr ⟨hlj ▸ List.mem_cons_self, hlj ▸ hjq⟩
    · rw [Function.update_of_ne hlj] at hl
      rcases h.support l hl with hlq | ⟨hmem, hlq⟩
      · exact Or.inl hlq
      · exact Or.inr ⟨List.mem_cons_of_mem _ hmem, hlq⟩
  zero r hmem := by
    have hr := hrows row (List.mem_of_getElem? hrow)
    rw [combine_update hj _ hxj, mul_neg, ← sub_eq_add_neg]
    obtain ⟨n, hn⟩ := List.mem_iff_getElem?.mp hmem
    by_cases hni : n = i
    · obtain rfl : row = r := Option.some.inj (hrow.symm.trans (hni ▸ hn))
      rw [combine_normalizeRow hr hf hne, sub_self]
    · rw [← combine_clearColumn (hrows r hmem) (hr.normalizeRow hf hne)]
      exact h.zero _ (List.mem_map_of_mem (List.mem_eraseIdx_iff_getElem?.mpr ⟨n, hni, hn⟩))

/-- A column without a pivot depends on the pivot columns before it. -/
theorem exists_relation {js : List Nat} (hrows : ∀ row ∈ rows, ProperRow k w row)
    (hsorted : js.Pairwise (· < ·)) (hlt : ∀ j ∈ js, j < w) (hq : q ∈ js)
    (hnot : q ∉ pivots k js rows) : ∃ x, Relation w q (pivots k js rows) rows x := by
  induction js generalizing rows with
  | nil => exact absurd hq List.not_mem_nil
  | cons j js ih =>
    obtain ⟨hfirst, hsorted⟩ := List.pairwise_cons.mp hsorted
    obtain ⟨hj, hlt⟩ := List.forall_mem_cons.mp hlt
    rw [pivots] at hnot ⊢
    cases hi : pivotRow? j rows with
    | none =>
      simp only [hi] at hnot ⊢
      rcases List.mem_cons.mp hq with rfl | hq
      · exact ⟨_, relation_of_zeroAt hrows hj (zeroAt_of_pivotRow? hi) _⟩
      · exact ih hrows hsorted hlt hq hnot
    | some i =>
      obtain ⟨row, f, hrow, hf, hne⟩ := exists_of_pivotRow? hi
      simp only [hi, hrow] at hnot ⊢
      obtain ⟨hqj, hnot⟩ := not_or.mp (mt List.mem_cons.mpr hnot)
      have hq := (List.mem_cons.mp hq).resolve_left hqj
      have hp := (hrows row (List.mem_of_getElem? hrow)).normalizeRow hf hne
      have hrest : ∀ r ∈ (rows.eraseIdx i).map (clearColumn k j (normalizeRow k j row)),
          ProperRow k w r :=
        List.forall_mem_map.mpr fun r hr => (hrows r (List.mem_of_mem_eraseIdx hr)).clearColumn hp
      obtain ⟨x, hx⟩ := ih hrest hsorted hlt hq hnot
      have hxj : x j = 0 := by
        by_contra hne
        rcases hx.support j hne with rfl | ⟨hmem, -⟩
        · exact hqj rfl
        · exact lt_irrefl j (hfirst j ((pivots_sublist k js _).subset hmem))
      exact ⟨_, hx.extend hrows hj hrow hf hne hxj (hfirst q hq)⟩

/-! ### Singular matrices -/

section Singular

variable {ι : Type} [Fintype ι] [DecidableEq ι]

/-- With the common denominators of its rows a matrix of quotients becomes one without
denominators. -/
theorem map_det_of_quotients {A F : Type} [CommRing A] [Field F] (φ : A →+* F)
    (num den : Matrix ι ι A) (hden : ∀ i j, φ (den i j) ≠ 0) :
    φ (Matrix.of fun i j => num i j * ∏ l ∈ Finset.univ.erase j, den i l).det =
      (∏ i, ∏ l, φ (den i l)) * (Matrix.of fun i j => φ (num i j) / φ (den i j)).det := by
  rw [RingHom.map_det, ← Matrix.det_mul_column]
  congr 1
  ext i j
  have hprod := Finset.mul_prod_erase Finset.univ (fun l => φ (den i l)) (Finset.mem_univ j)
  simp only [RingHom.mapMatrix_apply, Matrix.map_apply, Matrix.of_apply, map_mul, map_prod]
  rw [← hprod]
  field_simp [hden i j]

/-- A matrix that is singular over the rational functions is singular wherever its entries are
defined. -/
theorem det_eq_zero_of_formal {φ : MvPolynomial ℕ ℚ →+* ℝ} {fs : Matrix ι ι Fraction}
    {xs : Matrix ι ι ℝ} (h : ∀ i j, Yields φ k (fs i j) (xs i j))
    (hdet : (Matrix.of fun i j => formal (fs i j)).det = 0) : xs.det = 0 := by
  let num : Matrix ι ι (MvPolynomial ℕ ℚ) := Matrix.of fun i j => (fs i j).num.toMv
  let den : Matrix ι ι (MvPolynomial ℕ ℚ) := Matrix.of fun i j => (fs i j).den.toMv
  have hformal := map_det_of_quotients (algebraMap (MvPolynomial ℕ ℚ) Formal) num den
    fun i j => (h i j).proper.yields.den_ne_zero
  have hreal := map_det_of_quotients φ num den fun i j => (h i j).den_ne_zero
  have hxs : xs = Matrix.of fun i j => φ (num i j) / φ (den i j) := by
    ext i j
    exact (h i j).eq_div
  -- the determinant without denominators vanishes as a polynomial
  have hzero : (Matrix.of fun i j => num i j * ∏ l ∈ Finset.univ.erase j, den i l).det = 0 := by
    apply IsFractionRing.injective (MvPolynomial ℕ ℚ) Formal
    rw [hformal, map_zero]
    exact mul_eq_zero_of_right _ hdet
  rw [hzero, map_zero, ← hxs, zero_eq_mul] at hreal
  refine hreal.resolve_left (Finset.prod_ne_zero_iff.mpr fun i _ => ?_)
  exact Finset.prod_ne_zero_iff.mpr fun j _ => (h i j).den_ne_zero

end Singular

end Fraction

end Flange

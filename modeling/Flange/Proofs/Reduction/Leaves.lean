import Flange.Proofs.Reduction.Dummy
import Flange.Proofs.Reduction.WellPosed

/-! # Leaves and what they are matched to

The equations that have not been differentiated are matched one to one to highest derivatives, and
every variable of an equation that is not known stands in its row.
-/

namespace Flange

namespace Differentiation

variable {d d' s : Differentiation} {N k b i j r c : Nat} {t : Search}

/-! ### What searches keep -/

/-- Neither a search that succeeds nor one that fails breaks the property. -/
structure Kept (s : Differentiation) (N : Nat) (P : Differentiation → Prop) : Prop where
  extend : ∀ {d t i}, P d →
    Extended d.highest (fun j => d.derivedVarOf j = none ∧ j < d.assign.length) i
      ⟨d.assign, [], []⟩ t → P { d with assign := t.assign }
  differentiate : ∀ {d t k c i}, P d → Covered s N k (k + 1) d → k < N → Descends d k c i →
    i < d.exprs.length → d.derivedEqOf i = none →
      Exhausted d.highest (fun j => d.derivedVarOf j = none ∧ j < d.assign.length) i
        ⟨d.assign, [], []⟩ t → P (d.differentiate t)

theorem Kept.matchFrom {P : Differentiation → Prop} (hP : Kept s N P) : ∀ {steps : Nat} {i c : Nat}
    {d d' : Differentiation}, P d → Covered s N k (k + 1) d → k < N → Descends d k c i →
      i < d.exprs.length → d.derivedEqOf i = none → matchFrom steps i d = some d' → P d'
  | 0, _, _, _, _, _, _, _, _, _, _, hm => by simp [Differentiation.matchFrom] at hm
  | steps + 1, i, c, d, d', hd, h, hk, hi, hlt, hleaf, hm => by
    have ho := augment_outcome (h.highest_used) (h.rootFree hk hi)
    rw [Differentiation.matchFrom] at hm
    rcases ha : augment d.highest d.assign i with ⟨_ | _, t⟩ <;> rw [ha] at ho hm
    · obtain ⟨hc, ⟨e, hie, hen, helt, hde⟩, -⟩ := h.differentiate hk hi hlt hleaf ho.1 ho.2
      simp only [hie] at hm
      exact hP.matchFrom (hP.differentiate hd h hk hi hlt hleaf ho.1) hc hk hde helt hen hm
    · obtain rfl := Option.some.inj hm
      exact hP.extend hd ho

theorem Kept.matchAll {P : Differentiation → Prop} (hP : Kept s N P) {steps : Nat} :
    ∀ {m k : Nat} {d d' : Differentiation}, P d → Covered s N k k d → k + m = N →
      matchAll steps (List.range' k m) d = .ok d' → P d'
  | 0, _, _, _, hd, _, _, hm => Except.ok.inj hm ▸ hd
  | m + 1, k, d, d', hd, h, hkm, hm => by
    rw [List.range'_succ, Differentiation.matchAll] at hm
    rcases hf : Differentiation.matchFrom steps k d with _ | e <;> rw [hf] at hm
    · simp at hm
    · have hlt : k < d.exprs.length := by have := h.originals; omega
      have hk := h.fresh k (by omega) (by omega)
      exact hP.matchAll (hP.matchFrom hd h.weaken (by omega) .refl hlt hk hf)
        (matchFrom_covered h.weaken (by omega) .refl hlt hk hf).1 (by omega) hm

/-- What holds of first-order equations before they are differentiated and is kept holds after
it. -/
theorem Kept.of_differentiate {P : Differentiation → Prop} {u : Structure} {es : List Expr}
    {steps : Nat} (hP : Kept (start u es) es.length P) (hu : u.OfFirstOrder)
    (hes : u.perEquation.length = es.length) (hsize : u.size = es.length)
    (hstart : P (start u es)) (hd : u.differentiate es steps = .ok d) : P d := by
  rw [Structure.differentiate, hsize, List.range_eq_range'] at hd
  exact hP.matchAll hstart (hu.covered_start hes) (by omega) hd

/-! ### Matches of leaves -/

/-- Only a highest derivative is matched to an equation that has not been differentiated. -/
def LeavesHighest (d : Differentiation) : Prop :=
  ∀ {j e}, d.assigned j = some e → d.derivedEqOf e = none → d.derivedVarOf j = none

theorem kept_leavesHighest : Kept s N LeavesHighest where
  extend := by
    intro d t i hl x j e hj he
    have hj : t.assigned j = some e := hj
    rcases x.adjacent hj with hold | hnew
    · exact hl hold he
    · exact (mem_highest.mp hnew).2
  differentiate := by
    intro d t k c i hl h hk hd hlt hi x
    have hsing := h.singular hlt hi x (h.rootFree hk hd)
    have y := h.sound.differentiated hsing
    intro j e hj he
    rcases Nat.lt_or_ge j d.vars.length with hjlt | hge
    · rw [y.assigned_old j hjlt] at hj
      by_cases hred : j ∈ t.redVariables
      · -- the equation of a coloured variable is coloured, so it is a leaf no more
        obtain ⟨f, hf, hjf⟩ := x.assigned_of_red hred
        obtain rfl : e = f := Option.some.inj (hj.symm.trans hjf)
        obtain ⟨g, -, hg⟩ := y.derivedEq e hf
        simp [hg] at he
      · rw [y.derivedVar_other j hred]
        apply hl hj
        by_cases hered : e ∈ t.redEquations
        · exact (hsing.eqs e hered).2
        · rw [← y.derivedEq_other e hered, he]
    · exact y.highest_new h.sound hsing hge

theorem leavesHighest_start (s : Structure) (es : List Expr) : (start s es).LeavesHighest := by
  intro j e hj
  simp [Structure.assigned_start] at hj

/-! ### Chains of derivatives -/

theorem var_eq {v : Var} (hj : d.vars[j]? = some v) : d.var j = v := by
  rw [var, List.getD_eq_getElem?_getD, hj, Option.getD_some]

theorem var_der (h : d.Sound) (hj : d.derivedVarOf j = some k) : d.var k = (d.var j).der := by
  obtain ⟨v, hv, hk⟩ := h.derivedVar_iff.mp hj
  rw [var_eq hv, var_eq hk]

theorem Sound.der_mem (h : d.Sound) {v : Var} {m : Nat} : ∀ {n : Nat}, m ≤ n → v.der n ∈ d.vars →
    v.der m ∈ d.vars
  | 0, hm, hv => Nat.le_zero.mp hm ▸ hv
  | n + 1, hm, hv => by
    rcases Nat.lt_or_eq_of_le hm with hm | rfl
    · exact h.der_mem (Nat.le_of_lt_succ hm) (h.below (by simpa using hv))
    · exact hv

theorem Sound.not_mem_of_highest (h : d.Sound) (hj : d.derivedVarOf j = none) {v : Var}
    (hv : d.vars[j]? = some v) : v.der ∉ d.vars := by
  intro hmem
  obtain ⟨k, hk⟩ := List.mem_iff_getElem?.mp hmem
  simp [h.derivedVar_iff.mpr ⟨v, hv, hk⟩] at hj

theorem Descends.exists_derivedEq (hd : Descends d r c i) {c' i' : Nat}
    (hd' : Descends d r c' i') (hlt : c < c') : ∃ k, d.derivedEqOf i = some k := by
  induction hd' with
  | refl => exact absurd hlt (Nat.not_lt_zero _)
  | @step c' i' k hd' he ih =>
    rcases Nat.lt_or_eq_of_le (Nat.le_of_lt_succ hlt) with hlt | rfl
    · exact ih hlt
    · obtain rfl := hd.functional hd'
      exact ⟨k, he⟩

theorem Descends.head {p : Nat} (hp : d.derivedEqOf p = some r) (hd : Descends d r c i) :
    Descends d p (c + 1) i := by
  induction hd with
  | refl => exact .step .refl hp
  | step _ he ih => exact .step ih he

theorem Descends.split (hd : Descends d r c i) {c' : Nat} (hle : c' ≤ c) :
    ∃ m, Descends d r c' m ∧ Descends d m (c - c') i := by
  induction hd with
  | refl => exact ⟨r, Nat.le_zero.mp hle ▸ .refl, by simpa using .refl⟩
  | @step c i k hd he ih =>
    rcases Nat.lt_or_eq_of_le hle with hlt | rfl
    · obtain ⟨m, hm, hmi⟩ := ih (Nat.le_of_lt_succ hlt)
      exact ⟨m, hm, Nat.succ_sub (Nat.le_of_lt_succ hlt) ▸ hmi.step he⟩
    · exact ⟨k, hd.step he, by simpa using .refl⟩

/-- There is one leaf below each original equation. -/
theorem Descends.leaf_unique (hd : Descends d r c i) {c' i' : Nat} (hd' : Descends d r c' i')
    (hi : d.derivedEqOf i = none) (hi' : d.derivedEqOf i' = none) : i = i' := by
  rcases Nat.lt_trichotomy c c' with hlt | rfl | hlt
  · simpa [hi] using hd.exists_derivedEq hd' hlt
  · exact hd.functional hd'
  · simpa [hi'] using hd'.exists_derivedEq hd hlt

/-- There is a leaf below each equation. -/
theorem Covered.exists_leaf (h : Covered s N N b d) (hi : i < d.exprs.length) :
    ∃ e ∈ d.leaves, ∃ c, Descends d i c e := by
  obtain ⟨r, hr, c, hd⟩ := h.descends i hi
  obtain ⟨c', e, j, hd', hj, hje⟩ := h.matched r hr
  obtain ⟨hrow, hleaf, -⟩ := h.used hj hje
  have hle : c ≤ c' := by
    by_contra hlt
    obtain ⟨k, hk⟩ := hd'.exists_derivedEq hd (by omega)
    simp [hleaf] at hk
  obtain ⟨m, hm, hme⟩ := hd'.split hle
  obtain rfl := hm.functional hd
  exact ⟨e, mem_leaves.mpr ⟨h.sound.lt_of_mem_row hrow, hleaf⟩, _, hme⟩

/-- There are as many leaves as original equations. -/
theorem Covered.length_leaves (h : Covered s N N b d) : d.leaves.length = N := by
  have hroot : ∀ e ∈ d.leaves, ∃ r < N, ∃ c, Descends d r c e :=
    fun e he => h.descends e (mem_leaves.mp he).1
  choose! root hlt times hdesc using hroot
  have hnodup : (d.leaves.map root).Nodup := nodup_leaves.map_on fun e he f hf heq =>
    (hdesc e he).leaf_unique (heq ▸ hdesc f hf) (mem_leaves.mp he).2 (mem_leaves.mp hf).2
  have hsub : d.leaves.map root ⊆ List.range N := by
    intro r hr
    obtain ⟨e, he, rfl⟩ := List.mem_map.mp hr
    exact List.mem_range.mpr (hlt e he)
  have hle := (hnodup.subperm hsub).length_le
  rw [List.length_map, List.length_range] at hle
  exact Nat.le_antisymm hle h.le_length_leaves

theorem assigned_of_matchedVar? (h : d.matchedVar? i = some j) : d.assigned j = some i := by
  have := List.mem_of_getLast? h
  simp only [List.mem_filter, beq_iff_eq] at this
  exact this.2

/-- Each leaf is matched to a highest derivative in its row. -/
theorem Covered.matchedVar? (h : Covered s N N b d) (hl : d.LeavesHighest) (hi : i ∈ d.leaves) :
    ∃ j ∈ d.row i, d.matchedVar? i = some j ∧ d.derivedVarOf j = none := by
  obtain ⟨hlt, hleaf⟩ := mem_leaves.mp hi
  obtain ⟨r, hr, c, hd⟩ := h.descends i hlt
  obtain ⟨c', e, j, hd', hj, hje⟩ := h.matched r hr
  obtain ⟨hrow, he, -⟩ := h.used hj hje
  obtain rfl := hd.leaf_unique hd' hleaf he
  refine ⟨j, hrow, ?_, hj⟩
  cases hm : d.matchedVar? i with
  | none =>
    rw [Differentiation.matchedVar?, List.getLast?_eq_none_iff, List.filter_eq_nil_iff] at hm
    exact absurd hje (by simpa [assigned] using hm j (List.mem_range.mpr (h.sound.assigned_lt hje)))
  | some l =>
    have hl' := assigned_of_matchedVar? hm
    rw [h.injective (hl hl' hleaf) hj hl' hje]

theorem Covered.highest_of_matched (h : Covered s N N b d) (hl : d.LeavesHighest)
    (hi : i ∈ d.leaves) (hm : d.matchedVar? i = some j) :
    j ∈ d.row i ∧ d.derivedVarOf j = none := by
  obtain ⟨l, hrow, hl, hnone⟩ := h.matchedVar? hl hi
  obtain rfl := Option.some.inj (hl.symm.trans hm)
  exact ⟨hrow, hnone⟩

/-! ### Symbols and rows -/

/-- Every variable in an equation is known or stands in the row of the equation. -/
def RowsComplete (known : List Var) (d : Differentiation) (i : Nat) : Prop :=
  ∀ e, d.exprs[i]? = some e → ∀ v, .var v ∈ e.symbolList →
    v.base ∈ known ∨ ∃ j ∈ d.row i, d.vars[j]? = some v

variable {known : List Var} {es : List Expr}

theorem RowsComplete.derived (h : d.Sound) (hi : d.derivedEqOf i = some j)
    (hrow : d.RowsComplete known i) : d.RowsComplete known j := by
  intro e he v hv
  rw [h.expr_derived hi] at he
  obtain ⟨f, hf, rfl⟩ := Option.map_eq_some_iff.mp he
  have hwithin : f.timeDerivative.Within (Symbol.Only fun v =>
      v.base ∈ known ∨ ∃ l ∈ d.row j, d.vars[l]? = some v) := by
    refine Expr.within_timeDerivative (Expr.within_only.mpr fun v hv => ?_) fun v hv => ?_
    · refine (hrow f hf v (Expr.mem_vars.mp hv)).imp_right ?_
      rintro ⟨l, hl, hvl⟩
      exact ⟨l, (h.mem_row_derived hi).mpr (Or.inl hl), hvl⟩
    · refine (hrow f hf v hv).imp_right ?_
      rintro ⟨l, hl, hvl⟩
      obtain ⟨m, hm⟩ := h.row_derived hi hl
      obtain ⟨w, hw, hwm⟩ := h.derivedVar_iff.mp hm
      obtain rfl := Option.some.inj (hvl.symm.trans hw)
      exact ⟨m, (h.mem_row_derived hi).mpr (Or.inr ⟨l, hl, hm⟩), hwm⟩
  exact hwithin (.var v) hv

theorem Descends.rowsComplete (h : d.Sound) (hd : Descends d r c i)
    (hrow : d.RowsComplete known r) : d.RowsComplete known i := by
  induction hd with
  | refl => exact hrow
  | step _ he ih => exact ih.derived h he

theorem mem_perEquation_iff {e : Expr} (he : es[r]? = some e) (v : Var) :
    v ∈ (Structure.ofExprs known es).perEquation.getD r [] ↔
      v ∈ e.unknownDerivatives known ∨ v ∈ e.unknownFunctions known := by
  rw [List.getD_eq_getElem?_getD, Structure.ofExprs, List.getElem?_map, he]
  simp

theorem row_start_iff (hfirst : FirstOrder known es) {e : Expr} (he : es[r]? = some e) {v : Var} :
    (∃ j ∈ (start (.ofExprs known es) es).row r,
      (start (.ofExprs known es) es).vars[j]? = some v) ↔
        v ∈ e.unknownDerivatives known ∨ v ∈ e.unknownFunctions known := by
  have h := Structure.ofFirstOrder_ofExprs hfirst
  have hall : ∀ {w}, w ∈ (Structure.ofExprs known es).perEquation.getD r [] →
      w ∈ (Structure.ofExprs known es).all := by
    intro w hw
    rcases Nat.lt_or_ge r (Structure.ofExprs known es).perEquation.length with hlt | hge
    · rw [List.getD_eq_getElem _ _ hlt] at hw
      exact h.perEquation (List.getElem_mem hlt) hw
    · rw [List.getD_eq_default _ _ hge] at hw
      exact absurd hw List.not_mem_nil
  rw [← mem_perEquation_iff he, Structure.row_start]
  constructor
  · rintro ⟨j, hj, hv⟩
    obtain ⟨w, hw, rfl⟩ := List.mem_map.mp hj
    exact Option.some.inj ((Structure.getElem?_idxOf (hall hw)).symm.trans hv) ▸ hw
  · exact fun hv => ⟨_, List.mem_map_of_mem hv, Structure.getElem?_idxOf (hall hv)⟩

theorem getElem?_exprs (hi : i < d.exprs.length) : d.exprs[i]? = some (d.exprs.getD i .zero) := by
  rw [List.getElem?_eq_getElem hi, List.getD_eq_getElem _ _ hi]

/-! ### The end of differentiation -/

/-- First-order equations, in which the functions of `known` are given, have been differentiated
until all are matched to highest derivatives. -/
structure Finished (known : List Var) (es : List Expr) (d : Differentiation) : Prop where
  firstOrder : FirstOrder known es
  order_known : ∀ v ∈ known, v.order = 0
  covered : Covered (start (.ofExprs known es) es) es.length es.length es.length d
  leavesHighest : d.LeavesHighest

namespace Finished

variable (h : d.Finished known es)

include h

theorem sound : d.Sound := h.covered.sound

theorem highest_of_matched (hi : i ∈ d.leaves) (hm : d.matchedVar? i = some j) :
    j ∈ d.row i ∧ d.derivedVarOf j = none := h.covered.highest_of_matched h.leavesHighest hi hm

theorem rowsComplete (hi : i < d.exprs.length) : d.RowsComplete known i := by
  obtain ⟨r, hr, c, hd⟩ := h.covered.descends i hi
  refine hd.rowsComplete h.sound fun e he v hv => ?_
  have hget : es[r]? = some es[r] := List.getElem?_eq_getElem hr
  obtain rfl := Option.some.inj ((getElem?_of_extends h.covered.exprs hget).symm.trans he)
  by_cases hk : v.base ∈ known
  · exact Or.inl hk
  · refine Or.inr ?_
    have hvars := Expr.mem_vars.mpr hv
    have hoccurs : v ∈ es[r].unknownDerivatives known ∨ v ∈ es[r].unknownFunctions known := by
      by_cases ho : v.order = 0
      · exact Or.inr (Structure.mem_unknownFunctions.mpr
          ⟨hvars, ho, Var.base_of_order ho ▸ hk⟩)
      · exact Or.inl (Structure.mem_unknownDerivatives.mpr
          ⟨hvars, ho, fun hmem => ho (h.order_known v hmem), hk⟩)
    obtain ⟨j, hj, hvj⟩ := (row_start_iff h.firstOrder hget).mpr hoccurs
    exact ⟨j, h.covered.row r hr ▸ hj, getElem?_of_extends h.covered.vars hvj⟩

/-- A variable of the system that occurs in an equation stands in its row. -/
theorem exists_row_of_symbol (hi : i < d.exprs.length) {v : Var} (hv : v.base ∉ known)
    (hmem : .var v ∈ (d.exprs.getD i .zero).symbolList) : ∃ j ∈ d.row i, d.vars[j]? = some v :=
  (h.rowsComplete hi _ (getElem?_exprs hi) v hmem).resolve_left hv

/-- No variable in a row is known. -/
theorem base_not_mem_known (hj : j ∈ d.row i) {v : Var} (hv : d.vars[j]? = some v) :
    v.base ∉ known := by
  obtain ⟨r, hr, c, hd⟩ := h.covered.descends i (h.sound.lt_of_mem_row hj)
  obtain ⟨l, hl, u, e, -, hu, rfl⟩ := hd.row_down h.sound hj hv
  rw [h.covered.row r hr] at hl
  have hstart := (Structure.ofFirstOrder_ofExprs h.firstOrder).sound_start
    (by simp [Structure.ofExprs] : (Structure.ofExprs known es).perEquation.length = es.length)
  have hlu := List.getElem?_eq_getElem (hstart.row_lt hl)
  obtain hw := Option.some.inj ((getElem?_of_extends h.covered.vars hlu).symm.trans hu)
  rw [Var.base_der]
  rcases (row_start_iff h.firstOrder (List.getElem?_eq_getElem hr)).mp ⟨l, hl, hw ▸ hlu⟩ with
    hu | hu
  · exact (Structure.mem_unknownDerivatives.mp hu).2.2.2
  · obtain ⟨-, ho, hn⟩ := Structure.mem_unknownFunctions.mp hu
    rwa [Var.base_of_order ho]

end Finished

end Differentiation

end Flange

import Mathlib.Data.List.Nodup
import Mathlib.Data.List.Perm.Subperm
import Mathlib.Data.List.GetD
import Flange.Proofs.Symbol
import Flange.Reduction.Differentiation

/-! # Systems under differentiation

What holds of the variables and equations however often they are differentiated: derivatives stand
in the list of variables as they stand in the table, and a differentiated equation has the
variables of the equation with their derivatives.
-/

namespace Flange

namespace Differentiation

/-- The variables of equation `i`. -/
def row (d : Differentiation) (i : Nat) : List Nat := d.adjacent.getD i []

/-- The equation matched to variable `j`. -/
def assigned (d : Differentiation) (j : Nat) : Option Nat := (d.assign[j]?).join

variable {d : Differentiation} {i j k l : Nat}

theorem mem_highest : j ∈ d.highest i ↔ j ∈ d.row i ∧ d.derivedVarOf j = none := by
  simp [highest, row]

@[simp] theorem mem_ascending {is : List Nat} : i ∈ ascending is ↔ i ∈ is := by
  simp [ascending]

theorem ascending_perm (is : List Nat) : (ascending is).Perm is := sortedBy_perm ..

theorem mem_differentiatedRow {row : List Nat} :
    j ∈ d.differentiatedRow row ↔ j ∈ row ∨ ∃ l ∈ row, d.derivedVarOf l = some j := by
  simp [differentiatedRow]

/-- What holds of variables and equations in every state of a differentiation. -/
structure Sound (d : Differentiation) : Prop where
  length_derivedVar : d.derivedVar.length = d.vars.length
  length_assign : d.assign.length = d.vars.length
  length_adjacent : d.adjacent.length = d.exprs.length
  length_derivedEq : d.derivedEq.length = d.exprs.length
  nodup : d.vars.Nodup
  below : ∀ {v : Var}, v.der ∈ d.vars → v ∈ d.vars
  derivedVar_iff : ∀ {j k}, d.derivedVarOf j = some k ↔
    ∃ v : Var, d.vars[j]? = some v ∧ d.vars[k]? = some v.der
  row_lt : ∀ {i j}, j ∈ d.row i → j < d.vars.length
  derivedEq_lt : ∀ {i k}, d.derivedEqOf i = some k → i < k ∧ k < d.exprs.length
  derivedEq_inj : ∀ {i j k}, d.derivedEqOf i = some k → d.derivedEqOf j = some k → i = j
  row_derived : ∀ {i k j}, d.derivedEqOf i = some k → j ∈ d.row i → ∃ l, d.derivedVarOf j = some l
  mem_row_derived : ∀ {i k j}, d.derivedEqOf i = some k →
    (j ∈ d.row k ↔ j ∈ d.row i ∨ ∃ l ∈ d.row i, d.derivedVarOf l = some j)
  expr_derived : ∀ {i k}, d.derivedEqOf i = some k →
    d.exprs[k]? = (d.exprs[i]?).map Expr.timeDerivative

theorem join_getElem?_append_none {α : Type} (xs : List (Option α)) (n : Nat) :
    ((xs ++ [none])[n]?).join = (xs[n]?).join := by
  rw [List.getElem?_append]
  split
  · rfl
  · next h =>
    rw [List.getElem?_eq_none (Nat.le_of_not_lt h)]
    rcases hn : n - xs.length with _ | m <;> simp

theorem Sound.derivedVar_lt (h : d.Sound) (hj : d.derivedVarOf j = some k) :
    j < d.vars.length ∧ k < d.vars.length := by
  obtain ⟨v, hv, hk⟩ := h.derivedVar_iff.mp hj
  exact ⟨lt_of_getElem? hv, lt_of_getElem? hk⟩

theorem Sound.derivedVar_inj (h : d.Sound) (hi : d.derivedVarOf i = some k)
    (hj : d.derivedVarOf j = some k) : i = j := by
  obtain ⟨v, hv, hk⟩ := h.derivedVar_iff.mp hi
  obtain ⟨w, hw, hk'⟩ := h.derivedVar_iff.mp hj
  have hvw : v = w := Var.der_injective (Option.some.inj (hk.symm.trans hk'))
  exact (List.getElem?_inj (lt_of_getElem? hv) h.nodup).mp (hv.trans (hvw ▸ hw.symm))

theorem Sound.lt_of_mem_row (h : d.Sound) (hj : j ∈ d.row i) : i < d.exprs.length := by
  by_contra hn
  rw [row, List.getD_eq_getElem?_getD,
    List.getElem?_eq_none (h.length_adjacent ▸ Nat.le_of_not_lt hn)] at hj
  simp at hj

theorem Sound.assigned_lt (h : d.Sound) (hj : d.assigned j = some i) : j < d.vars.length := by
  by_contra hn
  rw [assigned, List.getElem?_eq_none (h.length_assign ▸ Nat.le_of_not_lt hn)] at hj
  simp at hj

theorem Sound.derivedEq_lt' (h : d.Sound) (hi : d.derivedEqOf i = some k) : i < d.exprs.length :=
  Nat.lt_trans (h.derivedEq_lt hi).1 (h.derivedEq_lt hi).2

theorem mem_range_zip {α : Type} {xs : List α} {p : Nat × α} :
    p ∈ (List.range xs.length).zip xs ↔ xs[p.1]? = some p.2 := by
  rw [List.mem_iff_getElem?]
  simp only [List.getElem?_zip_eq_some]
  constructor
  · rintro ⟨k, hk, hx⟩
    rw [List.getElem?_range (lt_of_getElem? hx)] at hk
    exact Option.some.inj hk ▸ hx
  · exact fun hx => ⟨p.1, List.getElem?_range (lt_of_getElem? hx), hx⟩

/-- The highest derivatives in an equation are what is left of its variables without those that have
a derivative. -/
theorem Sound.highest_eq_withoutDerived (h : d.Sound) (i : Nat) :
    d.highest i = withoutDerived (d.row i) (List.range d.vars.length) d.derivedVar := by
  refine List.filter_congr fun j _ => ?_
  rw [← h.length_derivedVar, Bool.eq_iff_iff, Bool.not_eq_true', ← Bool.not_eq_true]
  simp only [List.any_eq_true, mem_range_zip, Bool.and_eq_true, beq_iff_eq, derivedVarOf]
  constructor
  · rintro hnone ⟨p, hp, rfl, hsome⟩
    have hnone : p.2 = none := by simpa [hp] using hnone
    simp [hnone] at hsome
  · intro hnone
    rcases hj : d.derivedVar[j]? with _ | _ | k
    · rfl
    · rfl
    · exact absurd ⟨(j, some k), hj, rfl, rfl⟩ hnone

/-! ### Differentiating a variable -/

section DifferentiateVar

theorem derivedVarOf_differentiateVar (hl : d.derivedVar.length = d.vars.length)
    (hj : j < d.vars.length) (i : Nat) : (d.differentiateVar j).derivedVarOf i =
      if i = j then some d.vars.length else d.derivedVarOf i := by
  simp only [derivedVarOf, differentiateVar, join_getElem?_append_none, List.getElem?_set]
  by_cases hij : i = j
  · subst hij; simp [hl, hj]
  · simp [hij, Ne.symm hij]

@[simp] theorem derivedEqOf_differentiateVar (i : Nat) :
    (d.differentiateVar j).derivedEqOf i = d.derivedEqOf i := rfl

@[simp] theorem row_differentiateVar (i : Nat) : (d.differentiateVar j).row i = d.row i := rfl

@[simp] theorem assigned_differentiateVar (i : Nat) :
    (d.differentiateVar j).assigned i = d.assigned i := by
  simp only [assigned, differentiateVar, join_getElem?_append_none]

theorem vars_differentiateVar {v : Var} (hv : d.vars[j]? = some v) :
    (d.differentiateVar j).vars = d.vars ++ [v.der] := by
  simp [differentiateVar, hv]

/-- The derivative of a variable without one is new. -/
theorem Sound.der_not_mem (h : d.Sound) (hj : d.derivedVarOf j = none) {v : Var}
    (hv : d.vars[j]? = some v) : v.der ∉ d.vars := by
  intro hm
  obtain ⟨k, hk⟩ := List.mem_iff_getElem?.mp hm
  simp [h.derivedVar_iff.mpr ⟨v, hv, hk⟩] at hj

theorem Sound.derivedVar_iff_differentiateVar (h : d.Sound) (hj : d.derivedVarOf j = none) {v : Var}
    (hv : d.vars[j]? = some v) : (d.differentiateVar j).derivedVarOf i = some k ↔
      ∃ w : Var, (d.vars ++ [v.der])[i]? = some w ∧ (d.vars ++ [v.der])[k]? = some w.der := by
  rw [derivedVarOf_differentiateVar h.length_derivedVar (lt_of_getElem? hv)]
  constructor
  · intro hi
    split at hi
    · next hij =>
      obtain rfl : d.vars.length = k := Option.some.inj hi
      exact ⟨v, getElem?_append_singleton.mpr (Or.inl (hij ▸ hv)),
        getElem?_append_singleton.mpr (Or.inr ⟨rfl, rfl⟩)⟩
    · obtain ⟨w, hw, hk⟩ := h.derivedVar_iff.mp hi
      exact ⟨w, getElem?_append_singleton.mpr (Or.inl hw),
        getElem?_append_singleton.mpr (Or.inl hk)⟩
  · rintro ⟨w, hw, hk⟩
    rcases getElem?_append_singleton.mp hw with hw | ⟨-, rfl⟩ <;>
      rcases getElem?_append_singleton.mp hk with hk | ⟨rfl, hwv⟩
    · have hi := h.derivedVar_iff.mpr ⟨w, hw, hk⟩
      rw [if_neg (fun hij => by simp [hij, hj] at hi), hi]
    · obtain rfl := Var.der_injective hwv
      rw [if_pos ((List.getElem?_inj (lt_of_getElem? hw) h.nodup).mp (hw.trans hv.symm))]
    · exact absurd (h.below (List.mem_of_getElem? hk)) (h.der_not_mem hj hv)
    · exact absurd hwv.symm Var.der_ne_self

theorem Sound.differentiateVar (h : d.Sound) (hj : d.derivedVarOf j = none)
    (hlt : j < d.vars.length) : (d.differentiateVar j).Sound := by
  obtain ⟨v, hv⟩ : ∃ v, d.vars[j]? = some v := ⟨_, List.getElem?_eq_getElem hlt⟩
  have hvars := vars_differentiateVar hv
  have hder := derivedVarOf_differentiateVar h.length_derivedVar hlt
  refine ⟨?_, ?_, h.length_adjacent, h.length_derivedEq, ?_, ?_, ?_, ?_, h.derivedEq_lt,
    h.derivedEq_inj, ?_, ?_, h.expr_derived⟩
  · simp [Differentiation.differentiateVar, h.length_derivedVar]
  · simp [Differentiation.differentiateVar, h.length_assign]
  · rw [hvars]
    exact h.nodup.append (List.nodup_singleton _)
      (List.disjoint_singleton.mpr (h.der_not_mem hj hv))
  · intro w hw
    rw [hvars, List.mem_append, List.mem_singleton] at hw ⊢
    rcases hw with hw | hw
    · exact Or.inl (h.below hw)
    · exact Or.inl (Var.der_injective hw ▸ List.mem_of_getElem? hv)
  · intro i k
    rw [hvars]
    exact h.derivedVar_iff_differentiateVar hj hv
  · intro i k hk
    rw [hvars, List.length_append]
    exact Nat.lt_of_lt_of_le (h.row_lt hk) (Nat.le_add_right _ _)
  · intro i k l hi hl
    obtain ⟨m, hm⟩ := h.row_derived hi hl
    rw [hder]
    split
    · exact ⟨_, rfl⟩
    · exact ⟨m, hm⟩
  · intro i k l hi
    refine (h.mem_row_derived hi).trans (or_congr_right ⟨?_, ?_⟩)
    · rintro ⟨m, hm, hml⟩
      exact ⟨m, hm, by rw [hder, if_neg (fun hmj => by simp [hmj, hj] at hml), hml]⟩
    · rintro ⟨m, hm, hml⟩
      obtain ⟨p, hp⟩ := h.row_derived hi hm
      rw [hder, if_neg (fun hmj => by simp [hmj, hj] at hp)] at hml
      exact ⟨m, hm, hml⟩

end DifferentiateVar

/-! ### Differentiating an equation -/

section DifferentiateEq

theorem derivedEqOf_differentiateEq (hl : d.derivedEq.length = d.exprs.length)
    (he : i < d.exprs.length) (k : Nat) : (d.differentiateEq i).derivedEqOf k =
      if k = i then some d.exprs.length else d.derivedEqOf k := by
  simp only [derivedEqOf, differentiateEq, join_getElem?_append_none, List.getElem?_set]
  by_cases hki : k = i
  · subst hki; simp [hl, he]
  · simp [hki, Ne.symm hki]

@[simp] theorem derivedVarOf_differentiateEq (j : Nat) :
    (d.differentiateEq i).derivedVarOf j = d.derivedVarOf j := rfl

@[simp] theorem assigned_differentiateEq (j : Nat) :
    (d.differentiateEq i).assigned j = d.assigned j := rfl

theorem row_differentiateEq (hl : d.adjacent.length = d.exprs.length) (k : Nat) :
    (d.differentiateEq i).row k =
      if k = d.exprs.length then d.differentiatedRow (d.row i) else d.row k := by
  simp only [row, differentiateEq, List.getD_eq_getElem?_getD, List.getElem?_append]
  by_cases hk : k < d.adjacent.length
  · rw [if_pos hk, if_neg (by omega)]
  · rw [if_neg hk]
    by_cases hkl : k = d.exprs.length
    · simp [hkl, hl]
    · rw [if_neg hkl, List.getElem?_eq_none (by simp; omega), List.getElem?_eq_none (by omega)]

theorem Sound.differentiateEq (h : d.Sound) (hlt : i < d.exprs.length)
    (hrow : ∀ j ∈ d.row i, ∃ l, d.derivedVarOf j = some l) : (d.differentiateEq i).Sound := by
  have hder := derivedEqOf_differentiateEq h.length_derivedEq hlt
  have hrows := row_differentiateEq (i := i) h.length_adjacent
  have hexprs : (d.differentiateEq i).exprs = d.exprs ++ [(d.exprs.getD i .zero).timeDerivative] :=
    rfl
  have hlt' : ∀ {k l}, d.derivedEqOf k = some l → k ≠ d.exprs.length ∧ l ≠ d.exprs.length :=
    fun hk => ⟨Nat.ne_of_lt (h.derivedEq_lt' hk), Nat.ne_of_lt (h.derivedEq_lt hk).2⟩
  refine ⟨h.length_derivedVar, h.length_assign, ?_, ?_, h.nodup, h.below, h.derivedVar_iff, ?_,
    ?_, ?_, ?_, ?_, ?_⟩
  · simp [Differentiation.differentiateEq, h.length_adjacent]
  · simp [Differentiation.differentiateEq, h.length_derivedEq]
  · intro k l hl
    rw [hrows] at hl
    split at hl
    · rcases mem_differentiatedRow.mp hl with hl | ⟨m, -, hm⟩
      · exact h.row_lt hl
      · exact (h.derivedVar_lt hm).2
    · exact h.row_lt hl
  · intro k l hk
    rw [hder] at hk
    rw [hexprs, List.length_append, List.length_singleton]
    split at hk
    · have := Option.some.inj hk
      omega
    · have := h.derivedEq_lt hk
      omega
  · intro k l m hk hl
    rw [hder] at hk hl
    split at hk <;> split at hl
    · omega
    · exact absurd (Option.some.inj hk).symm (hlt' hl).2
    · exact absurd (Option.some.inj hl).symm (hlt' hk).2
    · exact h.derivedEq_inj hk hl
  · intro k l m hk hm
    rw [hder] at hk
    by_cases hki : k = i
    · rw [hrows, if_neg (by omega)] at hm
      exact hrow m (hki ▸ hm)
    · rw [if_neg hki] at hk
      rw [hrows, if_neg (hlt' hk).1] at hm
      exact h.row_derived hk hm
  · intro k l m hk
    rw [hder] at hk
    by_cases hki : k = i
    · rw [if_pos hki] at hk
      rw [← Option.some.inj hk, hrows, if_pos rfl, hrows, if_neg (by omega), hki]
      exact mem_differentiatedRow
    · rw [if_neg hki] at hk
      rw [hrows, if_neg (hlt' hk).2, hrows, if_neg (hlt' hk).1]
      exact h.mem_row_derived hk
  · intro k l hk
    rw [hder] at hk
    rw [hexprs]
    by_cases hki : k = i
    · rw [if_pos hki] at hk
      rw [← Option.some.inj hk, hki, List.getElem?_append_left hlt]
      simp [List.getElem?_eq_getElem hlt]
    · rw [if_neg hki] at hk
      rw [List.getElem?_append_left (h.derivedEq_lt hk).2,
        List.getElem?_append_left (h.derivedEq_lt' hk)]
      exact h.expr_derived hk

end DifferentiateEq

/-! ### Differentiating what a search has coloured -/

/-- The variables `vs` have been differentiated. -/
structure VarsDerived (vs : List Nat) (d d' : Differentiation) : Prop where
  sound : d'.Sound
  exprs : d'.exprs = d.exprs
  row : ∀ i, d'.row i = d.row i
  derivedEqOf : ∀ i, d'.derivedEqOf i = d.derivedEqOf i
  assigned : ∀ j, d'.assigned j = d.assigned j
  vars : d.vars <+: d'.vars
  length : d'.vars.length = d.vars.length + vs.length
  derived : ∀ j ∈ vs, ∃ k, d.vars.length ≤ k ∧ d'.derivedVarOf j = some k
  onto : ∀ k, d.vars.length ≤ k → k < d'.vars.length → ∃ j ∈ vs, d'.derivedVarOf j = some k
  other : ∀ j, j ∉ vs → d'.derivedVarOf j = d.derivedVarOf j

theorem varsDerived_foldl : ∀ (vs : List Nat) (d : Differentiation), d.Sound → vs.Nodup →
    (∀ j ∈ vs, d.derivedVarOf j = none ∧ j < d.vars.length) →
      VarsDerived vs d (vs.foldl differentiateVar d)
  | [], d, h, _, _ =>
    ⟨h, rfl, fun _ => rfl, fun _ => rfl, fun _ => rfl, List.prefix_refl _, rfl, by simp,
      fun k hk hlt => absurd hlt (Nat.not_lt.mpr hk), fun _ _ => rfl⟩
  | j :: vs, d, h, hnd, hvs => by
    obtain ⟨hj, hlt⟩ := hvs j (List.mem_cons_self ..)
    obtain ⟨hjn, hnd⟩ := List.nodup_cons.mp hnd
    have hder := derivedVarOf_differentiateVar h.length_derivedVar hlt
    have hlen : (d.differentiateVar j).vars.length = d.vars.length + 1 := by
      simp [differentiateVar]
    have ih := varsDerived_foldl vs (d.differentiateVar j) (h.differentiateVar hj hlt) hnd
      fun k hk => by
        obtain ⟨hk', hkl⟩ := hvs k (List.mem_cons_of_mem _ hk)
        exact ⟨by rw [hder, if_neg (fun e : k = j => hjn (e ▸ hk)), hk'], by omega⟩
    have hhere : ((j :: vs).foldl differentiateVar d).derivedVarOf j = some d.vars.length := by
      rw [List.foldl_cons, ih.other j hjn, hder, if_pos rfl]
    refine ⟨ih.sound, ih.exprs, ih.row, ih.derivedEqOf, fun k => ?_,
      (List.prefix_append _ _).trans ih.vars, ?_, fun k hk => ?_, fun k hk hkl => ?_,
      fun k hk => ?_⟩
    · rw [List.foldl_cons, ih.assigned, assigned_differentiateVar]
    · rw [List.foldl_cons, ih.length, hlen, List.length_cons]
      omega
    · rcases List.mem_cons.mp hk with rfl | hk
      · exact ⟨_, Nat.le_refl _, hhere⟩
      · obtain ⟨l, hl, hkl⟩ := ih.derived k hk
        exact ⟨l, by omega, hkl⟩
    · rcases Nat.lt_or_eq_of_le hk with hk | rfl
      · obtain ⟨l, hl, hlk⟩ := ih.onto k (by omega) hkl
        exact ⟨l, List.mem_cons_of_mem _ hl, hlk⟩
      · exact ⟨j, List.mem_cons_self .., hhere⟩
    · rw [List.mem_cons, not_or] at hk
      rw [List.foldl_cons, ih.other k hk.2, hder, if_neg hk.1]

/-- The equations `es` have been differentiated. -/
structure EqsDerived (es : List Nat) (d d' : Differentiation) : Prop where
  sound : d'.Sound
  vars : d'.vars = d.vars
  derivedVarOf : ∀ j, d'.derivedVarOf j = d.derivedVarOf j
  assigned : ∀ j, d'.assigned j = d.assigned j
  exprs : d.exprs <+: d'.exprs
  length : d'.exprs.length = d.exprs.length + es.length
  row : ∀ i < d.exprs.length, d'.row i = d.row i
  derived : ∀ i ∈ es, ∃ k, d.exprs.length ≤ k ∧ d'.derivedEqOf i = some k
  onto : ∀ k, d.exprs.length ≤ k → k < d'.exprs.length → ∃ i ∈ es, d'.derivedEqOf i = some k
  other : ∀ i, i ∉ es → d'.derivedEqOf i = d.derivedEqOf i

theorem eqsDerived_foldl : ∀ (es : List Nat) (d : Differentiation), d.Sound → es.Nodup →
    (∀ i ∈ es, i < d.exprs.length ∧ ∀ j ∈ d.row i, ∃ l, d.derivedVarOf j = some l) →
      EqsDerived es d (es.foldl differentiateEq d)
  | [], d, h, _, _ =>
    ⟨h, rfl, fun _ => rfl, fun _ => rfl, List.prefix_refl _, rfl, fun _ _ => rfl, by simp,
      fun k hk hlt => absurd hlt (Nat.not_lt.mpr hk), fun _ _ => rfl⟩
  | i :: es, d, h, hnd, hes => by
    obtain ⟨hlt, hrow⟩ := hes i (List.mem_cons_self ..)
    obtain ⟨hin, hnd⟩ := List.nodup_cons.mp hnd
    have hder := derivedEqOf_differentiateEq h.length_derivedEq hlt
    have hrows := row_differentiateEq (i := i) h.length_adjacent
    have hlen : (d.differentiateEq i).exprs.length = d.exprs.length + 1 := by
      simp [differentiateEq]
    have ih := eqsDerived_foldl es (d.differentiateEq i) (h.differentiateEq hlt hrow) hnd
      fun k hk => by
        obtain ⟨hkl, hk'⟩ := hes k (List.mem_cons_of_mem _ hk)
        exact ⟨by omega, by rw [hrows, if_neg (by omega)]; exact hk'⟩
    have hhere : ((i :: es).foldl differentiateEq d).derivedEqOf i = some d.exprs.length := by
      rw [List.foldl_cons, ih.other i hin, hder, if_pos rfl]
    refine ⟨ih.sound, ih.vars, ih.derivedVarOf, ih.assigned,
      (List.prefix_append _ _).trans ih.exprs, ?_, fun k hk => ?_, fun k hk => ?_,
      fun k hk hkl => ?_, fun k hk => ?_⟩
    · rw [List.foldl_cons, ih.length, hlen, List.length_cons]
      omega
    · rw [List.foldl_cons, ih.row k (by omega), hrows, if_neg (by omega)]
    · rcases List.mem_cons.mp hk with rfl | hk
      · exact ⟨_, Nat.le_refl _, hhere⟩
      · obtain ⟨l, hl, hkl⟩ := ih.derived k hk
        exact ⟨l, by omega, hkl⟩
    · rcases Nat.lt_or_eq_of_le hk with hk | rfl
      · obtain ⟨l, hl, hlk⟩ := ih.onto k (by omega) hkl
        exact ⟨l, List.mem_cons_of_mem _ hl, hlk⟩
      · exact ⟨i, List.mem_cons_self .., hhere⟩
    · rw [List.mem_cons, not_or] at hk
      rw [List.foldl_cons, ih.other k hk.2, hder, if_neg hk.1]

theorem Sound.carryMatch (h : d.Sound) (j : Nat) : (d.carryMatch j).Sound := by
  unfold Differentiation.carryMatch
  split
  · exact h
  · exact ⟨h.length_derivedVar, by simp [h.length_assign], h.length_adjacent, h.length_derivedEq,
      h.nodup, h.below, h.derivedVar_iff, h.row_lt, h.derivedEq_lt, h.derivedEq_inj, h.row_derived,
      h.mem_row_derived, h.expr_derived⟩

theorem assigned_carryMatch (h : d.Sound) (hj : d.derivedVarOf j = some k) (l : Nat) :
    (d.carryMatch j).assigned l =
      if l = k then (d.assigned j).bind d.derivedEqOf else d.assigned l := by
  have hk : k < d.assign.length := h.length_assign ▸ (h.derivedVar_lt hj).2
  simp only [carryMatch, hj, assigned, List.getElem?_set]
  by_cases hl : l = k
  · subst hl; simp [hk]
  · simp [hl, Ne.symm hl]

/-- The matches of the variables `vs` below `n` have been carried to their derivatives. -/
structure Carried (vs : List Nat) (n : Nat) (d d' : Differentiation) : Prop where
  sound : d'.Sound
  vars : d'.vars = d.vars
  exprs : d'.exprs = d.exprs
  row : ∀ i, d'.row i = d.row i
  derivedVarOf : ∀ j, d'.derivedVarOf j = d.derivedVarOf j
  derivedEqOf : ∀ i, d'.derivedEqOf i = d.derivedEqOf i
  old : ∀ k < n, d'.assigned k = d.assigned k
  carried : ∀ j ∈ vs, ∀ k, d.derivedVarOf j = some k →
    d'.assigned k = (d.assigned j).bind d.derivedEqOf
  other : ∀ k, (∀ j ∈ vs, d.derivedVarOf j ≠ some k) → d'.assigned k = d.assigned k

theorem carried_foldl {n : Nat} : ∀ (vs : List Nat) (d : Differentiation), d.Sound →
    (∀ j ∈ vs, j < n ∧ ∃ k, n ≤ k ∧ d.derivedVarOf j = some k) →
      Carried vs n d (vs.foldl carryMatch d)
  | [], d, h, _ =>
    ⟨h, rfl, rfl, fun _ => rfl, fun _ => rfl, fun _ => rfl, fun _ _ => rfl, by simp,
      fun _ _ => rfl⟩
  | j :: vs, d, h, hvs => by
    obtain ⟨hjn, k, hk, hjk⟩ := hvs j (List.mem_cons_self ..)
    have hset := assigned_carryMatch h hjk
    have hsame : (d.carryMatch j).derivedVarOf = d.derivedVarOf ∧
        (d.carryMatch j).derivedEqOf = d.derivedEqOf ∧ (d.carryMatch j).vars = d.vars ∧
        (d.carryMatch j).exprs = d.exprs ∧ (d.carryMatch j).row = d.row := by
      unfold Differentiation.carryMatch
      split <;> exact ⟨rfl, rfl, rfl, rfl, rfl⟩
    obtain ⟨hv, he, hvars, hexprs, hrow⟩ := hsame
    have ih := carried_foldl vs (d.carryMatch j) (h.carryMatch j)
      fun l hl => by rw [hv]; exact hvs l (List.mem_cons_of_mem _ hl)
    have hother : ∀ l, (∀ m ∈ vs, d.derivedVarOf m ≠ some l) →
        (vs.foldl carryMatch (d.carryMatch j)).assigned l = (d.carryMatch j).assigned l :=
      fun l hl => ih.other l (by rw [hv]; exact hl)
    refine ⟨ih.sound, ih.vars.trans hvars, ih.exprs.trans hexprs, fun i => by
      rw [List.foldl_cons, ih.row, hrow], fun i => by rw [List.foldl_cons, ih.derivedVarOf, hv],
      fun i => by rw [List.foldl_cons, ih.derivedEqOf, he], fun l hl => ?_, fun l hl m hm => ?_,
      fun l hl => ?_⟩
    · rw [List.foldl_cons, ih.old l hl, hset, if_neg (by omega)]
    · by_cases hlv : l ∈ vs
      · rw [List.foldl_cons, ih.carried l hlv m (hv ▸ hm), hset, he, if_neg]
        have := (hvs l hl).1
        omega
      · have hlj : l = j := (List.mem_cons.mp hl).resolve_right hlv
        subst hlj
        have hmk : m = k := Option.some.inj (hm.symm.trans hjk)
        rw [List.foldl_cons, hother m, hset, if_pos hmk]
        exact fun p hp hpm => hlv (h.derivedVar_inj hpm hm ▸ hp)
    · rw [List.foldl_cons, hother l fun m hm => hl m (List.mem_cons_of_mem _ hm), hset, if_neg]
      rintro rfl
      exact hl j (List.mem_cons_self ..) hjk

/-- Coloured variables and equations that can be differentiated. -/
structure Singular (d : Differentiation) (s : Search) : Prop where
  nodup_vars : s.redVariables.Nodup
  nodup_eqs : s.redEquations.Nodup
  vars : ∀ j ∈ s.redVariables, d.derivedVarOf j = none ∧ j < d.vars.length
  eqs : ∀ i ∈ s.redEquations, i < d.exprs.length ∧ d.derivedEqOf i = none
  rows : ∀ i ∈ s.redEquations, ∀ j ∈ d.row i,
    j ∈ s.redVariables ∨ ∃ l, d.derivedVarOf j = some l

/-- What is coloured has been differentiated, the matches with it. -/
structure Differentiated (s : Search) (d d' : Differentiation) : Prop where
  sound : d'.Sound
  vars : d.vars <+: d'.vars
  length_vars : d'.vars.length = d.vars.length + s.redVariables.length
  exprs : d.exprs <+: d'.exprs
  length_exprs : d'.exprs.length = d.exprs.length + s.redEquations.length
  row : ∀ i < d.exprs.length, d'.row i = d.row i
  derivedVar : ∀ j ∈ s.redVariables, ∃ k, d.vars.length ≤ k ∧ d'.derivedVarOf j = some k
  derivedVar_onto : ∀ k, d.vars.length ≤ k → k < d'.vars.length →
    ∃ j ∈ s.redVariables, d'.derivedVarOf j = some k
  derivedVar_other : ∀ j, j ∉ s.redVariables → d'.derivedVarOf j = d.derivedVarOf j
  derivedEq : ∀ i ∈ s.redEquations, ∃ k, d.exprs.length ≤ k ∧ d'.derivedEqOf i = some k
  derivedEq_onto : ∀ k, d.exprs.length ≤ k → k < d'.exprs.length →
    ∃ i ∈ s.redEquations, d'.derivedEqOf i = some k
  derivedEq_other : ∀ i, i ∉ s.redEquations → d'.derivedEqOf i = d.derivedEqOf i
  assigned_old : ∀ k < d.vars.length, d'.assigned k = d.assigned k
  assigned_new : ∀ k, d.vars.length ≤ k → (d'.assigned k = none ∨
    ∃ j ∈ s.redVariables, d'.derivedVarOf j = some k ∧
      d'.assigned k = (d.assigned j).bind d'.derivedEqOf)
  assigned_derived : ∀ j ∈ s.redVariables, ∀ k, d'.derivedVarOf j = some k →
    d'.assigned k = (d.assigned j).bind d'.derivedEqOf

/-- Variables and equations have been differentiated in some order, and then the matches carried. -/
theorem Carried.differentiated {s : Search} {vs es : List Nat} {d₁ d₂ d₃ : Differentiation}
    (hvs : vs.Perm s.redVariables) (hes : es.Perm s.redEquations) (h : d.Sound)
    (x : VarsDerived vs d d₁) (y : EqsDerived es d₁ d₂) (z : Carried vs d.vars.length d₂ d₃) :
    Differentiated s d d₃ := by
  have hvar : ∀ j, d₃.derivedVarOf j = d₁.derivedVarOf j :=
    fun j => (z.derivedVarOf j).trans (y.derivedVarOf j)
  have hassigned : ∀ j, d₂.assigned j = d.assigned j :=
    fun j => (y.assigned j).trans (x.assigned j)
  have hcarried : ∀ j ∈ s.redVariables, ∀ k, d₃.derivedVarOf j = some k →
      d₃.assigned k = (d.assigned j).bind d₃.derivedEqOf := by
    intro j hj k hk
    rw [z.carried j (hvs.mem_iff.mpr hj) k ((z.derivedVarOf j).symm.trans hk), hassigned,
      funext z.derivedEqOf]
  refine ⟨z.sound, ?_, ?_, ?_, ?_, ?_, ?_, ?_, ?_, ?_, ?_, ?_, ?_, ?_, hcarried⟩
  · rw [z.vars, y.vars]; exact x.vars
  · rw [z.vars, y.vars, x.length, hvs.length_eq]
  · rw [z.exprs, ← x.exprs]; exact y.exprs
  · rw [z.exprs, y.length, x.exprs, hes.length_eq]
  · intro i hi
    rw [z.row, y.row i (x.exprs ▸ hi), x.row]
  · intro j hj
    rw [hvar]
    exact x.derived j (hvs.mem_iff.mpr hj)
  · intro k hk hlt
    rw [z.vars, y.vars] at hlt
    obtain ⟨j, hj, hjk⟩ := x.onto k hk hlt
    exact ⟨j, hvs.mem_iff.mp hj, (hvar j).trans hjk⟩
  · intro j hj
    rw [hvar, x.other j fun h => hj (hvs.mem_iff.mp h)]
  · intro i hi
    obtain ⟨k, hk, hik⟩ := y.derived i (hes.mem_iff.mpr hi)
    exact ⟨k, x.exprs ▸ hk, (z.derivedEqOf i).trans hik⟩
  · intro k hk hlt
    obtain ⟨i, hi, hik⟩ := y.onto k (x.exprs ▸ hk) (z.exprs ▸ hlt)
    exact ⟨i, hes.mem_iff.mp hi, (z.derivedEqOf i).trans hik⟩
  · intro i hi
    rw [z.derivedEqOf, y.other i fun h => hi (hes.mem_iff.mp h), x.derivedEqOf]
  · intro k hk
    rw [z.old k hk, hassigned]
  · intro k hk
    by_cases hex : ∃ j ∈ vs, d₂.derivedVarOf j = some k
    · obtain ⟨j, hj, hjk⟩ := hex
      have hjk' := (z.derivedVarOf j).trans hjk
      exact Or.inr ⟨j, hvs.mem_iff.mp hj, hjk', hcarried j (hvs.mem_iff.mp hj) k hjk'⟩
    · push Not at hex
      rw [z.other k hex, hassigned]
      left
      rw [assigned, List.getElem?_eq_none (h.length_assign ▸ hk)]
      rfl

theorem Sound.differentiated (h : d.Sound) {s : Search} (c : d.Singular s) :
    Differentiated s d (d.differentiate s) := by
  have hvs := ascending_perm s.redVariables
  have hes := ascending_perm s.redEquations
  have x := varsDerived_foldl _ d h (hvs.nodup_iff.mpr c.nodup_vars) fun j hj =>
    c.vars j (hvs.mem_iff.mp hj)
  have y := eqsDerived_foldl _ _ x.sound (hes.nodup_iff.mpr c.nodup_eqs) fun i hi => by
    rw [x.exprs, x.row]
    refine ⟨(c.eqs i (hes.mem_iff.mp hi)).1, fun j hj => ?_⟩
    by_cases hjv : j ∈ ascending s.redVariables
    · exact (x.derived j hjv).imp fun _ h => h.2
    · rw [x.other j hjv]
      exact (c.rows i (hes.mem_iff.mp hi) j hj).resolve_left fun hr => hjv (hvs.mem_iff.mpr hr)
  have z : Carried (ascending s.redVariables) d.vars.length _ _ :=
    carried_foldl _ _ y.sound fun j hj => by
      rw [y.derivedVarOf]
      exact ⟨(c.vars j (hvs.mem_iff.mp hj)).2, x.derived j hj⟩
  exact z.differentiated hvs hes h x y

section Differentiated

variable {s : Search} {d d' : Differentiation} (y : Differentiated s d d')

include y

theorem Differentiated.derivedEq_of (c : d.Singular s) (hi : d.derivedEqOf i = some k) :
    d'.derivedEqOf i = some k := by
  have hred : i ∉ s.redEquations := fun hr => by simp [(c.eqs i hr).2] at hi
  rw [y.derivedEq_other i hred, hi]

/-- A new equation is not differentiated. -/
theorem Differentiated.leaf_new (h : d.Sound) (c : d.Singular s) (hi : d.exprs.length ≤ i) :
    d'.derivedEqOf i = none := by
  rw [y.derivedEq_other i fun hr => by have := (c.eqs i hr).1; omega]
  cases hk : d.derivedEqOf i with
  | none => rfl
  | some k =>
    have := h.derivedEq_lt' hk
    omega

/-- A new variable is a highest derivative. -/
theorem Differentiated.highest_new (h : d.Sound) (c : d.Singular s) (hj : d.vars.length ≤ j) :
    d'.derivedVarOf j = none := by
  rw [y.derivedVar_other j fun hr => by have := (c.vars j hr).2; omega]
  cases hk : d.derivedVarOf j with
  | none => rfl
  | some k =>
    have := (h.derivedVar_lt hk).1
    omega

/-- A variable that still is a highest derivative has not been coloured. -/
theorem Differentiated.highest_old (hj : d'.derivedVarOf j = none) :
    j ∉ s.redVariables ∧ d.derivedVarOf j = none := by
  have hred : j ∉ s.redVariables := fun hr => by
    obtain ⟨k, -, hk⟩ := y.derivedVar j hr
    simp [hj] at hk
  exact ⟨hred, y.derivedVar_other j hred ▸ hj⟩

end Differentiated

end Differentiation

end Flange

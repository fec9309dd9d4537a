import Flange.Proofs.Graph.Matching
import Flange.Proofs.Reduction.Coverage
import Flange.Proofs.Reduction.Structure

/-! # Well-posed systems

The structural check accepts first-order equations exactly when they can be matched to different
functions. This is also what differentiation needs to come to an end.
-/

namespace Flange

/-! ### Perfect matchings -/

/-- Each equation has a neighbour of its own, and these are all of `vs`. -/
def PerfectMatching {ν : Type} (adj : Adjacency ν) (vs : List ν) : Prop :=
  ∃ f : Nat → ν, (∀ i < adj.length, f i ∈ adj.getD i []) ∧
    (∀ i < adj.length, ∀ j < adj.length, f i = f j → i = j) ∧ ∀ v ∈ vs, ∃ i < adj.length, f i = v

namespace Matching

variable {ν : Type} [DecidableEq ν] {adj : Adjacency ν} {vs : List ν}

/-- Where a perfect matching exists, the maximum matching matches all equations. -/
theorem matched?_maximum (h : PerfectMatching adj vs) {i : Nat} (hi : i < adj.length) :
    ∃ v, (maximum adj).matched? i = some v := by
  obtain ⟨f, hf, hinj, -⟩ := h
  have hm := valid_maximum adj
  have hcard := card_le_size_maximum (f := fun i => if i < adj.length then some (f i) else none)
    ⟨fun {i v} hi => by
      split at hi
      · next h => exact Option.some.inj hi ▸ hf i h
      · simp at hi,
    fun {i j v} hi hj => by
      split at hi <;> split at hj
      · next h h' => exact hinj i h j h' (Option.some.inj (hi.trans hj.symm))
      all_goals simp_all⟩
  have hall : ((Finset.range adj.length).filter fun i =>
      (if i < adj.length then some (f i) else none).isSome) = Finset.range adj.length :=
    Finset.filter_true_of_mem fun i hi => by simp [Finset.mem_range.mp hi]
  rw [hall, Finset.card_range] at hcard
  exact hm.exists_matched hcard hi

variable [Inhabited ν]

/-- A matching of no more equations that leaves no variable out is perfect. -/
theorem perfect_of_equation? {m : Matching ν} (hm : m.Valid adj) (hvs : vs.Nodup)
    (hlen : adj.length ≤ vs.length) (h : ∀ v ∈ vs, (m.equation? v).isSome) :
    PerfectMatching adj vs := by
  have hplace : ∀ v ∈ vs, ∃ i, m.matched? i = some v := fun v hv =>
    (Option.isSome_iff_exists.mp (h v hv)).imp fun i hi => hm.equation_iff.mp hi
  choose! g hg using hplace
  have himage : vs.toFinset.image g = Finset.range adj.length := by
    apply Finset.eq_of_subset_of_card_le
    · intro i hi
      obtain ⟨v, hv, rfl⟩ := Finset.mem_image.mp hi
      exact Finset.mem_range.mpr (hm.lt (hg v (List.mem_toFinset.mp hv)))
    · rw [Finset.card_range, Finset.card_image_of_injOn, List.toFinset_card_of_nodup hvs]
      · exact hlen
      · intro v hv w hw hvw
        have hv := hg v (by simpa using hv)
        rw [hvw, hg w (by simpa using hw)] at hv
        exact (Option.some.inj hv).symm
  have hback : ∀ i < adj.length, ∃ v, m.matched? i = some v := by
    intro i hi
    obtain ⟨v, hv, rfl⟩ := Finset.mem_image.mp (himage ▸ Finset.mem_range.mpr hi)
    exact ⟨v, hg v (List.mem_toFinset.mp hv)⟩
  choose! f hf using hback
  refine ⟨f, fun i hi => hm.adjacent (hf i hi),
    fun i hi j hj hij => hm.eq_of_matched (hf i hi) (hij ▸ hf j hj), fun v hv => ?_⟩
  have hlt := hm.lt (hg v hv)
  exact ⟨g v, hlt, Option.some.inj ((hf _ hlt).symm.trans (hg v hv))⟩

/-- Where a perfect matching exists, the maximum matching leaves no variable out. -/
theorem equation?_maximum (h : PerfectMatching adj vs) (hlen : vs.length ≤ adj.length)
    (hin : ∀ i, adj.getD i [] ⊆ vs) {v : ν} (hv : v ∈ vs) :
    ((maximum adj).equation? v).isSome := by
  have hm := valid_maximum adj
  choose! f hf using fun i (hi : i < adj.length) => matched?_maximum h hi
  have hinj : ∀ i < adj.length, ∀ j < adj.length, f i = f j → i = j :=
    fun i hi j hj hij => hm.eq_of_matched (hf i hi) (hij ▸ hf j hj)
  obtain ⟨i, hi, rfl⟩ := exists_eq_of_injOn hlen (fun i hi => hin i (hm.adjacent (hf i hi))) hinj hv
  simp [hm.equation_iff.mpr (hf i hi)]

end Matching

namespace Structure

variable {s : Structure} {known : List Var} {es : List Expr} {v x : Var}

/-! ### The structural check -/

theorem getD_extended_row {r : Nat} (hr : r < s.perEquation.length) :
    s.extended.getD r [] = s.perEquation.getD r [] := by
  rw [extended, List.getD_append _ _ _ _ hr]

theorem getD_extended_link {q : Nat} {x : Var} (hq : s.states[q]? = some x) :
    s.extended.getD (s.perEquation.length + q) [] = [x, x.der] := by
  simp [extended, List.getD_eq_getElem?_getD, List.getElem?_append_right, hq]

theorem length_extended : s.extended.length = s.perEquation.length + s.states.length := by
  simp [extended]

/-- A choice of a variable for each equation, of different functions. -/
structure Choice (s : Structure) (τ : Nat → Var) : Prop where
  mem : ∀ r < s.perEquation.length, τ r ∈ s.perEquation.getD r []
  names : ∀ r < s.perEquation.length, ∀ r' < s.perEquation.length,
    (τ r).name = (τ r').name → r = r'

theorem OfFirstOrder.mem_all_of_getD (h : s.OfFirstOrder) {i : Nat} : s.extended.getD i [] ⊆ s.all := by
  intro v hv
  rcases Nat.lt_or_ge i s.perEquation.length with hi | hi
  · rw [getD_extended_row hi, List.getD_eq_getElem _ _ hi] at hv
    exact h.perEquation (List.getElem_mem hi) hv
  · obtain ⟨q, rfl⟩ := Nat.exists_eq_add_of_le hi
    rcases hq : s.states[q]? with _ | x
    · rw [List.getElem?_eq_none_iff] at hq
      rw [List.getD_eq_getElem?_getD, List.getElem?_eq_none (by rw [length_extended]; omega)] at hv
      simp at hv
    · rw [getD_extended_link hq] at hv
      have hx := List.mem_of_getElem? hq
      rcases (by simpa using hv : v = x ∨ v = x.der) with rfl | rfl
      · exact h.mem_all.mpr (Or.inl hx)
      · exact h.mem_all.mpr (Or.inr (Or.inl ⟨x, hx, rfl⟩))

/-- In a perfect matching the link of a function with its derivative takes one of the two. -/
theorem OfFirstOrder.choice_of_perfect (h : s.OfFirstOrder) (hp : PerfectMatching s.extended s.all) :
    ∃ τ, s.Choice τ := by
  obtain ⟨f, hf, hinj, -⟩ := hp
  rw [length_extended] at hf hinj
  refine ⟨f, fun r hr => getD_extended_row hr ▸ hf r (by omega), fun r hr r' hr' hname => ?_⟩
  by_contra hne
  have hmem : ∀ r < s.perEquation.length, f r ∈ s.all := fun r hr =>
    h.mem_all_of_getD (hf r (by omega))
  have hff : f r ≠ f r' := fun he => hne (hinj r (by omega) r' (by omega) he)
  obtain ⟨x, hx, hxr⟩ := h.eq_or_der (hmem r hr) (hmem r' hr') hname hff
  obtain ⟨q, hq⟩ := List.mem_iff_getElem?.mp hx
  have hlt := lt_of_getElem? hq
  have hlink := hf (s.perEquation.length + q) (by omega)
  rw [getD_extended_link hq] at hlink
  have hr₁ := hinj (s.perEquation.length + q) (by omega) r (by omega)
  have hr₂ := hinj (s.perEquation.length + q) (by omega) r' (by omega)
  rcases (by simpa using hlink : _ = x ∨ _ = x.der) with hl | hl <;>
    rcases hxr with ⟨h₁, h₂⟩ | ⟨h₁, h₂⟩
  · have := hr₁ (hl.trans h₁.symm)
    omega
  · have := hr₂ (hl.trans h₂.symm)
    omega
  · have := hr₂ (hl.trans h₂.symm)
    omega
  · have := hr₁ (hl.trans h₁.symm)
    omega

/-- What the choices of the first `N` equations leave over of `x` and its derivative. -/
def leftOver (N : Nat) (τ : Nat → Var) (x : Var) : Var := if ∃ r < N, τ r = x then x.der else x

theorem name_leftOver (N : Nat) (τ : Nat → Var) (x : Var) : (leftOver N τ x).name = x.name := by
  unfold leftOver
  split <;> rfl

theorem leftOver_mem (N : Nat) (τ : Nat → Var) (x : Var) : leftOver N τ x ∈ [x, x.der] := by
  unfold leftOver
  split <;> simp

/-- If an equation had chosen what is left over, its function would have been chosen twice. -/
theorem Choice.ne_leftOver {τ : Nat → Var} (hτ : s.Choice τ) {r : Nat}
    (hr : r < s.perEquation.length) : τ r ≠ leftOver s.perEquation.length τ x := by
  intro he
  unfold leftOver at he
  split at he
  · next hex =>
    obtain ⟨r', hr', rfl⟩ := hex
    obtain rfl := hτ.names r hr r' hr' (by simp [he])
    exact Var.der_ne_self he.symm
  · next hex => exact hex ⟨r, hr, he⟩

/-- The choices of the equations, and for each link what they leave over of its function. -/
def withLinks (s : Structure) (τ : Nat → Var) (i : Nat) : Var :=
  if i < s.perEquation.length then τ i
  else leftOver s.perEquation.length τ (s.states.getD (i - s.perEquation.length) default)

theorem withLinks_row {τ : Nat → Var} {r : Nat} (hr : r < s.perEquation.length) :
    s.withLinks τ r = τ r := if_pos hr

theorem withLinks_link {τ : Nat → Var} {q : Nat} (hq : s.states[q]? = some x) :
    s.withLinks τ (s.perEquation.length + q) = leftOver s.perEquation.length τ x := by
  simp [withLinks, List.getD_eq_getElem?_getD, hq]

theorem row_or_link {i : Nat} (hi : i < s.extended.length) :
    i < s.perEquation.length ∨ ∃ q x, i = s.perEquation.length + q ∧ s.states[q]? = some x := by
  rw [length_extended] at hi
  rcases Nat.lt_or_ge i s.perEquation.length with hlt | hge
  · exact Or.inl hlt
  · obtain ⟨q, rfl⟩ := Nat.exists_eq_add_of_le hge
    exact Or.inr ⟨q, _, rfl, List.getElem?_eq_getElem (by omega)⟩

theorem Choice.withLinks_mem {τ : Nat → Var} (hτ : s.Choice τ) {i : Nat}
    (hi : i < s.extended.length) : s.withLinks τ i ∈ s.extended.getD i [] := by
  rcases row_or_link hi with hr | ⟨q, x, rfl, hq⟩
  · rw [withLinks_row hr, getD_extended_row hr]
    exact hτ.mem i hr
  · rw [withLinks_link hq, getD_extended_link hq]
    exact leftOver_mem _ _ x

theorem Choice.withLinks_inj {τ : Nat → Var} (hτ : s.Choice τ) (h : s.OfFirstOrder) {i j : Nat}
    (hi : i < s.extended.length) (hj : j < s.extended.length)
    (he : s.withLinks τ i = s.withLinks τ j) : i = j := by
  rcases row_or_link hi with hr | ⟨q, x, rfl, hq⟩ <;>
    rcases row_or_link hj with hr' | ⟨q', y, rfl, hq'⟩
  · rw [withLinks_row hr, withLinks_row hr'] at he
    exact hτ.names i hr j hr' (congrArg Var.name he)
  · rw [withLinks_row hr, withLinks_link hq'] at he
    exact absurd he (hτ.ne_leftOver hr)
  · rw [withLinks_link hq, withLinks_row hr'] at he
    exact absurd he.symm (hτ.ne_leftOver hr')
  · rw [withLinks_link hq, withLinks_link hq'] at he
    have hname : x.name = y.name := by rw [← name_leftOver _ τ x, he, name_leftOver]
    have hx := h.order_state (List.mem_of_getElem? hq)
    have hy := h.order_state (List.mem_of_getElem? hq')
    obtain rfl : x = y := by
      cases x
      cases y
      simp_all
    rw [(List.getElem?_inj (lt_of_getElem? hq) h.nodup_states).mp (hq.trans hq'.symm)]

/-- Each link takes what the choice leaves over of its function. -/
theorem OfFirstOrder.perfect_of_choice (h : s.OfFirstOrder)
    (hsize : s.size = s.perEquation.length) {τ : Nat → Var} (hτ : s.Choice τ) :
    PerfectMatching s.extended s.all := by
  have hlen : s.all.length ≤ s.extended.length := by rw [h.length_all, hsize, length_extended]
  exact ⟨s.withLinks τ, fun i hi => hτ.withLinks_mem hi,
    fun i hi j hj he => hτ.withLinks_inj h hi hj he, fun v hv => exists_eq_of_injOn hlen
      (fun i hi => h.mem_all_of_getD (hτ.withLinks_mem hi))
      (fun i hi j hj he => hτ.withLinks_inj h hi hj he) hv⟩

/-- The check finds no fault exactly when there is a perfect matching. -/
theorem OfFirstOrder.fault?_eq_none_iff (h : s.OfFirstOrder)
    (hes : s.perEquation.length = es.length) (hsize : s.size = es.length) :
    s.fault? es = none ↔ PerfectMatching s.extended s.all := by
  have hlen : s.extended.length = s.all.length := by
    rw [length_extended, h.length_all, hes, hsize]
  have hfault : s.fault? es = none ↔
      s.unmatchedEquations (Matching.maximum s.extended) = [] ∧
        s.unmatchedVars (Matching.maximum s.extended) = [] := by
    simp [fault?, hsize]
  rw [hfault]
  constructor
  · rintro ⟨-, hv⟩
    refine Matching.perfect_of_equation? (Matching.valid_maximum _) h.nodup_all hlen.le ?_
    intro v hv'
    have := List.filter_eq_nil_iff.mp hv v hv'
    simpa [Option.isSome_iff_ne_none] using this
  · intro hp
    constructor
    · refine List.filter_eq_nil_iff.mpr fun i hi => ?_
      obtain ⟨v, hv⟩ := Matching.matched?_maximum hp (i := i)
        (by rw [length_extended]; have := List.mem_range.mp hi; omega)
      simp [hv]
    · refine List.filter_eq_nil_iff.mpr fun v hv => ?_
      have := Matching.equation?_maximum hp hlen.ge (fun i => h.mem_all_of_getD) hv
      simpa [Option.isSome_iff_ne_none] using this

/-! ### Differentiation -/

open Differentiation

theorem row_start (i : Nat) :
    (start s es).row i = (s.perEquation.getD i []).map s.all.idxOf := by
  simp only [row, start, List.getD_eq_getElem?_getD, List.getElem?_map]
  cases s.perEquation[i]? <;> rfl

theorem getElem?_idxOf (hv : v ∈ s.all) : s.all[s.all.idxOf v]? = some v := by
  rw [List.getElem?_eq_getElem (List.idxOf_lt_length_of_mem hv), List.getElem_idxOf]

theorem derivedEqOf_start (i : Nat) : (start s es).derivedEqOf i = none := by
  simp only [derivedEqOf, start, List.getElem?_map]
  cases es[i]? <;> rfl

theorem assigned_start (j : Nat) : (start s es).assigned j = none := by
  simp only [assigned, start, List.getElem?_map]
  cases s.all[j]? <;> rfl

theorem OfFirstOrder.derivedVarOf_start (h : s.OfFirstOrder) {j k : Nat} :
    (start s es).derivedVarOf j = some k ↔
      ∃ v : Var, s.all[j]? = some v ∧ s.all[k]? = some v.der := by
  have hfind : ∀ w, s.all.findIdx? (· == w) = some k ↔ s.all[k]? = some w := by
    intro w
    rw [List.findIdx?_eq_some_iff_getElem]
    constructor
    · rintro ⟨hk, he, -⟩
      rw [List.getElem?_eq_getElem hk, eq_of_beq he]
    · intro hk
      obtain ⟨hlt, he⟩ := List.getElem?_eq_some_iff.mp hk
      refine ⟨hlt, by simp [he], fun i hi hiw => ?_⟩
      have hiw := eq_of_beq hiw
      have := (List.getElem_inj h.nodup_all).mp (hiw.trans he.symm)
      omega
  simp only [derivedVarOf, start, List.getElem?_map]
  rcases hj : s.all[j]? with _ | v
  · simp
  · simpa using hfind v.der

theorem OfFirstOrder.row_start_lt (h : s.OfFirstOrder) {i j : Nat} (hj : j ∈ (start s es).row i) :
    j < s.all.length := by
  rw [row_start] at hj
  obtain ⟨v, hv, rfl⟩ := List.mem_map.mp hj
  rcases Nat.lt_or_ge i s.perEquation.length with hi | hi
  · rw [List.getD_eq_getElem _ _ hi] at hv
    exact List.idxOf_lt_length_of_mem (h.perEquation (List.getElem_mem hi) hv)
  · rw [List.getD_eq_default _ _ hi] at hv
    simp at hv

theorem OfFirstOrder.sound_start (h : s.OfFirstOrder) (hes : s.perEquation.length = es.length) :
    (start s es).Sound where
  length_derivedVar := by simp [start]
  length_assign := by simp [start]
  length_adjacent := by simp [start, hes]
  length_derivedEq := by simp [start]
  nodup := h.nodup_all
  below := by
    intro v hv
    rcases h.mem_all.mp hv with hv | ⟨x, hx, hv⟩ | hv
    · simpa using h.order_state hv
    · exact h.mem_all.mpr (Or.inl (Var.der_injective hv ▸ hx))
    · simpa using h.order_algebraic hv
  derivedVar_iff := h.derivedVarOf_start
  row_lt := h.row_start_lt
  derivedEq_lt := by simp [derivedEqOf_start]
  derivedEq_inj := by simp [derivedEqOf_start]
  row_derived := by simp [derivedEqOf_start]
  mem_row_derived := by simp [derivedEqOf_start]
  expr_derived := by simp [derivedEqOf_start]

theorem OfFirstOrder.covered_start (h : s.OfFirstOrder) (hes : s.perEquation.length = es.length) :
    Covered (start s es) es.length 0 0 (start s es) where
  sound := h.sound_start hes
  exprs := List.prefix_refl _
  vars := List.prefix_refl _
  row := fun _ _ => rfl
  originals := Nat.le_refl _
  noParent := by simp [derivedEqOf_start]
  descends := fun i hi => ⟨i, hi, 0, .refl⟩
  used := by simp [assigned_start]
  injective := by simp [assigned_start]
  matched := by simp
  fresh := by simp [derivedEqOf_start]

theorem OfFirstOrder.transversal_iff (h : s.OfFirstOrder)
    (hes : s.perEquation.length = es.length) {τ : Nat → Var} :
    (start s es).Transversal es.length τ ↔ s.Choice τ := by
  have hmem : ∀ r < s.perEquation.length,
      (∃ j ∈ (start s es).row r, (start s es).vars[j]? = some (τ r)) ↔
        τ r ∈ s.perEquation.getD r [] := by
    intro r hr
    have hall : s.perEquation.getD r [] ⊆ s.all := fun v hv => by
      rw [List.getD_eq_getElem _ _ hr] at hv
      exact h.perEquation (List.getElem_mem hr) hv
    rw [row_start]
    constructor
    · rintro ⟨j, hj, hv⟩
      obtain ⟨v, hvr, rfl⟩ := List.mem_map.mp hj
      obtain rfl : v = τ r := Option.some.inj ((getElem?_idxOf (hall hvr)).symm.trans hv)
      exact hvr
    · exact fun hv => ⟨_, List.mem_map_of_mem hv, getElem?_idxOf (hall hv)⟩
  rw [← hes]
  exact ⟨fun hτ => ⟨fun r hr => (hmem r hr).mp (hτ.mem r hr), hτ.names⟩,
    fun hτ => ⟨fun r hr => (hmem r hr).mpr (hτ.mem r hr), hτ.names⟩⟩

/-- Differentiation that comes to an end has matched all equations. -/
theorem OfFirstOrder.covered_of_differentiate (h : s.OfFirstOrder)
    (hes : s.perEquation.length = es.length) (hsize : s.size = es.length) {steps : Nat}
    {d : Differentiation} (hd : s.differentiate es steps = .ok d) :
    Covered (start s es) es.length es.length es.length d := by
  rw [Structure.differentiate, hsize, List.range_eq_range'] at hd
  exact matchAll_covered (h.covered_start hes) (by omega) hd

/-- Differentiation that comes to an end has found a perfect matching. -/
theorem OfFirstOrder.perfect_of_differentiate (h : s.OfFirstOrder)
    (hes : s.perEquation.length = es.length) (hsize : s.size = es.length) {steps : Nat}
    {d : Differentiation} (hd : s.differentiate es steps = .ok d) :
    PerfectMatching s.extended s.all := by
  obtain ⟨τ, hτ⟩ := (h.covered_of_differentiate hes hsize hd).transversal (h.sound_start hes)
  exact h.perfect_of_choice (hsize.trans hes.symm) ((h.transversal_iff hes).mp hτ)

/-- With a perfect matching differentiation comes to an end after as many steps as there are
variables. -/
theorem OfFirstOrder.differentiate_isOk (h : s.OfFirstOrder)
    (hes : s.perEquation.length = es.length) (hsize : s.size = es.length)
    (hp : PerfectMatching s.extended s.all) {steps : Nat} (hs : s.all.length < es.length + steps) :
    ∃ d, s.differentiate es steps = .ok d := by
  obtain ⟨τ, hτ⟩ := h.choice_of_perfect hp
  rw [Structure.differentiate, hsize, List.range_eq_range']
  exact matchAll_isOk ((h.transversal_iff hes).mpr hτ) (h.covered_start hes) (by omega) hs

/-- For as many first-order equations as functions, the structural check accepts, a perfect
matching exists and differentiation comes to an end with steps enough, or none of the three. -/
theorem check_decides_differentiation {known : List Var} {es : List Expr}
    (hfirst : FirstOrder known es) (hsize : (ofExprs known es).size = es.length) :
    let s := ofExprs known es
    (s.fault? es = none ↔ PerfectMatching s.extended s.all) ∧
      (PerfectMatching s.extended s.all ↔
        ∃ K, ∀ steps ≥ K, ∃ d, s.differentiate es steps = .ok d) ∧
      (¬ PerfectMatching s.extended s.all →
        ∀ steps, ∃ e, s.differentiate es steps = .error e ∧ e.kind = .reduction) := by
  intro s
  have h : s.OfFirstOrder := ofFirstOrder_ofExprs hfirst
  have hes : s.perEquation.length = es.length := by simp [s, ofExprs]
  refine ⟨h.fault?_eq_none_iff hes hsize, ⟨fun hp => ⟨s.all.length + 1, fun steps hs => ?_⟩, ?_⟩,
    fun hp steps => ?_⟩
  · exact h.differentiate_isOk hes hsize hp (by omega)
  · rintro ⟨K, hK⟩
    obtain ⟨d, hd⟩ := hK K (Nat.le_refl K)
    exact h.perfect_of_differentiate hes hsize hd
  · rcases hd : s.differentiate es steps with e | d
    · exact ⟨e, rfl, kind_of_matchAll_error hd⟩
    · exact absurd (h.perfect_of_differentiate hes hsize hd) hp

/-- `y = x'` with `x` prescribed by an input: the second equation has to be differentiated. -/
theorem check_decides_prescribed_motion :
    let u : Var := ⟨"u", 0⟩
    let es : List Expr := [.sum (.prod (.num (-1)) (.var ⟨"y", 0⟩)) (.var ⟨"x", 1⟩),
      .sum (.prod (.num (-1)) (.var u)) (.var ⟨"x", 0⟩)]
    FirstOrder [u] es ∧ (ofExprs [u] es).size = es.length ∧
      ∃ K, ∀ steps ≥ K, ∃ d, (ofExprs [u] es).differentiate es steps = .ok d := by
  intro u es
  have hfirst : FirstOrder [u] es := by
    unfold FirstOrder
    decide +kernel
  have hsize : (ofExprs [u] es).size = es.length := by decide +kernel
  obtain ⟨-, hends, -⟩ := check_decides_differentiation hfirst hsize
  refine ⟨hfirst, hsize, hends.mp ?_⟩
  have hrow : ∀ r < 2, r = 0 ∨ r = 1 := by omega
  refine (ofFirstOrder_ofExprs hfirst).perfect_of_choice hsize
    (τ := fun r => if r = 0 then ⟨"y", 0⟩ else ⟨"x", 0⟩) ⟨fun r hr => ?_, fun r hr r' hr' hn => ?_⟩
  · rcases hrow r hr with rfl | rfl
    · exact mem_sortVars.mpr (List.mem_append_right _ (mem_unknownFunctions.mpr (by decide +kernel)))
    · exact mem_sortVars.mpr (List.mem_append_right _ (mem_unknownFunctions.mpr (by decide +kernel)))
  · rcases hrow r hr with rfl | rfl <;> rcases hrow r' hr' with rfl | rfl <;> simp_all

end Structure

end Flange

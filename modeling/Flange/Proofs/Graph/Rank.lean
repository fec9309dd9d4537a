import Mathlib.Combinatorics.Enumerative.DoubleCounting
import Mathlib.Data.Finset.Option
import Mathlib.Data.Finset.Union
import Mathlib.Data.List.GetD
import Flange.Proofs.Graph.Matching

/-! # How the size of a maximum matching grows

A set of equations bounds every matching by the number of its neighbours and of the equations outside
it, and a maximum matching meets the bound of some set. An equation whose variables are neighbours of
such a set does not let more be matched, and it never does however many equations are added. This is
why equations may be tried one at a time, each of them once.
-/

namespace Flange

namespace Matching

variable {ν : Type} [DecidableEq ν] {adj more : Adjacency ν} {m : Matching ν} {s t : Finset Nat}
  {vs : List ν} {v : ν}

/-- The variables of the equations in `s`. -/
def neighbours (adj : Adjacency ν) (s : Finset Nat) : Finset ν :=
  s.biUnion fun i => (adj.getD i []).toFinset

theorem mem_neighbours : v ∈ neighbours adj s ↔ ∃ i ∈ s, v ∈ adj.getD i [] := by
  simp [neighbours]

theorem neighbours_union : neighbours adj (s ∪ t) = neighbours adj s ∪ neighbours adj t :=
  Finset.union_biUnion

theorem neighbours_inter_subset :
    neighbours adj (s ∩ t) ⊆ neighbours adj s ∩ neighbours adj t :=
  Finset.subset_inter (Finset.biUnion_subset_biUnion_of_subset_left _ Finset.inter_subset_left)
    (Finset.biUnion_subset_biUnion_of_subset_left _ Finset.inter_subset_right)

theorem neighbours_append (hs : s ⊆ Finset.range adj.length) :
    neighbours (adj ++ more) s = neighbours adj s := by
  refine Finset.biUnion_congr rfl fun i hi => ?_
  rw [List.getD_append _ _ _ _ (Finset.mem_range.mp (hs hi))]

/-- The variables that a matching gives to the equations in `s`. -/
def served (m : Matching ν) (s : Finset Nat) : Finset ν :=
  s.biUnion fun i => Option.toFinset (m.matched? i)

theorem mem_served : v ∈ served m s ↔ ∃ i ∈ s, m.matched? i = some v := by
  simp [served]

theorem served_subset (hm : m.Valid adj) : served m s ⊆ neighbours adj s := by
  intro v hv
  obtain ⟨i, hi, hiv⟩ := mem_served.mp hv
  exact mem_neighbours.mpr ⟨i, hi, hm.adjacent hiv⟩

/-- Outside `s` each equation is matched at most once, and inside each to a variable of its own. -/
theorem size_add_card_le (hm : m.Valid adj) (hs : s ⊆ Finset.range adj.length) :
    m.size + s.card ≤ (served m s).card + adj.length := by
  have hinside : (covered adj.length m ∩ s).card ≤ (served m s).card := by
    refine Finset.card_le_card_of_forall_subsingleton (fun i v => m.matched? i = some v)
      (fun i hi => ?_) fun v _ i hi j hj => ?_
    · obtain ⟨hi, his⟩ := Finset.mem_inter.mp hi
      obtain ⟨v, hv⟩ := Option.isSome_iff_exists.mp (Finset.mem_filter.mp hi).2
      exact ⟨v, mem_served.mpr ⟨i, his, hv⟩, hv⟩
    · exact hm.eq_of_matched hi.2 hj.2
  have houtside : (covered adj.length m \ s).card ≤ (Finset.range adj.length \ s).card :=
    Finset.card_le_card (Finset.sdiff_subset_sdiff (Finset.filter_subset _ _) (Finset.Subset.refl s))
  have hsplit := Finset.card_inter_add_card_sdiff (covered adj.length m) s
  have hrest := Finset.card_sdiff_add_card_eq_card hs
  rw [card_covered hm] at hsplit
  rw [Finset.card_range] at hrest
  omega

/-- No matching is larger than the neighbours of `s` and the equations outside it allow. -/
theorem size_maximum_add_card_le (hs : s ⊆ Finset.range adj.length) :
    (maximum adj).size + s.card ≤ (neighbours adj s).card + adj.length :=
  (size_add_card_le (valid_maximum adj) hs).trans
    (Nat.add_le_add_right (Finset.card_le_card (served_subset (valid_maximum adj))) _)

/-- A set whose bound a maximum matching meets. -/
structure Tight (adj : Adjacency ν) (s : Finset Nat) : Prop where
  subset : s ⊆ Finset.range adj.length
  le : (neighbours adj s).card + adj.length ≤ (maximum adj).size + s.card

/-- Only the equations of the graph count in a certificate. -/
theorem Certificate.inter_range (h : Certificate adj m s) (hm : m.Valid adj) :
    Certificate adj m (s ∩ Finset.range adj.length) where
  unmatched := fun i hi hn => Finset.mem_inter.mpr ⟨h.unmatched i hi hn, Finset.mem_range.mpr hi⟩
  closed := by
    intro i hi v hv
    obtain ⟨j, hjs, hj⟩ := h.closed i (Finset.mem_inter.mp hi).1 v hv
    exact ⟨j, Finset.mem_inter.mpr
      ⟨hjs, Finset.mem_range.mpr (hm.lt (hm.equation_iff.mp hj))⟩, hj⟩

/-- The neighbours in a certificate are all matched inside, and what is outside is matched. -/
theorem Certificate.tight (h : Certificate adj (maximum adj) s)
    (hs : s ⊆ Finset.range adj.length) : Tight adj s := by
  refine ⟨hs, ?_⟩
  have hm := valid_maximum adj
  have hinside : (neighbours adj s).card ≤ (covered adj.length (maximum adj) ∩ s).card := by
    refine Finset.card_le_card_of_forall_subsingleton
      (fun v i => (maximum adj).matched? i = some v) (fun v hv => ?_) fun i _ v hv w hw => ?_
    · obtain ⟨i, hi, hiv⟩ := mem_neighbours.mp hv
      obtain ⟨j, hjs, hj⟩ := h.closed i hi v hiv
      have hj := hm.equation_iff.mp hj
      exact ⟨j, Finset.mem_inter.mpr ⟨Finset.mem_filter.mpr ⟨hs hjs, by simp [hj]⟩, hjs⟩, hj⟩
    · exact Option.some.inj (hv.2.symm.trans hw.2)
  have houtside : Finset.range adj.length \ s ⊆ covered adj.length (maximum adj) \ s := by
    intro i hi
    obtain ⟨hlt, his⟩ := Finset.mem_sdiff.mp hi
    have hmatched : (maximum adj).matched? i ≠ none := fun hn =>
      his (h.unmatched i (Finset.mem_range.mp hlt) hn)
    exact Finset.mem_sdiff.mpr ⟨Finset.mem_filter.mpr
      ⟨hlt, Option.isSome_iff_ne_none.mpr hmatched⟩, his⟩
  have hsplit := Finset.card_inter_add_card_sdiff (covered adj.length (maximum adj)) s
  have hrest := Finset.card_sdiff_add_card_eq_card hs
  have := Finset.card_le_card houtside
  rw [card_covered hm] at hsplit
  rw [Finset.card_range] at hrest
  omega

theorem exists_tight (adj : Adjacency ν) : ∃ s, Tight adj s := by
  obtain ⟨s, hs⟩ := certificate_maximum adj
  exact ⟨_, (hs.inter_range (valid_maximum adj)).tight Finset.inter_subset_right⟩

/-- A matching of the maximum size has all neighbours of a tight set. -/
theorem Tight.matched (h : Tight adj s) (hm : m.Valid adj) (hmax : (maximum adj).size ≤ m.size)
    (hv : v ∈ neighbours adj s) : ∃ i, m.matched? i = some v := by
  have hle := size_add_card_le hm h.subset
  have heq := Finset.eq_of_subset_of_card_le (served_subset (s := s) hm)
    (by have := h.le; omega)
  obtain ⟨i, -, hi⟩ := mem_served.mp (heq ▸ hv)
  exact ⟨i, hi⟩

/-- Together with a tight set of fewer equations the neighbours stay as few as they can be. -/
theorem Tight.union (hs : Tight adj s) (ht : Tight (adj ++ more) t) :
    Tight (adj ++ more) (s ∪ t) := by
  have hrange : Finset.range adj.length ⊆ Finset.range (adj ++ more).length := by
    rw [Finset.range_subset_range, List.length_append]
    omega
  refine ⟨Finset.union_subset (hs.subset.trans hrange) ht.subset, ?_⟩
  have hinter : s ∩ t ⊆ Finset.range adj.length := Finset.inter_subset_left.trans hs.subset
  have hbound := size_maximum_add_card_le hinter
  -- the neighbours of an intersection are counted in both summands on the right
  have hmodular : (neighbours (adj ++ more) (s ∪ t)).card + (neighbours adj (s ∩ t)).card ≤
      (neighbours adj s).card + (neighbours (adj ++ more) t).card := by
    have hsame : neighbours (adj ++ more) s = neighbours adj s := neighbours_append hs.subset
    have hboth : neighbours (adj ++ more) (s ∩ t) = neighbours adj (s ∩ t) :=
      neighbours_append hinter
    rw [neighbours_union, ← hsame, ← hboth,
      ← Finset.card_union_add_card_inter (neighbours (adj ++ more) s)]
    exact Nat.add_le_add_left (Finset.card_le_card neighbours_inter_subset) _
  have hcard := Finset.card_union_add_card_inter s t
  have hles := hs.le
  have hlet := ht.le
  omega

/-- Every variable is a neighbour of one tight set. -/
def Spanned (adj : Adjacency ν) (vs : List ν) : Prop :=
  ∃ s, Tight adj s ∧ vs.toFinset ⊆ neighbours adj s

theorem Spanned.append (h : Spanned adj vs) (more : Adjacency ν) : Spanned (adj ++ more) vs := by
  obtain ⟨s, hs, hvs⟩ := h
  obtain ⟨t, ht⟩ := exists_tight (adj ++ more)
  refine ⟨s ∪ t, hs.union ht, ?_⟩
  rw [neighbours_union, neighbours_append hs.subset]
  exact hvs.trans Finset.subset_union_left

theorem neighbours_insert_length (hs : s ⊆ Finset.range adj.length) :
    neighbours (adj ++ [vs]) (insert adj.length s) = vs.toFinset ∪ neighbours adj s := by
  rw [neighbours, Finset.biUnion_insert]
  congr 1
  · simp
  · exact neighbours_append hs

omit [DecidableEq ν] in
theorem card_insert_length (hs : s ⊆ Finset.range adj.length) :
    (insert adj.length s).card = s.card + 1 :=
  Finset.card_insert_of_notMem fun h => by simpa using hs h

omit [DecidableEq ν] in
theorem subset_range_append (hs : s ⊆ Finset.range adj.length) :
    s ⊆ Finset.range (adj ++ [vs]).length :=
  hs.trans (Finset.range_subset_range.mpr (by simp))

omit [DecidableEq ν] in
/-- A set of equations where there is one more is a set of the old ones, with it or without. -/
theorem subset_range_cases (hs : s ⊆ Finset.range (adj ++ [vs]).length) :
    s ⊆ Finset.range adj.length ∨
      ∃ t ⊆ Finset.range adj.length, s = insert adj.length t := by
  rw [List.length_append, List.length_singleton, Finset.range_add_one] at hs
  by_cases hmem : adj.length ∈ s
  · refine Or.inr ⟨s.erase adj.length, ?_, (Finset.insert_erase hmem).symm⟩
    exact Finset.subset_insert_iff.mp hs
  · exact Or.inl ((Finset.subset_insert_iff_of_notMem hmem).mp hs)

/-- One equation more lets at most one variable more be matched. -/
theorem size_maximum_append_le (adj : Adjacency ν) (vs : List ν) :
    (maximum (adj ++ [vs])).size ≤ (maximum adj).size + 1 := by
  obtain ⟨s, hs⟩ := exists_tight adj
  have hsubset : s ⊆ Finset.range (adj ++ [vs]).length := subset_range_append hs.subset
  have hbound := size_maximum_add_card_le hsubset
  rw [neighbours_append hs.subset, List.length_append, List.length_singleton] at hbound
  have := hs.le
  omega

/-- Exactly an equation over neighbours of a tight set does not let more be matched. -/
theorem size_maximum_append_le_iff :
    (maximum (adj ++ [vs])).size ≤ (maximum adj).size ↔ Spanned adj vs := by
  constructor
  · intro hsize
    obtain ⟨s, hs⟩ := exists_tight (adj ++ [vs])
    have hle := hs.le
    rw [List.length_append, List.length_singleton] at hle
    rcases subset_range_cases hs.subset with hold | ⟨t, ht, rfl⟩
    · have := size_maximum_add_card_le hold
      rw [neighbours_append hold] at hle
      omega
    · have hbound := size_maximum_add_card_le ht
      rw [neighbours_insert_length ht, card_insert_length ht] at hle
      have hsub : neighbours adj t ⊆ vs.toFinset ∪ neighbours adj t := Finset.subset_union_right
      have hunion := Finset.card_le_card hsub
      -- the new equation is in the set and its bound is met, so it brings no neighbour of its own
      have heq := Finset.eq_of_subset_of_card_le hsub (by omega)
      exact ⟨t, ⟨ht, by omega⟩, heq ▸ Finset.subset_union_left⟩
  · rintro ⟨s, hs, hvs⟩
    have hinsert : insert adj.length s ⊆ Finset.range (adj ++ [vs]).length :=
      Finset.insert_subset (by simp) (subset_range_append hs.subset)
    have hbound := size_maximum_add_card_le hinsert
    rw [neighbours_insert_length hs.subset, card_insert_length hs.subset,
      Finset.union_eq_right.mpr hvs, List.length_append, List.length_singleton] at hbound
    have := hs.le
    omega

/-- The variable of an equation in one variable is spanned. -/
theorem spanned_singleton (h : [v] ∈ adj) : Spanned adj [v] := by
  obtain ⟨i, hi, hiv⟩ := List.mem_iff_getElem.mp h
  obtain ⟨s, hs⟩ := exists_tight adj
  have hrow : adj.getD i [] = [v] := (List.getD_eq_getElem _ _ hi).trans hiv
  by_cases his : i ∈ s
  · refine ⟨s, hs, ?_⟩
    rw [List.toFinset_cons, List.toFinset_nil, insert_empty_eq, Finset.singleton_subset_iff]
    exact mem_neighbours.mpr ⟨i, his, hrow ▸ List.mem_singleton_self v⟩
  · have hneighbours : neighbours adj (insert i s) = [v].toFinset ∪ neighbours adj s := by
      rw [neighbours, Finset.biUnion_insert, hrow, neighbours]
    refine ⟨insert i s, ⟨Finset.insert_subset (by simpa using hi) hs.subset, ?_⟩,
      hneighbours ▸ Finset.subset_union_left⟩
    have hunion := Finset.card_union_le [v].toFinset (neighbours adj s)
    have hone := List.toFinset_card_le [v]
    rw [hneighbours, Finset.card_insert_of_notMem his]
    have := hs.le
    rw [List.length_singleton] at hone
    omega

/-- A matching gives different variables to different equations. -/
theorem size_maximum_le_card {us : Finset ν} (h : ∀ row ∈ adj, row.toFinset ⊆ us) :
    (maximum adj).size ≤ us.card := by
  have hbound := size_maximum_add_card_le (Finset.Subset.refl (Finset.range adj.length))
  have hsubset : neighbours adj (Finset.range adj.length) ⊆ us := by
    intro v hv
    obtain ⟨i, hi, hiv⟩ := mem_neighbours.mp hv
    have hlt := Finset.mem_range.mp hi
    rw [List.getD_eq_getElem _ _ hlt] at hiv
    exact h _ (List.getElem_mem hlt) (List.mem_toFinset.mpr hiv)
  have := Finset.card_le_card hsubset
  rw [Finset.card_range] at hbound
  omega

/-- A matching has as many pairs as it has variables. -/
theorem card_le_size_of_matched (hm : m.Valid adj) {us : Finset ν}
    (h : ∀ v ∈ us, ∃ i, m.matched? i = some v) : us.card ≤ m.size := by
  rw [← card_covered hm]
  refine Finset.card_le_card_of_forall_subsingleton (fun v i => m.matched? i = some v)
    (fun v hv => ?_) fun i _ v hv w hw => Option.some.inj (hv.2.symm.trans hw.2)
  obtain ⟨i, hi⟩ := h v hv
  exact ⟨i, Finset.mem_filter.mpr ⟨Finset.mem_range.mpr (hm.lt hi), by simp [hi]⟩, hi⟩

end Matching

end Flange

import Mathlib.Data.List.Nodup
import Mathlib.Logic.Function.Iterate
import Flange.Graph.Forest
import Flange.Proofs.Lists

/-! # Forests as partitions

A forest is a partition of its elements: each class is named by its root. Finding a root shortens
links and keeps the partition; joining elements merges their classes and no others.
-/

namespace Flange

namespace Forest

variable {f : Forest} {root rank : Nat → Nat} {n i j k : Nat}

/-- Links lead from every element of `f` to the root of its class by falling ranks, and the root
knows how many elements the class has. -/
structure Ranked (n : Nat) (root rank : Nat → Nat) (f : Forest) : Prop where
  length_parent : f.parent.length = n
  length_size : f.size.length = n
  parentOf_lt : ∀ {i}, i < n → f.parentOf i < n
  root_parentOf : ∀ i, root (f.parentOf i) = root i
  root_of_fixed : ∀ {i}, f.parentOf i = i → root i = i
  rank_parentOf : ∀ {i}, f.parentOf i ≠ i → rank (f.parentOf i) < rank i
  rank_lt : ∀ {i}, i < n → rank i < f.sizeOf (root i)
  sizeOf_root : ∀ {i}, i < n → f.sizeOf (root i) = (List.range n).countP fun k => root k = root i

theorem parentOf_of_length_le (h : f.parent.length ≤ i) : f.parentOf i = i := by
  simp [parentOf, List.getD_eq_getElem?_getD, List.getElem?_eq_none h]

theorem parentOf_set {parent size : List Nat} (hi : i < parent.length) (j k : Nat) :
    (⟨parent.set i j, size⟩ : Forest).parentOf k =
      if k = i then j else (⟨parent, size⟩ : Forest).parentOf k := by
  by_cases h : k = i
  · subst h
    simp [parentOf, List.getD_eq_getElem?_getD, hi]
  · simp [parentOf, List.getD_eq_getElem?_getD, h, Ne.symm h]

/-- A new element is a root, as what is outside of the forest was already. -/
@[simp] theorem parentOf_push (i : Nat) : f.push.parentOf i = f.parentOf i := by
  simp only [parentOf, push, List.getD_eq_getElem?_getD, List.getElem?_append]
  split
  · rfl
  · next hi =>
    rw [List.getElem?_eq_none (Nat.le_of_not_lt hi)]
    rcases hm : i - f.parent.length with _ | m
    · have : i = f.parent.length := by omega
      simp [this]
    · simp

theorem sizeOf_push_of_lt (hi : i < f.size.length) : f.push.sizeOf i = f.sizeOf i := by
  simp only [sizeOf, push, List.getD_eq_getElem?_getD]
  rw [List.getElem?_append_left hi]

theorem sizeOf_push_length : f.push.sizeOf f.size.length = 1 := by
  simp [sizeOf, push, List.getD_eq_getElem?_getD]

theorem parentOf_link {r s : Nat} (hs : s < f.parent.length) (i : Nat) :
    (f.link r s).parentOf i = if i = s then r else f.parentOf i :=
  parentOf_set hs r i

theorem sizeOf_link {r s : Nat} (hr : r < f.size.length) (i : Nat) :
    (f.link r s).sizeOf i = if i = r then f.sizeOf r + f.sizeOf s else f.sizeOf i := by
  by_cases hi : i = r
  · subst hi
    simp [sizeOf, link, List.getD_eq_getElem?_getD, hr]
  · simp [sizeOf, link, List.getD_eq_getElem?_getD, hi, Ne.symm hi]

/-! ### Partitions -/

/-- The smallest element of each class of `0, …, n - 1`. -/
def smallest (root : Nat → Nat) (n : Nat) : List Nat :=
  (List.range n).filter fun i => ∀ j < i, root j ≠ root i

/-- The classes of `0, …, n - 1` by their smallest elements, each ascending. -/
def partition (root : Nat → Nat) (n : Nat) : List (List Nat) :=
  (smallest root n).map fun i => (List.range n).filter fun k => root k = root i

theorem filter_zip_map (q : Nat → Bool) (root : Nat → Nat) : ∀ is : List Nat,
    ((is.zip (is.map root)).filter fun p => q p.2).map Prod.fst = is.filter fun i => q (root i)
  | [] => rfl
  | i :: is => by
    rw [List.map_cons, List.zip_cons_cons, List.filter_cons, List.filter_cons]
    split
    · rw [List.map_cons, filter_zip_map q root is]
    · exact filter_zip_map q root is

theorem eraseDups_map_range (root : Nat → Nat) :
    ∀ n, ((List.range n).map root).eraseDups = (smallest root n).map root
  | 0 => rfl
  | n + 1 => by
    rw [List.range_succ, List.map_append, List.eraseDups_append, eraseDups_map_range root n,
      smallest, smallest, List.range_succ, List.filter_append, List.map_append]
    congr 1
    by_cases h : ∀ j < n, root j ≠ root n
    · have hnew : ([n].map root).removeAll ((List.range n).map root) = [root n] := by
        simpa [List.removeAll] using h
      rw [hnew, List.filter_singleton, decide_eq_true h]
      rfl
    · have hold : ([n].map root).removeAll ((List.range n).map root) = [] := by
        simpa [List.removeAll] using h
      rw [hold, List.filter_singleton, decide_eq_false h]
      rfl

theorem mem_smallest : i ∈ smallest root n ↔ i < n ∧ ∀ j < i, root j ≠ root i := by
  simp [smallest]

theorem mem_partition {is : List Nat} : is ∈ partition root n ↔
    ∃ i < n, (∀ j < i, root j ≠ root i) ∧ is = (List.range n).filter fun k => root k = root i := by
  simp only [partition, List.mem_map, mem_smallest, and_assoc, eq_comm]

theorem ascending_of_mem_partition {is : List Nat} (h : is ∈ partition root n) :
    is.Pairwise (· < ·) := by
  obtain ⟨i, -, -, rfl⟩ := mem_partition.mp h
  exact List.pairwise_lt_range.filter _

/-- A class begins with its smallest element. -/
theorem head?_class (hi : i < n) (h : ∀ j < i, root j ≠ root i) :
    ((List.range n).filter fun k => root k = root i).head? = some i := by
  obtain ⟨m, rfl⟩ : ∃ m, n = i + 1 + m := ⟨n - (i + 1), by omega⟩
  have hbelow : (List.range i).filter (fun k => root k = root i) = [] := by
    simpa using h
  rw [List.range_add, List.range_succ, List.filter_append, List.filter_append, hbelow]
  simp

theorem head?_partition : (partition root n).map List.head? = (smallest root n).map some := by
  rw [partition, List.map_map]
  exact List.map_congr_left fun i hi =>
    head?_class (mem_smallest.mp hi).1 (mem_smallest.mp hi).2

theorem exists_smallest (root : Nat → Nat) (hi : i < n) :
    ∃ j ∈ smallest root n, root j = root i := by
  induction i using Nat.strong_induction_on with
  | _ i ih =>
    by_cases h : ∀ j < i, root j ≠ root i
    · exact ⟨i, mem_smallest.mpr ⟨hi, h⟩, rfl⟩
    · push Not at h
      obtain ⟨j, hj, hji⟩ := h
      obtain ⟨k, hk, hkj⟩ := ih j hj (hj.trans hi)
      exact ⟨k, hk, hkj.trans hji⟩

/-- Each element is in exactly one class. -/
theorem flatten_partition_perm (root : Nat → Nat) (n : Nat) :
    (partition root n).flatten.Perm (List.range n) := by
  have hnodup : (partition root n).flatten.Nodup := by
    rw [List.nodup_flatten]
    refine ⟨fun is his => (ascending_of_mem_partition his).imp Nat.ne_of_lt, ?_⟩
    rw [partition, List.pairwise_map]
    refine (List.pairwise_lt_range.filter _).imp_of_mem fun {i j} _ hj hij k hk hk' => ?_
    simp only [List.mem_filter, decide_eq_true_eq] at hk hk'
    exact (mem_smallest.mp hj).2 i hij (hk.2.symm.trans hk'.2)
  refine (List.perm_ext_iff_of_nodup hnodup List.nodup_range).mpr fun k => ?_
  rw [List.mem_range, List.mem_flatten]
  constructor
  · rintro ⟨is, his, hk⟩
    obtain ⟨i, -, -, rfl⟩ := mem_partition.mp his
    exact List.mem_range.mp (List.mem_filter.mp hk).1
  · intro hk
    obtain ⟨i, hi, hik⟩ := exists_smallest root hk
    exact ⟨_, List.mem_map_of_mem hi, by simp [hk, hik]⟩

/-- Elements of two classes are counted class by class. -/
theorem countP_merged {r s : Nat} (hne : r ≠ s) (is : List Nat) :
    is.countP (fun l => (if root l = s then r else root l) = r) =
      is.countP (fun l => root l = r) + is.countP fun l => root l = s := by
  induction is with
  | nil => rfl
  | cons i is ih =>
    simp only [List.countP_cons, ih]
    by_cases his : root i = s
    · simp [his, Ne.symm hne]
      omega
    · simp [his]
      omega

/-- The partition depends on nothing but which elements are in one class. -/
theorem partition_congr {root' : Nat → Nat}
    (h : ∀ i < n, ∀ j < n, root i = root j ↔ root' i = root' j) :
    partition root n = partition root' n := by
  have hs : smallest root n = smallest root' n := by
    refine List.filter_congr fun i hi => ?_
    have hi := List.mem_range.mp hi
    simp only [decide_eq_decide]
    exact forall_congr' fun j => forall_congr' fun hj => not_congr (h j (hj.trans hi) i hi)
  rw [partition, partition, hs]
  refine List.map_congr_left fun i hi => List.filter_congr fun k hk => ?_
  simp only [decide_eq_decide]
  exact h k (List.mem_range.mp hk) i (mem_smallest.mp hi).1

/-- Elements behind the others that are their own roots are classes of their own. -/
theorem partition_add (hlt : ∀ i < n, root i < n) (hfix : ∀ i, n ≤ i → root i = i) (m : Nat) :
    partition root (n + m) = partition root n ++ (List.range m).map fun k => [n + k] := by
  have hold : ∀ {k i}, i < n → root (n + k) ≠ root i := fun {k i} hi hk => by
    have := hlt i hi
    rw [hfix _ (Nat.le_add_right n k)] at hk
    omega
  have hsmallest : smallest root (n + m) = smallest root n ++ (List.range m).map (n + ·) := by
    rw [smallest, List.range_add, List.filter_append, smallest]
    congr 1
    rw [List.filter_eq_self]
    intro i hi
    obtain ⟨k, -, rfl⟩ := List.mem_map.mp hi
    rw [decide_eq_true_eq]
    intro j hj hjk
    rcases Nat.lt_or_ge j n with hjn | hjn
    · exact hold hjn hjk.symm
    · rw [hfix j hjn, hfix _ (Nat.le_add_right n k)] at hjk
      exact hj.ne hjk
  rw [partition, hsmallest, List.map_append, List.map_map, partition]
  congr 1
  · refine List.map_congr_left fun i hi => ?_
    rw [List.range_add, List.filter_append, List.append_right_eq_self, List.filter_eq_nil_iff]
    intro j hj
    obtain ⟨k, -, rfl⟩ := List.mem_map.mp hj
    simpa using hold (mem_smallest.mp hi).1
  · refine List.map_congr_left fun k hk => ?_
    have hk := List.mem_range.mp hk
    have halone : ∀ j, root j = root (n + k) ↔ j = n + k := by
      intro j
      refine ⟨fun hj => ?_, fun hj => hj ▸ rfl⟩
      rcases Nat.lt_or_ge j n with hjn | hjn
      · exact absurd hj.symm (hold hjn)
      · rwa [hfix j hjn, hfix _ (Nat.le_add_right n k)] at hj
    rw [Function.comp_apply, List.filter_congr fun j _ => decide_eq_decide.mpr (halone j),
      List.filter_eq, List.count_eq_one_of_mem List.nodup_range (List.mem_range.mpr (by omega))]
    rfl

/-- The classes that `root'` names are those that `root` names, but those of the elements `is`
have become one. -/
def Joins (root root' : Nat → Nat) (is : List Nat) : Prop :=
  ∀ k l, root' k = root' l ↔
    root k = root l ∨ (∃ a ∈ is, root k = root a) ∧ ∃ b ∈ is, root l = root b

theorem joins_singleton (root : Nat → Nat) (i : Nat) : Joins root root [i] := by
  intro k l
  simp only [List.mem_singleton, exists_eq_left]
  grind

theorem Joins.cons {root' root'' : Nat → Nat} {js : List Nat} (h : Joins root root' [i, j])
    (h' : Joins root' root'' (i :: js)) : Joins root root'' (i :: j :: js) := by
  have hpair : ∀ k l, root' k = root' l ↔ root k = root l ∨
      (root k = root i ∨ root k = root j) ∧ (root l = root i ∨ root l = root j) := by
    simpa [Joins] using h
  have htouch : ∀ k, (∃ a ∈ i :: js, root' k = root' a) ↔ ∃ a ∈ i :: j :: js, root k = root a := by
    intro k
    simp only [List.mem_cons, exists_eq_or_imp, hpair]
    grind
  have hin : ∀ {k}, root k = root i ∨ root k = root j → ∃ a ∈ i :: j :: js, root k = root a := by
    rintro k (hk | hk)
    · exact ⟨i, List.mem_cons_self, hk⟩
    · exact ⟨j, List.mem_cons_of_mem i List.mem_cons_self, hk⟩
  intro k l
  rw [h' k l, htouch, htouch, hpair, or_assoc]
  exact or_congr_right (or_iff_right_of_imp fun hkl => ⟨hin hkl.1, hin hkl.2⟩)

namespace Ranked

theorem root_of_le (h : Ranked n root rank f) (hi : n ≤ i) : root i = i :=
  h.root_of_fixed (parentOf_of_length_le (h.length_parent ▸ hi))

theorem parentOf_root (h : Ranked n root rank f) (i : Nat) : f.parentOf (root i) = root i := by
  by_cases hi : f.parentOf i = i
  · rw [h.root_of_fixed hi, hi]
  · rw [← h.root_parentOf]
    exact h.parentOf_root (f.parentOf i)
termination_by rank i
decreasing_by exact h.rank_parentOf hi

theorem root_root (h : Ranked n root rank f) (i : Nat) : root (root i) = root i :=
  h.root_of_fixed (h.parentOf_root i)

theorem exists_iterate (h : Ranked n root rank f) (i : Nat) : ∃ m, f.parentOf^[m] i = root i := by
  by_cases hi : f.parentOf i = i
  · exact ⟨0, (h.root_of_fixed hi).symm⟩
  · obtain ⟨m, hm⟩ := h.exists_iterate (f.parentOf i)
    exact ⟨m + 1, by rw [Function.iterate_succ_apply, hm, h.root_parentOf]⟩
termination_by rank i
decreasing_by exact h.rank_parentOf hi

theorem root_lt (h : Ranked n root rank f) (hi : i < n) : root i < n := by
  obtain ⟨m, hm⟩ := h.exists_iterate i
  rw [← hm]
  clear hm
  induction m generalizing i with
  | zero => exact hi
  | succ m ih => exact ih (h.parentOf_lt hi)

theorem rank_iterate (h : Ranked n root rank f) (m i : Nat) :
    rank (f.parentOf^[m] i) ≤ rank i := by
  induction m generalizing i with
  | zero => exact Nat.le_refl _
  | succ m ih =>
    rw [Function.iterate_succ_apply]
    refine (ih _).trans ?_
    by_cases hi : f.parentOf i = i
    · rw [hi]
    · exact (h.rank_parentOf hi).le

/-- The only cycles of links are those of roots to themselves. -/
theorem acyclic (h : Ranked n root rank f) {m : Nat} (hm : f.parentOf^[m + 1] i = i) :
    f.parentOf i = i := by
  by_contra hi
  have hlt := h.rank_parentOf hi
  have hle := h.rank_iterate m (f.parentOf i)
  rw [← Function.iterate_succ_apply, hm] at hle
  omega

theorem rank_lt_length (h : Ranked n root rank f) (hi : i < n) : rank i < n := by
  have hcount := List.countP_le_length (p := fun k => decide (root k = root i)) (l := List.range n)
  rw [List.length_range, ← h.sizeOf_root hi] at hcount
  exact (h.rank_lt hi).trans_le hcount

/-! ### Finding roots -/

/-- Linking an element to its grandparent keeps the classes. -/
theorem shorten (h : Ranked n root rank f) (hi : i < n) (hfix : f.parentOf i ≠ i) :
    Ranked n root rank
      { f with parent := f.parent.set i (f.parentOf (f.parentOf i)) } := by
  have hlt : i < f.parent.length := h.length_parent ▸ hi
  have hset : ∀ k, ({ f with parent := f.parent.set i (f.parentOf (f.parentOf i)) } : Forest).parentOf k
      = if k = i then f.parentOf (f.parentOf i) else f.parentOf k :=
    parentOf_set hlt (f.parentOf (f.parentOf i))
  have hrank : rank (f.parentOf (f.parentOf i)) < rank i :=
    (h.rank_iterate 1 (f.parentOf i)).trans_lt (h.rank_parentOf hfix)
  refine ⟨by simp [h.length_parent], h.length_size, fun {k} hk => ?_, fun k => ?_, fun {k} hk => ?_,
    fun {k} hk => ?_, h.rank_lt, h.sizeOf_root⟩
  · rw [hset]
    split
    · exact h.parentOf_lt (h.parentOf_lt hi)
    · exact h.parentOf_lt hk
  · rw [hset]
    split
    · next hki => rw [hki, h.root_parentOf, h.root_parentOf]
    · exact h.root_parentOf k
  · rw [hset] at hk
    split at hk
    · next hki =>
      rw [hki] at hk
      rw [hk] at hrank
      exact absurd hrank (Nat.lt_irrefl _)
    · exact h.root_of_fixed hk
  · rw [hset] at hk ⊢
    split
    · next hki => rwa [hki]
    · next hki =>
      rw [if_neg hki] at hk
      exact h.rank_parentOf hk

theorem climb {fuel : Nat} (h : Ranked n root rank f) (hi : i < n) (hfuel : rank i < fuel) :
    (f.climb fuel i).1 = root i ∧ Ranked n root rank (f.climb fuel i).2 := by
  induction fuel generalizing f i with
  | zero => omega
  | succ fuel ih =>
    rw [Forest.climb]
    split
    · next hfix => exact ⟨(h.root_of_fixed hfix).symm, h⟩
    · next hfix =>
      have hrank : rank (f.parentOf (f.parentOf i)) < rank i :=
        (h.rank_iterate 1 (f.parentOf i)).trans_lt (h.rank_parentOf hfix)
      obtain ⟨hroot, h'⟩ := ih (h.shorten hi hfix) (h.parentOf_lt (h.parentOf_lt hi)) (by omega)
      refine ⟨?_, h'⟩
      rw [hroot, h.root_parentOf, h.root_parentOf]

theorem find (h : Ranked n root rank f) (i : Nat) :
    (f.find i).1 = root i ∧ Ranked n root rank (f.find i).2 := by
  rw [Forest.find]
  rcases Nat.lt_or_ge i n with hi | hi
  · exact h.climb hi (h.length_parent ▸ h.rank_lt_length hi)
  · have hfix := parentOf_of_length_le (h.length_parent ▸ hi : f.parent.length ≤ i)
    have hclimb : f.climb f.parent.length i = (i, f) := by
      cases f.parent.length with
      | zero => rfl
      | succ m => rw [Forest.climb, if_pos hfix]
    rw [hclimb]
    exact ⟨(h.root_of_le hi).symm, h⟩

theorem findAll (h : Ranked n root rank f) (is : List Nat) :
    (f.findAll is).1 = is.map root ∧ Ranked n root rank (f.findAll is).2 := by
  induction is generalizing f with
  | nil => exact ⟨rfl, h⟩
  | cons i is ih =>
    obtain ⟨hi, h'⟩ := h.find i
    obtain ⟨his, h''⟩ := ih h'
    exact ⟨by rw [Forest.findAll, List.map_cons, ← hi, ← his], h''⟩

theorem elements_eq (h : Ranked n root rank f) : f.elements = List.range n := by
  rw [elements, h.length_parent]

theorem members (h : Ranked n root rank f) (roots : List Nat) :
    (f.members roots).1 = (List.range n).filter (fun i => roots.contains (root i)) ∧
      Ranked n root rank (f.members roots).2 := by
  obtain ⟨hall, h'⟩ := h.findAll f.elements
  refine ⟨?_, h'⟩
  change (((f.findAll f.elements).2.elements.zip (f.findAll f.elements).1).filter fun p =>
    roots.contains p.2).map Prod.fst = _
  rw [h'.elements_eq, hall, h.elements_eq, filter_zip_map]

theorem classes (h : Ranked n root rank f) :
    f.classes.1 = partition root n ∧ Ranked n root rank f.classes.2 := by
  obtain ⟨hall, h'⟩ := h.findAll f.elements
  refine ⟨?_, h'⟩
  change ((f.findAll f.elements).1.eraseDups.map fun r =>
    (((f.findAll f.elements).2.elements.zip (f.findAll f.elements).1).filter fun p =>
      p.2 == r).map Prod.fst) = _
  rw [h'.elements_eq, hall, h.elements_eq, eraseDups_map_range, List.map_map, partition]
  refine List.map_congr_left fun i _ => ?_
  exact filter_zip_map (· == root i) root (List.range n)

/-! ### Adding and joining elements -/

/-- A new element is a class of its own. -/
theorem push (h : Ranked n root rank f) :
    Ranked (n + 1) root (Function.update rank n 0) f.push := by
  have hfix : f.parentOf n = n := parentOf_of_length_le h.length_parent.le
  have hroot : root n = n := h.root_of_fixed hfix
  have hne : ∀ {i}, i < n → root i ≠ n := fun hi => (h.root_lt hi).ne
  have hold : ∀ {i}, i < n → f.push.sizeOf i = f.sizeOf i :=
    fun hi => sizeOf_push_of_lt (h.length_size ▸ hi)
  have hnew : f.push.sizeOf n = 1 := h.length_size ▸ sizeOf_push_length
  refine ⟨by simp [Forest.push, h.length_parent], by simp [Forest.push, h.length_size],
    fun {i} hi => ?_, fun i => ?_, fun {i} hi => ?_, fun {i} hi => ?_, fun {i} hi => ?_,
    fun {i} hi => ?_⟩
  · rw [parentOf_push]
    rcases Nat.lt_succ_iff_lt_or_eq.mp hi with hi | rfl
    · exact (h.parentOf_lt hi).trans (Nat.lt_succ_self n)
    · rw [hfix]; exact hi
  · rw [parentOf_push, h.root_parentOf]
  · exact h.root_of_fixed (parentOf_push i ▸ hi)
  · rw [parentOf_push] at hi ⊢
    have hin : i ≠ n := fun he => hi (he ▸ hfix)
    rw [Function.update_of_ne hin]
    have hrank := h.rank_parentOf hi
    by_cases hp : f.parentOf i = n
    · rw [hp, Function.update_self]
      omega
    · rwa [Function.update_of_ne hp]
  · rcases Nat.lt_succ_iff_lt_or_eq.mp hi with hi | rfl
    · rw [Function.update_of_ne hi.ne, hold (h.root_lt hi)]
      exact h.rank_lt hi
    · rw [Function.update_self, hroot, hnew]
      exact Nat.one_pos
  · rw [List.range_succ, List.countP_append]
    rcases Nat.lt_succ_iff_lt_or_eq.mp hi with hi | rfl
    · rw [hold (h.root_lt hi), h.sizeOf_root hi]
      simp [hroot, (hne hi).symm]
    · have hnone : (List.range i).countP (fun k => decide (root k = root i)) = 0 := by
        rw [List.countP_eq_zero]
        intro k hk
        simpa [hroot] using hne (List.mem_range.mp hk)
      rw [hnone, hroot, hnew]
      simp [hroot]

/-- Linking one root to another joins their classes. -/
theorem link {r s : Nat} (h : Ranked n root rank f) (hr : r < n) (hs : s < n)
    (hroot : root r = r) (hroot' : root s = s) (hne : r ≠ s) :
    Ranked n (fun k => if root k = s then r else root k)
      (fun k => if root k = s then rank k + f.sizeOf r else rank k) (f.link r s) := by
  have hset := parentOf_link (r := r) (h.length_parent ▸ hs : s < f.parent.length)
  have hsize := sizeOf_link (s := s) (h.length_size ▸ hr : r < f.size.length)
  have hcount : ∀ {k}, root k = k → k < n →
      f.sizeOf k = (List.range n).countP fun l => root l = k := by
    intro k hk hlt
    simpa only [hk] using h.sizeOf_root hlt
  refine ⟨by simp [Forest.link, h.length_parent], by simp [Forest.link, h.length_size],
    fun {k} hk => ?_, fun k => ?_, fun {k} hk => ?_, fun {k} hk => ?_, fun {k} hk => ?_,
    fun {k} hk => ?_⟩
  · rw [hset]
    split
    · exact hr
    · exact h.parentOf_lt hk
  · rw [hset]
    split
    · next hks => simp only [hks, hroot, hroot', if_neg hne, if_true]
    · simp only [h.root_parentOf]
  · rw [hset] at hk
    split at hk
    · next hks => exact absurd (hk.trans hks) hne
    · next hks =>
      have hk := h.root_of_fixed hk
      simp only [hk, if_neg hks]
  · rw [hset] at hk ⊢
    split
    · next hks =>
      have hlt := h.rank_lt hr
      rw [hroot] at hlt
      simp only [hks, hroot, hroot', if_neg hne, if_true]
      omega
    · next hks =>
      rw [if_neg hks] at hk
      have hlt := h.rank_parentOf hk
      simp only [h.root_parentOf]
      split <;> omega
  · have hlt := h.rank_lt hk
    rw [hsize]
    by_cases hks : root k = s
    · rw [hks] at hlt
      simp only [hks, if_true]
      omega
    · simp only [if_neg hks]
      split
      · next hkr =>
        rw [hkr] at hlt
        omega
      · exact hlt
  · rw [hsize]
    by_cases hkr : root k = s ∨ root k = r
    · have hto : (if root k = s then r else root k) = r := by
        rcases hkr with hkr | hkr <;> simp [hkr]
      rw [hto, if_pos rfl, hcount hroot hr, hcount hroot' hs, countP_merged hne]
    · rw [not_or] at hkr
      simp only [if_neg hkr.1, if_neg hkr.2]
      rw [hcount (h.root_root k) (h.root_lt hk)]
      refine List.countP_congr fun l _ => ?_
      by_cases hls : root l = s
      · simp [hls, Ne.symm hkr.1, Ne.symm hkr.2]
      · simp [hls]

theorem joins_link {r s : Nat} (h : Ranked n root rank f)
    (hrs : (r = root i ∧ s = root j) ∨ (r = root j ∧ s = root i)) :
    Joins root (fun k => if root k = s then r else root k) [i, j] := by
  have hr : root r = r := by rcases hrs with ⟨rfl, -⟩ | ⟨rfl, -⟩ <;> exact h.root_root _
  intro k l
  simp only [List.mem_cons, List.not_mem_nil, or_false, exists_eq_or_imp, exists_eq_left]
  grind

theorem union (h : Ranked n root rank f) (hi : i < n) (hj : j < n) :
    ∃ root' rank', Ranked n root' rank' (f.union i j).2 ∧ Joins root root' [i, j] := by
  obtain ⟨hri, hf⟩ := h.find i
  obtain ⟨hrj, hf'⟩ := hf.find j
  have hunion : f.union i j =
      if root i = root j then (root i, ((f.find i).2.find j).2)
      else if ((f.find i).2.find j).2.sizeOf (root i) < ((f.find i).2.find j).2.sizeOf (root j) then
        (root j, ((f.find i).2.find j).2.link (root j) (root i))
      else (root i, ((f.find i).2.find j).2.link (root i) (root j)) := by
    rw [← hri, ← hrj]
    rfl
  rw [hunion]
  split
  · next heq =>
    refine ⟨root, rank, hf', fun k l => ?_⟩
    simp only [List.mem_cons, List.not_mem_nil, or_false, exists_eq_or_imp, exists_eq_left, heq]
    grind
  · next hne =>
    split
    · exact ⟨_, _, hf'.link (h.root_lt hj) (h.root_lt hi) (h.root_root j) (h.root_root i)
        (Ne.symm hne), h.joins_link (Or.inr ⟨rfl, rfl⟩)⟩
    · exact ⟨_, _, hf'.link (h.root_lt hi) (h.root_lt hj) (h.root_root i) (h.root_root j) hne,
        h.joins_link (Or.inl ⟨rfl, rfl⟩)⟩

theorem unionAll (h : Ranked n root rank f) (hi : i < n) {js : List Nat} (hjs : ∀ j ∈ js, j < n) :
    ∃ root' rank', Ranked n root' rank' (f.unionAll i js) ∧ Joins root root' (i :: js) := by
  induction js generalizing f root rank with
  | nil => exact ⟨root, rank, h, joins_singleton root i⟩
  | cons j js ih =>
    obtain ⟨hj, hjs⟩ := List.forall_mem_cons.mp hjs
    obtain ⟨root', rank', h', hjoin⟩ := h.union hi hj
    obtain ⟨root'', rank'', h'', hjoin'⟩ := ih h' hjs
    exact ⟨root'', rank'', h'', hjoin.cons hjoin'⟩

end Ranked

end Forest

end Flange

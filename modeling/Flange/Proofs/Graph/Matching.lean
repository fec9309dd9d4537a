import Mathlib.Data.Finset.Card
import Mathlib.Data.Fintype.Card
import Mathlib.Data.List.Nodup
import Flange.Graph.Matching

/-! # Maximum matchings are maximum

Each phase that reaches a free variable makes the matching larger. A phase that reaches none leaves
a set of equations with all unmatched ones in it whose variables are all matched inside the set, so
that no matching is larger.
-/

namespace Flange

variable {ν : Type} [DecidableEq ν] {adj : Adjacency ν}

namespace Matching

theorem lookup_setEquation (v w : ν) (i : Nat) : ∀ ps : List (ν × Nat),
    (setEquation v i ps).lookup w = if w = v then some i else ps.lookup w
  | [] => by by_cases h : w = v <;> simp [setEquation, h]
  | (u, j) :: ps => by
    have ih := lookup_setEquation v w i ps
    unfold setEquation
    split
    · next h =>
      subst h
      by_cases hw : w = u
      · simp [hw]
      · have hb : (w == u) = false := beq_false_of_ne hw
        simp [List.lookup_cons, hb, hw]
    · next h =>
      by_cases hw : w = u
      · subst hw; simp [h]
      · have hb : (w == u) = false := beq_false_of_ne hw
        simp [List.lookup_cons, hb, ih]

@[simp] theorem equation?_join (m : Matching ν) (i : Nat) (v w : ν) :
    (m.join i v).equation? w = if w = v then some i else m.equation? w :=
  lookup_setEquation v w i m.ofVariable

theorem matched?_join {m : Matching ν} {i : Nat} (hi : i < m.ofEquation.size) (v : ν) (k : Nat) :
    (m.join i v).matched? k = if k = i then some v else m.matched? k := by
  simp only [matched?, join, Array.getElem?_setIfInBounds]
  by_cases h : k = i
  · subst h; simp [hi]
  · simp [h, Ne.symm h]

@[simp] theorem size_join (m : Matching ν) (i : Nat) (v : ν) :
    (m.join i v).ofEquation.size = m.ofEquation.size := by simp [join]

/-- Equations and variables agree on who is matched to whom, and only along the graph. -/
structure Valid (adj : Adjacency ν) (m : Matching ν) : Prop where
  size : m.ofEquation.size = adj.length
  equation_iff : ∀ {i v}, m.equation? v = some i ↔ m.matched? i = some v
  adjacent : ∀ {i v}, m.matched? i = some v → v ∈ adj.getD i []

theorem Valid.lt {m : Matching ν} (h : Valid adj m) {i : Nat} {v : ν}
    (hi : m.matched? i = some v) : i < adj.length := by
  by_contra hn
  rw [← h.size] at hn
  simp [matched?, Array.getElem?_eq_none (Nat.le_of_not_lt hn)] at hi

/-- A variable is matched to one equation. -/
theorem Valid.eq_of_matched {m : Matching ν} (h : Valid adj m) {i j : Nat} {v : ν}
    (hi : m.matched? i = some v) (hj : m.matched? j = some v) : i = j :=
  Option.some.inj ((h.equation_iff.mpr hi).symm.trans (h.equation_iff.mpr hj))

theorem valid_empty : Valid adj (empty adj.length) where
  size := by simp [empty]
  equation_iff := by
    intro i v
    simp [equation?, matched?, empty, Array.getElem?_replicate]
    split <;> simp
  adjacent := by
    intro i v h
    simp [matched?, empty, Array.getElem?_replicate] at h
    split at h <;> simp at h

/-- The equations that are matched. -/
def covered (n : Nat) (m : Matching ν) : Finset Nat :=
  (Finset.range n).filter fun i => (m.matched? i).isSome

/-- The set `s` has all unmatched equations in it, and its variables are matched inside it. -/
structure Certificate (adj : Adjacency ν) (m : Matching ν) (s : Finset Nat) : Prop where
  unmatched : ∀ i < adj.length, m.matched? i = none → i ∈ s
  closed : ∀ i ∈ s, ∀ v ∈ adj.getD i [], ∃ j ∈ s, m.equation? v = some j

end Matching

namespace Layers

open Matching

/-- What looking at the variables `vs` of an equation at distance `d` does. -/
structure Visited (m : Matching ν) (d : Nat) (vs : List ν) (l : Layers) (seen new : List Nat)
    (r : Layers × List Nat) : Prop where
  size : r.1.equations.size = l.equations.size
  keep : ∀ {j e}, l.at? j = some e → r.1.at? j = some e
  fresh : ∀ {j e}, r.1.at? j = some e →
    l.at? j = some e ∨ e = d + 1 ∧ j ∈ r.2 ∧ ∃ v ∈ vs, m.equation? v = some j
  free : r.1.free = l.free ∨ r.1.free = some (d + 1) ∧ ∃ v ∈ vs, m.equation? v = none
  closed : r.1.free = none → ∀ v ∈ vs, ∃ j, m.equation? v = some j ∧ (r.1.at? j).isSome
  queued : new ⊆ r.2
  nodup : (seen ++ r.2).Nodup
  reached : ∀ j ∈ seen ++ r.2, (r.1.at? j).isSome

theorem at?_set {l : Layers} {j : Nat} (hj : j < l.equations.size) (d : Option Nat) (k : Nat) :
    ({ l with equations := l.equations.setIfInBounds j d } : Layers).at? k =
      if k = j then d else l.at? k := by
  simp only [at?, Array.getElem?_setIfInBounds]
  by_cases h : k = j
  · subst h; simp [hj]
  · simp [h, Ne.symm h]

section Visited

variable {m : Matching ν} {l l₁ : Layers} {d j : Nat} {v : ν} {vs : List ν} {seen new new₁ : List Nat}
  {r : Layers × List Nat}

/-- One variable is looked at, and then the others. -/
theorem Visited.cons (h : Visited m d [v] l seen new (l₁, new₁))
    (x : Visited m d vs l₁ seen new₁ r) : Visited m d (v :: vs) l seen new r where
  size := x.size.trans h.size
  keep := fun hj => x.keep (h.keep hj)
  fresh := by
    intro k e hk
    rcases x.fresh hk with hk | ⟨he, hnew, w, hw, hwk⟩
    · rcases h.fresh hk with hk | ⟨he, hnew, w, hw, hwk⟩
      · exact Or.inl hk
      · obtain rfl := List.mem_singleton.mp hw
        exact Or.inr ⟨he, x.queued hnew, w, List.mem_cons_self, hwk⟩
    · exact Or.inr ⟨he, hnew, w, List.mem_cons_of_mem _ hw, hwk⟩
  free := by
    rcases x.free with hf | ⟨hf, w, hw, hn⟩
    · rcases h.free with hf' | ⟨hf', w, hw, hn⟩
      · exact Or.inl (hf.trans hf')
      · obtain rfl := List.mem_singleton.mp hw
        exact Or.inr ⟨hf.trans hf', w, List.mem_cons_self, hn⟩
    · exact Or.inr ⟨hf, w, List.mem_cons_of_mem _ hw, hn⟩
  closed := by
    intro hn w hw
    rcases List.mem_cons.mp hw with rfl | hw
    · have hfree : l₁.free = none := by
        rcases x.free with hf | ⟨hf, -⟩
        · exact hf.symm.trans hn
        · simp [hf] at hn
      obtain ⟨k, hk, hreached⟩ := h.closed hfree w List.mem_cons_self
      obtain ⟨e, he⟩ := Option.isSome_iff_exists.mp hreached
      exact ⟨k, hk, Option.isSome_iff_exists.mpr ⟨e, x.keep he⟩⟩
    · exact x.closed hn w hw
  queued := fun k hk => x.queued (h.queued hk)
  nodup := x.nodup
  reached := x.reached

variable (hnd : (seen ++ new).Nodup) (hr : ∀ k ∈ seen ++ new, (l.at? k).isSome)

include hnd hr

/-- A free variable changes nothing but the distance of the free variables. -/
theorem visited_free (hv : m.equation? v = none) : Visited m d [v] l seen new
    (if l.free.isNone then { l with free := some (d + 1) } else l, new) := by
  obtain ⟨l₁, hl₁⟩ : ∃ l₁, l₁ = if l.free.isNone then { l with free := some (d + 1) } else l :=
    ⟨_, rfl⟩
  have hat : l₁.at? = l.at? := by rw [hl₁]; split <;> rfl
  have hsome : l₁.free ≠ none := by rw [hl₁]; split <;> simp_all
  rw [← hl₁]
  refine ⟨by rw [hl₁]; split <;> rfl, fun h => hat ▸ h, fun h => Or.inl (hat ▸ h), ?_,
    fun h => absurd h hsome, List.Subset.refl _, hnd, fun k hk => hat ▸ hr k hk⟩
  rw [hl₁]
  split
  · exact Or.inr ⟨rfl, v, List.mem_cons_self, hv⟩
  · exact Or.inl rfl

/-- An equation that is not reached yet is reached and queued. -/
theorem visited_unreached (hv : m.equation? v = some j) (hj : j < l.equations.size)
    (hnone : l.at? j = none) : Visited m d [v] l seen new
      ({ l with equations := l.equations.setIfInBounds j (some (d + 1)) }, new ++ [j]) := by
  have hat := at?_set hj (some (d + 1))
  have hnew : j ∉ seen ++ new := fun h => by simpa [hnone] using hr j h
  refine ⟨by simp, fun {k e} hk => ?_, fun {k e} hk => ?_, Or.inl rfl, fun _ w hw => ?_,
    List.subset_append_left _ _, ?_, fun k hk => ?_⟩
  · rw [hat, if_neg]
    · exact hk
    · rintro rfl
      simp [hnone] at hk
  · rw [hat] at hk
    split at hk
    · next hkj =>
      exact Or.inr ⟨(Option.some.inj hk).symm, by simp [hkj], v, List.mem_cons_self, hkj ▸ hv⟩
    · exact Or.inl hk
  · obtain rfl := List.mem_singleton.mp hw
    exact ⟨j, hv, by simp [hat]⟩
  · rw [← List.append_assoc, List.nodup_append]
    refine ⟨hnd, List.nodup_singleton j, ?_⟩
    rintro a ha b hb rfl
    exact hnew (List.mem_singleton.mp hb ▸ ha)
  · rw [hat]
    split
    · rfl
    · next hkj => exact hr k (by simpa [hkj] using hk)

/-- An equation that is reached already changes nothing. -/
theorem visited_reached (hv : m.equation? v = some j) (hj : (l.at? j).isSome) :
    Visited m d [v] l seen new (l, new) := by
  refine ⟨rfl, fun h => h, Or.inl, Or.inl rfl, fun _ w hw => ?_, List.Subset.refl _, hnd, hr⟩
  obtain rfl := List.mem_singleton.mp hw
  exact ⟨j, hv, hj⟩

end Visited

theorem visit_visited {m : Matching ν} {n : Nat} (hm : ∀ {v j}, m.equation? v = some j → j < n)
    (d : Nat) (seen : List Nat) : ∀ (vs : List ν) (l : Layers) (new : List Nat),
      l.equations.size = n → (seen ++ new).Nodup → (∀ j ∈ seen ++ new, (l.at? j).isSome) →
        Visited m d vs l seen new (visit m d vs l new)
  | [], l, new, _, hnd, hr =>
    ⟨rfl, fun h => h, fun h => Or.inl h, Or.inl rfl, by simp, List.Subset.refl _, hnd, hr⟩
  | v :: vs, l, new, hn, hnd, hr => by
    -- the first variable is looked at by one of three steps, and what it leaves is as before
    have hrest : ∀ {l₁ new₁}, Visited m d [v] l seen new (l₁, new₁) →
        Visited m d (v :: vs) l seen new (visit m d vs l₁ new₁) := fun h =>
      h.cons (visit_visited hm d seen vs _ _ (h.size.trans hn) h.nodup h.reached)
    rw [visit]
    cases hv : m.equation? v with
    | none => exact hrest (visited_free hnd hr hv)
    | some j =>
      dsimp only
      split
      · next hj =>
        exact hrest (visited_unreached hnd hr hv (hn ▸ hm hv) (Option.isNone_iff_eq_none.mp hj))
      · next hj => exact hrest (visited_reached hnd hr hv (by simpa [Option.isSome_iff_ne_none] using hj))

/-- Distances lead back to the unmatched equations, step by step; what is no longer queued has
all its neighbours reached, as long as no free variable is. -/
structure Layered (adj : Adjacency ν) (m : Matching ν) (queue : List Nat) (l : Layers) : Prop where
  size : l.equations.size = adj.length
  start : ∀ {i}, l.at? i = some 0 ↔ i < adj.length ∧ m.matched? i = none
  step : ∀ {j d}, l.at? j = some (d + 1) →
    ∃ i, l.at? i = some d ∧ ∃ v ∈ adj.getD i [], m.equation? v = some j
  free : ∀ {f}, l.free = some f →
    ∃ i d, f = d + 1 ∧ l.at? i = some d ∧ ∃ v ∈ adj.getD i [], m.equation? v = none
  closed : l.free = none → ∀ i, (l.at? i).isSome → i ∉ queue →
    ∀ v ∈ adj.getD i [], ∃ j, m.equation? v = some j ∧ (l.at? j).isSome

theorem Layered.visit {m : Matching ν} {l : Layers} {i d : Nat} {queue seen : List Nat}
    (h : Layered adj m (i :: queue) l) (hi : l.at? i = some d) {r : Layers × List Nat}
    (x : Visited m d (adj.getD i []) l seen [] r) : Layered adj m (queue ++ r.2) r.1 where
  size := x.size.trans h.size
  start := by
    intro j
    rw [← h.start]
    constructor
    · intro hj
      rcases x.fresh hj with hj | ⟨h0, -⟩
      · exact hj
      · omega
    · exact x.keep
  step := by
    intro j e hj
    rcases x.fresh hj with hj | ⟨he, -, v, hv, hvj⟩
    · obtain ⟨k, hk, h'⟩ := h.step hj
      exact ⟨k, x.keep hk, h'⟩
    · obtain rfl : e = d := by omega
      exact ⟨i, x.keep hi, v, hv, hvj⟩
  free := by
    intro f hf
    rcases x.free with hf' | ⟨hf', h'⟩
    · obtain ⟨k, e, he, hk, h'⟩ := h.free (hf'.symm.trans hf)
      exact ⟨k, e, he, x.keep hk, h'⟩
    · exact ⟨i, d, (Option.some.inj (hf'.symm.trans hf)).symm, x.keep hi, h'⟩
  closed := by
    intro hf k hk hkq v hv
    have hf' : l.free = none := by
      rcases x.free with h' | ⟨h', -⟩
      · exact h'.symm.trans hf
      · simp [h'] at hf
    by_cases hki : k = i
    · exact x.closed hf v (hki ▸ hv)
    · obtain ⟨e, he⟩ := Option.isSome_iff_exists.mp hk
      rcases x.fresh he with he | ⟨-, hq, -⟩
      · obtain ⟨j, hj, hjs⟩ := h.closed hf' k (by simp [he])
          (by simpa [hki] using fun hq => hkq (List.mem_append_left _ hq)) v hv
        obtain ⟨c, hc⟩ := Option.isSome_iff_exists.mp hjs
        exact ⟨j, hj, by rw [x.keep hc]; rfl⟩
      · exact absurd (List.mem_append_right _ hq) hkq

theorem search_layered {m : Matching ν} (hm : m.Valid adj) : ∀ (fuel : Nat) (queue seen : List Nat)
    (l : Layers), Layered adj m queue l → (seen ++ queue).Nodup →
      (∀ j ∈ seen ++ queue, (l.at? j).isSome) → adj.length < seen.length + fuel →
        Layered adj m [] (search adj m fuel queue l)
  | 0, queue, seen, l, h, hnd, hr, hf => by
    have hsub : seen ++ queue ⊆ List.range adj.length := by
      intro j hj
      obtain ⟨d, hd⟩ := Option.isSome_iff_exists.mp (hr j hj)
      by_contra hn
      rw [List.mem_range, ← h.size] at hn
      simp [at?, Array.getElem?_eq_none (Nat.le_of_not_lt hn)] at hd
    have hle := (hnd.subperm hsub).length_le
    simp at hle
    omega
  | fuel + 1, [], seen, l, h, _, _, _ => by simpa [search] using h
  | fuel + 1, i :: queue, seen, l, h, hnd, hr, hf => by
    have hperm : (seen ++ i :: queue).Perm ((seen ++ [i]) ++ queue) := by simp
    obtain ⟨d, hd⟩ := Option.isSome_iff_exists.mp (hr i (by simp))
    have hnd' : ((seen ++ [i]) ++ queue).Nodup := hperm.nodup_iff.mp hnd
    have hr' : ∀ j ∈ (seen ++ [i]) ++ queue, (l.at? j).isSome :=
      fun j hj => hr j (hperm.mem_iff.mpr hj)
    rw [search, hd]
    simp only
    split
    · next hc =>
      have x := visit_visited (fun hv => hm.lt (hm.equation_iff.mp hv)) d ((seen ++ [i]) ++ queue)
        (adj.getD i []) l [] h.size (by simpa using hnd') (by simpa using hr')
      exact search_layered hm fuel _ (seen ++ [i]) _ (h.visit hd x)
        (by simpa using x.nodup) (by simpa using x.reached) (by simp; omega)
    · next hc =>
      refine search_layered hm fuel queue (seen ++ [i]) l ⟨h.size, h.start, h.step, h.free, ?_⟩
        hnd' hr' (by simp; omega)
      intro hfree
      simp [hfree] at hc

theorem layered_of {m : Matching ν} (hm : m.Valid adj) : Layered adj m [] (of adj m) := by
  obtain ⟨start, hstart⟩ : ∃ start, start =
    (List.range adj.length).filter fun i => (m.matched? i).isNone := ⟨_, rfl⟩
  obtain ⟨l, hl⟩ : ∃ l : Layers, l = ⟨((List.range adj.length).map fun i =>
    if (m.matched? i).isNone then some 0 else none).toArray, none⟩ := ⟨_, rfl⟩
  have hat : ∀ i d, l.at? i = some d ↔ i < adj.length ∧ m.matched? i = none ∧ d = 0 := by
    intro i d
    by_cases hi : i < adj.length
    · by_cases hmi : m.matched? i = none
      · simpa [hl, at?, hi, hmi] using eq_comm
      · simp [hl, at?, hi, hmi]
    · simp [hl, at?, hi]
  have hmem : ∀ i, i ∈ start ↔ i < adj.length ∧ m.matched? i = none := by simp [hstart]
  have h : Layered adj m start l := by
    refine ⟨by simp [hl], by simp [hat], by simp [hat], by simp [hl], ?_⟩
    intro _ i hi hn
    obtain ⟨d, hd⟩ := Option.isSome_iff_exists.mp hi
    exact absurd ((hmem i).mpr ⟨((hat i d).mp hd).1, ((hat i d).mp hd).2.1⟩) hn
  have hof : of adj m = search adj m (adj.length + 1) start l := by rw [hl, hstart]; rfl
  rw [hof]
  refine search_layered hm _ start [] l h ?_ ?_ (by simp)
  · rw [List.nil_append, hstart]
    exact List.nodup_range.filter _
  · intro i hi
    rw [(hat i 0).mpr ⟨((hmem i).mp hi).1, ((hmem i).mp hi).2, rfl⟩]
    rfl

/-- Below a distance that occurs all distances occur, so that it is less than the number of
equations. -/
theorem Layered.lt {m : Matching ν} {l : Layers} (h : Layered adj m [] l) {i d : Nat}
    (hi : l.at? i = some d) : d < adj.length := by
  have hbelow : ∀ k, ∀ i, l.at? i = some k → ∀ e ≤ k, ∃ j, l.at? j = some e := by
    intro k
    induction k with
    | zero => intro i hi e he; exact ⟨i, by rw [hi, Nat.le_zero.mp he]⟩
    | succ k ih =>
      intro i hi e he
      rcases Nat.lt_or_eq_of_le he with he | rfl
      · obtain ⟨j, hj, -⟩ := h.step hi
        exact ih j hj e (by omega)
      · exact ⟨i, hi⟩
  choose f hf using fun e : Fin (d + 1) => hbelow d i hi e (by omega)
  have hlt : ∀ e, f e < adj.length := by
    intro e
    by_contra hn
    rw [← h.size] at hn
    have := hf e
    simp [at?, Array.getElem?_eq_none (Nat.le_of_not_lt hn)] at this
  have hinj : Function.Injective fun e => (⟨f e, hlt e⟩ : Fin adj.length) := by
    intro a b hab
    have hab' : f a = f b := congrArg Fin.val hab
    have := (hf a).symm.trans (hab' ▸ hf b)
    exact Fin.ext (Option.some.inj this)
  have := Fintype.card_le_of_injective _ hinj
  simp at this
  omega

end Layers

namespace Matching

/-- Layers of distances `D` from which some equations have been taken out. -/
structure Fading (D : Nat → Option Nat) (n : Nat) (F : Option Nat) (l : Layers) : Prop where
  size : l.equations.size = n
  free : l.free = F
  below : ∀ {i d}, l.at? i = some d → D i = some d

/-- The variable `v` leads no further from distance `d`. -/
def Blocked (D : Nat → Option Nat) (F : Option Nat) (m : Matching ν) (d : Nat) (l : Layers)
    (v : ν) : Prop :=
  (m.equation? v = none → F ≠ some (d + 1)) ∧
    ∀ j, m.equation? v = some j → D j = some (d + 1) → l.at? j = none

/-- The equations taken out lead no further. -/
def Sealed (adj : Adjacency ν) (D : Nat → Option Nat) (F : Option Nat) (m : Matching ν)
    (l : Layers) : Prop :=
  ∀ i d, D i = some d → l.at? i = none → ∀ v ∈ adj.getD i [], Blocked D F m d l v

/-- Equation `i` has been given another variable, or its first one; the variable that it had
before is left to the caller. -/
structure Shifted (adj : Adjacency ν) (D : Nat → Option Nat) (i : Nat) (m t : Matching ν) :
    Prop where
  size : t.ofEquation.size = m.ofEquation.size
  equation : ∀ {k v}, t.matched? k = some v → t.equation? v = some k ∧ m.matched? i ≠ some v
  matched : ∀ {k v}, t.equation? v = some k → m.matched? i ≠ some v → t.matched? k = some v
  stale : ∀ {v}, m.matched? i = some v → t.equation? v = some i
  adjacent : ∀ {k v}, t.matched? k = some v → v ∈ adj.getD k []
  covers : ∀ {k}, (t.matched? k).isSome ↔ k = i ∨ (m.matched? k).isSome
  keep : ∀ {k e d}, D i = some d → D k = some e → e ≤ d → k ≠ i → t.matched? k = m.matched? k

/-- What is known of the result of following the layers from equation `i`. -/
def Followed (adj : Adjacency ν) (D : Nat → Option Nat) (n : Nat) (F : Option Nat) (i : Nat)
    (l : Layers) (m : Matching ν) : Bool × Layers × Matching ν → Prop
  | (true, l', t) => Fading D n F l' ∧ Shifted adj D i m t
  | (false, l', t) => Fading D n F l' ∧ t = m ∧ l'.at? i = none ∧
      (∀ k, l.at? k = none → l'.at? k = none) ∧ (Sealed adj D F m l → Sealed adj D F m l')

variable {D : Nat → Option Nat} {F : Option Nat} {m t : Matching ν} {l l' : Layers} {i d : Nat}

theorem Blocked.mono {v : ν} (h : Blocked D F m d l v)
    (hl : ∀ k, l.at? k = none → l'.at? k = none) : Blocked D F m d l' v :=
  ⟨h.1, fun j hj hD => hl j (h.2 j hj hD)⟩

/-- The variable `v` belongs to no equation, and equation `i` has the one that it had. -/
structure Released (adj : Adjacency ν) (D : Nat → Option Nat) (i : Nat) (m t : Matching ν) (v : ν) :
    Prop where
  size : t.ofEquation.size = m.ofEquation.size
  own : t.matched? i = m.matched? i
  unmatched : ∀ k, t.matched? k ≠ some v
  equation : ∀ {k w}, t.matched? k = some w → t.equation? w = some k
  matched : ∀ {k w}, t.equation? w = some k → w ≠ v → t.matched? k = some w
  adjacent : ∀ {k w}, t.matched? k = some w → w ∈ adj.getD k []
  covers : ∀ {k}, k ≠ i → ((t.matched? k).isSome ↔ (m.matched? k).isSome)
  keep : ∀ {k e d}, D i = some d → D k = some e → e ≤ d → k ≠ i → t.matched? k = m.matched? k

/-- A variable that belongs to no equation can be given to equation `i`. -/
theorem Released.join {v : ν} (h : Released adj D i m t v) (hi : i < m.ofEquation.size)
    (hv : v ∈ adj.getD i []) : Shifted adj D i m (t.join i v) := by
  have hjoin := matched?_join (h.size ▸ hi : i < t.ofEquation.size) v
  have hother : ∀ {w}, m.matched? i = some w → w ≠ v :=
    fun hw hwv => h.unmatched i (h.own.trans (hwv ▸ hw))
  constructor
  · rw [size_join, h.size]
  · intro k w hk
    rw [hjoin] at hk
    rw [equation?_join]
    by_cases hki : k = i
    · obtain rfl : v = w := by simpa [hki] using hk
      exact ⟨by simp [hki], fun hw => hother hw rfl⟩
    · rw [if_neg hki] at hk
      have hwv : w ≠ v := fun e => h.unmatched k (e ▸ hk)
      refine ⟨by rw [if_neg hwv]; exact h.equation hk, fun hw => hki ?_⟩
      exact Option.some.inj ((h.equation hk).symm.trans (h.equation (h.own.trans hw)))
  · intro k w hk hw
    rw [equation?_join] at hk
    rw [hjoin]
    by_cases hwv : w = v
    · obtain rfl : i = k := by simpa [hwv] using hk
      simp [hwv]
    · rw [if_neg hwv] at hk
      have hkw := h.matched hk hwv
      have hki : k ≠ i := fun hki => hw (h.own ▸ hki ▸ hkw)
      rw [if_neg hki]
      exact hkw
  · intro w hw
    rw [equation?_join, if_neg (hother hw)]
    exact h.equation (h.own.trans hw)
  · intro k w hk
    rw [hjoin] at hk
    by_cases hki : k = i
    · obtain rfl : v = w := by simpa [hki] using hk
      exact hki ▸ hv
    · exact h.adjacent (by simpa [hki] using hk)
  · intro k
    rw [hjoin]
    by_cases hki : k = i
    · simp [hki]
    · simp [hki, h.covers hki]
  · intro k e d hd hk he hki
    rw [hjoin, if_neg hki]
    exact h.keep hd hk he hki

theorem released_free (hm : m.Valid adj) {v : ν} (hfree : m.equation? v = none) :
    Released adj D i m m v where
  size := rfl
  own := rfl
  unmatched := fun k hk => by simp [hm.equation_iff.mpr hk] at hfree
  equation := hm.equation_iff.mpr
  matched := fun hw _ => hm.equation_iff.mp hw
  adjacent := hm.adjacent
  covers := fun _ => Iff.rfl
  keep := fun _ _ _ _ => rfl

/-- An equation one layer further that has another variable has released the one that it had. -/
theorem Shifted.released (hm : m.Valid adj) {v : ν} {j : Nat} (x : Shifted adj D j m t)
    (hj : m.equation? v = some j) (hDi : D i = some d) (hDj : D j = some (d + 1)) :
    Released adj D i m t v := by
  have hnext : ∀ {k e}, D k = some e → e ≤ d → k ≠ j := by
    rintro k e hk he rfl
    have := Option.some.inj (hk.symm.trans hDj)
    omega
  have hmj : m.matched? j = some v := hm.equation_iff.mp hj
  constructor
  · exact x.size
  · exact x.keep hDj hDi (by omega) (hnext hDi le_rfl)
  · exact fun k hk => (x.equation hk).2 hmj
  · exact fun hk => (x.equation hk).1
  · exact fun hk hwv => x.matched hk fun hw => hwv (Option.some.inj (hw.symm.trans hmj))
  · exact x.adjacent
  · intro k hki
    rw [x.covers]
    refine or_iff_right_of_imp fun hkj => ?_
    rw [hkj, hmj]
    rfl
  · intro k e c hc hk he hki
    obtain rfl : c = d := Option.some.inj (hc.symm.trans hDi)
    exact x.keep hDj hk (by omega) (hnext hk he)

omit [DecidableEq ν] in
theorem Fading.take (h : Fading D adj.length F l) (hi : i < adj.length) :
    Fading D adj.length F { l with equations := l.equations.setIfInBounds i none } := by
  refine ⟨by simpa using h.size, h.free, fun {k e} hk => ?_⟩
  rw [Layers.at?_set (h.size ▸ hi)] at hk
  by_cases hki : k = i
  · simp [hki] at hk
  · exact h.below (by simpa [hki] using hk)

theorem tryNeighbours_followed (hm : m.Valid adj) (hi : i < adj.length) (hDi : D i = some d)
    {deeper : Nat → Layers × Matching ν → Bool × Layers × Matching ν}
    (hdeeper : ∀ j l, D j = some (d + 1) → Fading D adj.length F l →
      Followed adj D adj.length F j l m (deeper j (l, m))) :
    ∀ (vs : List ν) (l : Layers), vs ⊆ adj.getD i [] → Fading D adj.length F l →
      (∀ v ∈ adj.getD i [], v ∈ vs ∨ Blocked D F m d l v) →
        Followed adj D adj.length F i l m (tryNeighbours deeper i d vs (l, m))
  | [], l, _, hl, hb => by
    have hat := Layers.at?_set (hl.size ▸ hi : i < l.equations.size) none
    have hmono : ∀ k, l.at? k = none →
        ({ l with equations := l.equations.setIfInBounds i none } : Layers).at? k = none := by
      intro k hk; rw [hat]; split <;> simp [hk]
    refine ⟨hl.take hi, rfl, by simp [hat], hmono, fun hs k e hk hn v hv => ?_⟩
    by_cases hki : k = i
    · have hed : e = d := Option.some.inj (hk.symm.trans (hki ▸ hDi))
      exact hed ▸ ((hb v (hki ▸ hv)).resolve_left (by simp)).mono hmono
    · rw [hat, if_neg hki] at hn
      exact (hs k e hk hn v hv).mono hmono
  | v :: vs, l, hvs, hl, hb => by
    have hv := hvs (List.mem_cons_self ..)
    have hvs' : vs ⊆ adj.getD i [] := fun w hw => hvs (List.mem_cons_of_mem _ hw)
    -- once `v` is blocked the rest is tried
    have hrest : ∀ l', Fading D adj.length F l' → (∀ k, l.at? k = none → l'.at? k = none) →
        Blocked D F m d l' v → Followed adj D adj.length F i l' m
          (tryNeighbours deeper i d vs (l', m)) := by
      intro l' hl' hmono hbv
      refine tryNeighbours_followed hm hi hDi hdeeper vs l' hvs' hl' fun w hw => ?_
      rcases hb w hw with hw' | hw'
      · rcases List.mem_cons.mp hw' with rfl | hw'
        · exact Or.inr hbv
        · exact Or.inl hw'
      · exact Or.inr (hw'.mono hmono)
    rw [tryNeighbours]
    rcases heq : m.equation? v with _ | j
    · simp only
      split
      · exact ⟨hl, (released_free hm heq).join (hm.size ▸ hi) hv⟩
      · next hf => exact hrest l hl (fun _ h => h) ⟨fun _ => hl.free ▸ hf, by simp [heq]⟩
    · simp only
      split
      · next hj =>
        have hDj := hl.below hj
        have ho := hdeeper j l hDj hl
        rcases hd : deeper j (l, m) with ⟨_ | _, l', t⟩ <;> rw [hd] at ho
        · obtain ⟨hl', rfl, hjn, hmono, hseal⟩ := ho
          have h := hrest l' hl' hmono ⟨by simp [heq], fun k hk _ => by
            rw [← Option.some.inj (heq.symm.trans hk)]; exact hjn⟩
          simp only
          rcases hr : tryNeighbours deeper i d vs (l', t) with ⟨_ | _, l'', u⟩ <;> rw [hr] at h
          · obtain ⟨h₁, h₂, h₃, h₄, h₅⟩ := h
            exact ⟨h₁, h₂, h₃, fun k hk => h₄ k (hmono k hk), fun hs => h₅ (hseal hs)⟩
          · exact h
        · exact ⟨ho.1, (ho.2.released hm heq hDi hDj).join (hm.size ▸ hi) hv⟩
      · next hj =>
        refine hrest l hl (fun _ h => h) ⟨by simp [heq], fun k hk hDk => ?_⟩
        rw [← Option.some.inj (heq.symm.trans hk)] at hDk ⊢
        by_contra hn
        obtain ⟨e, he⟩ := Option.ne_none_iff_exists'.mp hn
        exact hj (he.trans ((hl.below he).symm.trans hDk))

theorem extend_followed (hm : m.Valid adj) (hD : ∀ {i d}, D i = some d → d < adj.length)
    (hlt : ∀ {i d}, D i = some d → i < adj.length) :
    ∀ (fuel i : Nat) (l : Layers), Fading D adj.length F l →
      (∀ d, l.at? i = some d → adj.length < fuel + d) →
        Followed adj D adj.length F i l m (extend adj fuel i (l, m))
  | 0, i, l, hl, hf => by
    have hn : l.at? i = none := by
      by_contra hn
      obtain ⟨d, hd⟩ := Option.ne_none_iff_exists'.mp hn
      have := hf d hd
      have := hD (hl.below hd)
      omega
    exact ⟨hl, rfl, hn, fun _ h => h, fun h => h⟩
  | fuel + 1, i, l, hl, hf => by
    rw [extend]
    rcases hd : l.at? i with _ | d
    · exact ⟨hl, rfl, hd, fun _ h => h, fun h => h⟩
    · have hDi := hl.below hd
      have := hf d hd
      refine tryNeighbours_followed hm (hlt hDi) hDi ?_ _ l (List.Subset.refl _) hl
        fun v hv => Or.inl hv
      intro j l' hDj hl'
      refine extend_followed hm hD hlt fuel j l' hl' fun e he => ?_
      have := Option.some.inj ((hl'.below he).symm.trans hDj)
      omega

theorem card_covered (h : m.Valid adj) : (covered adj.length m).card = m.size := by
  have hcount : ∀ (xs : List (Option ν)) (k : Nat),
      ((xs.zipIdx k).filterMap fun p => p.1.map fun v => (p.2, v)).length =
        xs.countP Option.isSome := by
    intro xs
    induction xs with
    | nil => intro k; rfl
    | cons x xs ih =>
      intro k
      cases x <;> simp [List.zipIdx_cons, ih]
  have hmatched : (List.range adj.length).map m.matched? = m.ofEquation.toList := by
    apply List.ext_getElem
    · simp [h.size]
    · intro i h₁ h₂
      simp only [List.length_map, List.length_range] at h₁
      simp [matched?, h.size, h₁]
  have hpairs : m.pairs.length = m.ofEquation.toList.countP Option.isSome := hcount _ 0
  rw [size, hpairs, ← hmatched, List.countP_map, covered, Finset.card, Finset.filter_val,
    Finset.range_val, ← Multiset.countP_eq_card_filter]
  simp [Multiset.range, Function.comp_def]

theorem size_le_length (h : m.Valid adj) : m.size ≤ adj.length := by
  rw [← card_covered h]
  exact (Finset.card_filter_le _ _).trans (by simp)

/-- A matching of as many pairs as there are equations leaves none out. -/
theorem Valid.exists_matched (h : m.Valid adj) (hs : adj.length ≤ m.size) {i : Nat}
    (hi : i < adj.length) : ∃ v, m.matched? i = some v := by
  rw [← card_covered h] at hs
  have hcov : covered adj.length m = Finset.range adj.length :=
    Finset.eq_of_subset_of_card_le (Finset.filter_subset _ _) (by simpa using hs)
  have hmem : i ∈ covered adj.length m := hcov ▸ Finset.mem_range.mpr hi
  exact Option.isSome_iff_exists.mp (Finset.mem_filter.mp hmem).2

omit [DecidableEq ν] in
theorem mem_pairs {i : Nat} {v : ν} : (i, v) ∈ m.pairs ↔ m.matched? i = some v := by
  simp only [pairs, List.mem_filterMap, matched?, Option.join_eq_some_iff]
  constructor
  · rintro ⟨⟨o, j⟩, ho, hp⟩
    obtain ⟨w, rfl, heq⟩ := Option.map_eq_some_iff.mp hp
    obtain ⟨rfl, rfl⟩ := Prod.mk.inj heq
    simpa using List.mem_zipIdx_iff_getElem?.mp ho
  · intro h
    exact ⟨(some v, i), List.mem_zipIdx_iff_getElem?.mpr (by simpa using h), rfl⟩

theorem Shifted.valid (x : Shifted adj D i m t) (h : m.Valid adj) (hi : m.matched? i = none) :
    t.Valid adj :=
  ⟨x.size.trans h.size, fun {_ _} => ⟨fun hv => x.matched hv (by simp [hi]),
    fun hv => (x.equation hv).1⟩, x.adjacent⟩

theorem Shifted.size_lt (x : Shifted adj D i m t) (h : m.Valid adj) (hi : m.matched? i = none)
    (hlt : i < adj.length) : m.size < t.size := by
  rw [← card_covered h, ← card_covered (x.valid h hi)]
  apply Finset.card_lt_card
  rw [Finset.ssubset_iff_of_subset]
  · exact ⟨i, by simp [covered, x.covers, hlt], by simp [covered, hi]⟩
  · intro k hk
    simp only [covered, Finset.mem_filter] at hk ⊢
    exact ⟨hk.1, x.covers.mpr (Or.inr hk.2)⟩

/-- Either the matching has grown, or it is the same and the equations tried lead nowhere. -/
structure Phase (adj : Adjacency ν) (D : Nat → Option Nat) (F : Option Nat) (m : Matching ν)
    (tried : List Nat) (s : Layers × Matching ν) : Prop where
  valid : s.2.Valid adj
  fading : Fading D adj.length F s.1
  grown : m.size < s.2.size ∨
    s.2 = m ∧ Sealed adj D F m s.1 ∧ ∀ k ∈ tried, m.matched? k = none → s.1.at? k = none

theorem Phase.step (hD : ∀ {i d}, D i = some d → d < adj.length)
    (hlt : ∀ {i d}, D i = some d → i < adj.length) {tried : List Nat} {s : Layers × Matching ν}
    (h : Phase adj D F m tried s) (hi : i < adj.length) :
    Phase adj D F m (tried ++ [i])
      (if (s.2.matched? i).isNone then (extend adj (adj.length + 1) i s).2 else s) := by
  obtain ⟨l, t⟩ := s
  split
  · next hn =>
    have hn' : t.matched? i = none := by simpa using hn
    have ho := extend_followed (F := F) h.valid hD hlt (adj.length + 1) i l h.fading
      (fun d _ => by omega)
    rcases he : extend adj (adj.length + 1) i (l, t) with ⟨_ | _, l', u⟩ <;> rw [he] at ho
    · obtain ⟨hf, rfl, hni, hmono, hseal⟩ := ho
      refine ⟨h.valid, hf, h.grown.imp_right ?_⟩
      rintro ⟨rfl, hs, ht⟩
      refine ⟨rfl, hseal hs, fun k hk hkn => ?_⟩
      rcases List.mem_append.mp hk with hk | hk
      · exact hmono k (ht k hk hkn)
      · rw [List.mem_singleton.mp hk]; exact hni
    · have hgrow := ho.2.size_lt h.valid hn' hi
      refine ⟨ho.2.valid h.valid hn', ho.1, Or.inl ?_⟩
      rcases h.grown with hg | ⟨rfl, -⟩
      · exact hg.trans hgrow
      · exact hgrow
  · next hn =>
    refine ⟨h.valid, h.fading, h.grown.imp_right ?_⟩
    rintro ⟨rfl, hs, ht⟩
    refine ⟨rfl, hs, fun k hk hkn => ?_⟩
    rcases List.mem_append.mp hk with hk | hk
    · exact ht k hk hkn
    · rw [List.mem_singleton.mp hk] at hkn
      simp [hkn] at hn

theorem phase_phase (hD : ∀ {i d}, D i = some d → d < adj.length)
    (hlt : ∀ {i d}, D i = some d → i < adj.length) : ∀ (is tried : List Nat)
    (s : Layers × Matching ν), (∀ i ∈ is, i < adj.length) → Phase adj D F m tried s →
      Phase adj D F m (tried ++ is) (is.foldl (fun s i =>
        if (s.2.matched? i).isNone then (extend adj (adj.length + 1) i s).2 else s) s)
  | [], tried, s, _, h => by simpa using h
  | i :: is, tried, s, his, h => by
    have := phase_phase hD hlt is (tried ++ [i]) _ (fun k hk => his k (List.mem_cons_of_mem _ hk))
      (h.step hD hlt (his i (List.mem_cons_self ..)))
    simpa using this

/-- If every unmatched equation leads nowhere, no free variable was reached. -/
theorem not_sealed {f : Nat} (h : Layers.Layered adj m [] l) (hf : l.free = some f)
    (hs : Sealed adj l.at? l.free m l')
    (hstart : ∀ i < adj.length, m.matched? i = none → l'.at? i = none) : False := by
  have hdead : ∀ d i, l.at? i = some d → l'.at? i = none := by
    intro d
    induction d with
    | zero => intro i hi; exact hstart i (h.start.mp hi).1 (h.start.mp hi).2
    | succ d ih =>
      intro j hj
      obtain ⟨i, hi, v, hv, hvj⟩ := h.step hj
      exact (hs i d hi (ih i hi) v hv).2 j hvj hj
  obtain ⟨i, d, rfl, hi, v, hv, hvf⟩ := h.free hf
  exact (hs i d hi (hdead d i hi) v hv).1 hvf hf

/-- A phase that reaches a free variable makes the matching larger. -/
theorem phase_grows {f : Nat} (hm : m.Valid adj) (h : Layers.Layered adj m [] l)
    (hf : l.free = some f) : (phase adj l m).Valid adj ∧ m.size < (phase adj l m).size := by
  have hlt : ∀ {i d}, l.at? i = some d → i < adj.length := by
    intro i d hi
    by_contra hn
    rw [← h.size] at hn
    simp [Layers.at?, Array.getElem?_eq_none (Nat.le_of_not_lt hn)] at hi
  have hp := phase_phase h.lt hlt (List.range adj.length) [] (l, m) (by simp)
    ⟨hm, ⟨h.size, rfl, fun h => h⟩, Or.inr ⟨rfl, fun i d hi hn => by simp [hi] at hn, by simp⟩⟩
  refine ⟨hp.valid, hp.grown.resolve_right ?_⟩
  rintro ⟨-, hs, ht⟩
  exact not_sealed h hf hs fun i hi => ht i (by simpa using hi)

/-- What the last layers reach when they reach no free variable. -/
theorem certificate_of_free (h : Layers.Layered adj m [] l) (hf : l.free = none) :
    Certificate adj m ((Finset.range adj.length).filter fun i => (l.at? i).isSome) where
  unmatched := by
    intro i hi hm
    simp [hi, h.start.mpr ⟨hi, hm⟩]
  closed := by
    intro i hi v hv
    obtain ⟨j, hj, hjs⟩ := h.closed hf i (Finset.mem_filter.mp hi).2 (by simp) v hv
    refine ⟨j, ?_, hj⟩
    have hlt : j < adj.length := by
      by_contra hn
      rw [← h.size] at hn
      simp [Layers.at?, Array.getElem?_eq_none (Nat.le_of_not_lt hn)] at hjs
    simp [hlt, hjs]

theorem phases_certificate : ∀ (fuel : Nat) (m : Matching ν), m.Valid adj →
    adj.length < fuel + m.size →
      (phases adj fuel m).Valid adj ∧ ∃ s, Certificate adj (phases adj fuel m) s
  | 0, m, hm, hf => by have := size_le_length hm; omega
  | fuel + 1, m, hm, hf => by
    have h := Layers.layered_of hm
    rw [phases]
    rcases hfree : (Layers.of adj m).free with _ | f
    · exact ⟨hm, _, certificate_of_free h hfree⟩
    · obtain ⟨hv, hlt⟩ := phase_grows hm h hfree
      simpa using phases_certificate fuel _ hv (by omega)

theorem valid_maximum (adj : Adjacency ν) : (maximum adj).Valid adj :=
  (phases_certificate _ _ valid_empty (by omega)).1

theorem certificate_maximum (adj : Adjacency ν) : ∃ s, Certificate adj (maximum adj) s :=
  (phases_certificate _ _ valid_empty (by omega)).2

/-- Different equations are given different neighbours. -/
structure Along (adj : Adjacency ν) (f : Nat → Option ν) : Prop where
  adjacent : ∀ {i v}, f i = some v → v ∈ adj.getD i []
  injective : ∀ {i j v}, f i = some v → f j = some v → i = j

/-- No choice of different neighbours serves more equations than the maximum matching. -/
theorem card_le_size_maximum {f : Nat → Option ν} (hf : Along adj f) :
    ((Finset.range adj.length).filter fun i => (f i).isSome).card ≤ (maximum adj).size := by
  have hm := valid_maximum adj
  obtain ⟨s, hs⟩ := certificate_maximum adj
  -- equations in `s` lend the place of the equation that has their variable, the others their own
  have hplace : ∀ i, ∃ j, i < adj.length → (f i).isSome →
      (i ∈ s → j ∈ s ∧ (maximum adj).matched? j = f i) ∧
      (i ∉ s → j = i) ∧ j ∈ covered adj.length (maximum adj) := by
    intro i
    by_cases his : i ∈ s
    · rcases hv : f i with _ | v
      · exact ⟨0, by simp⟩
      · obtain ⟨j, hjs, hj⟩ := hs.closed i his v (hf.adjacent hv)
        have hjm := hm.equation_iff.mp hj
        exact ⟨j, fun _ _ => ⟨fun _ => ⟨hjs, hjm⟩, fun h => absurd his h, by
          simp [covered, hjm, hm.lt hjm]⟩⟩
    · refine ⟨i, fun hi _ => ⟨fun h => absurd h his, fun _ => rfl, ?_⟩⟩
      have : (maximum adj).matched? i ≠ none := fun h => his (hs.unmatched i hi h)
      simp [covered, hi, Option.isSome_iff_ne_none, this]
  choose g hg using hplace
  rw [← card_covered hm]
  refine Finset.card_le_card_of_injOn g (fun i hi => ?_) fun i hi j hj hij => ?_
  · have hi := Finset.mem_filter.mp hi
    exact (hg i (by simpa using hi.1) hi.2).2.2
  · have hi := Finset.mem_filter.mp hi
    have hj := Finset.mem_filter.mp hj
    have hgi := hg i (by simpa using hi.1) hi.2
    have hgj := hg j (by simpa using hj.1) hj.2
    by_cases his : i ∈ s <;> by_cases hjs : j ∈ s
    · obtain ⟨v, hv⟩ := Option.isSome_iff_exists.mp hi.2
      have hvj := (hgj.1 hjs).2.symm.trans (hij ▸ (hgi.1 his).2)
      exact hf.injective hv (hvj.trans hv)
    · exact absurd (hgj.2.1 hjs ▸ hij ▸ (hgi.1 his).1) hjs
    · exact absurd (hgi.2.1 his ▸ hij ▸ (hgj.1 hjs).1) his
    · rw [← hgi.2.1 his, hij, hgj.2.1 hjs]

end Matching

end Flange

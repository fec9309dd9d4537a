import Mathlib.Data.List.Nodup
import Mathlib.Data.List.Perm.Subperm
import Flange.Graph.Augment

/-! # The search for an augmenting path

A search that succeeds adds its equation to the matching and keeps the others. A search that fails
leaves the matching alone; its colours form a closed set with one equation more than variables.
-/

namespace Flange

namespace Search

@[simp] theorem assigned_colourVariable (s : Search) (j k : Nat) :
    (s.colourVariable j).assigned k = s.assigned k := rfl

@[simp] theorem assign_colourVariable (s : Search) (j : Nat) :
    (s.colourVariable j).assign = s.assign := rfl

@[simp] theorem assign_colourEquation (s : Search) (i : Nat) :
    (s.colourEquation i).assign = s.assign := by
  unfold colourEquation; split <;> rfl

@[simp] theorem redVariables_colourEquation (s : Search) (i : Nat) :
    (s.colourEquation i).redVariables = s.redVariables := by
  unfold colourEquation; split <;> rfl

@[simp] theorem assigned_colourEquation (s : Search) (i : Nat) :
    (s.colourEquation i).assigned = s.assigned := by
  funext j; simp [assigned]

theorem redEquations_colourEquation {s : Search} {i : Nat} (h : i ∉ s.redEquations) :
    (s.colourEquation i).redEquations = s.redEquations ++ [i] := by
  simp [colourEquation, h]

theorem assigned_give {s : Search} {j : Nat} (hj : j < s.assign.length) (i k : Nat) :
    (s.give j i).assigned k = if k = j then some i else s.assigned k := by
  simp only [assigned, give, List.getElem?_set]
  by_cases h : j = k
  · subst h; simp [hj]
  · simp [h, Ne.symm h]

@[simp] theorem length_give (s : Search) (j i : Nat) :
    (s.give j i).assign.length = s.assign.length := by simp [give]

end Search

/-- The variables in use are matched to different equations, and the root to none. -/
structure RootFree (used : Nat → Prop) (root : Nat) (a : Assignment) : Prop where
  injective : ∀ {j k e}, used j → used k → (a[j]?).join = some e → (a[k]?).join = some e → j = k
  free : ∀ {j}, used j → (a[j]?).join ≠ some root

/-- The colours of a search: the root, and for every coloured variable its equation. Equations
still to be coloured are pending. -/
structure Coloured (used : Nat → Prop) (root : Nat) (pending : List Nat) (s : Search) : Prop where
  nodup : s.redVariables.Nodup
  used : ∀ {j}, j ∈ s.redVariables → used j ∧ j < s.assign.length
  equations : (s.redEquations ++ pending).map some = some root :: s.redVariables.map s.assigned

namespace Coloured

open Search

variable {used : Nat → Prop} {root : Nat} {s : Search}

theorem red_cases {pending : List Nat} (c : Coloured used root pending s) {e : Nat}
    (he : e ∈ s.redEquations ++ pending) :
    e = root ∨ ∃ j ∈ s.redVariables, s.assigned j = some e := by
  have h : some e ∈ (s.redEquations ++ pending).map some := List.mem_map_of_mem he
  rw [c.equations] at h
  rcases List.mem_cons.mp h with h | h
  · exact Or.inl (Option.some.inj h)
  · obtain ⟨j, hj, hje⟩ := List.mem_map.mp h
    exact Or.inr ⟨j, hj, hje⟩

theorem assigned_of_red {pending : List Nat} (c : Coloured used root pending s) {j : Nat}
    (hj : j ∈ s.redVariables) : ∃ e ∈ s.redEquations ++ pending, s.assigned j = some e := by
  have h : s.assigned j ∈ (s.redEquations ++ pending).map some := by
    rw [c.equations]
    exact List.mem_cons_of_mem _ (List.mem_map_of_mem hj)
  obtain ⟨e, he, hje⟩ := List.mem_map.mp h
  exact ⟨e, he, hje.symm⟩

/-- A variable that is matched to a coloured equation is coloured. -/
theorem red_of_assigned {pending : List Nat} (c : Coloured used root pending s)
    (r : RootFree used root s.assign) {j e : Nat} (hj : used j) (hje : s.assigned j = some e)
    (he : e ∈ s.redEquations ++ pending) : j ∈ s.redVariables := by
  rcases c.red_cases he with rfl | ⟨k, hk, hke⟩
  · exact absurd hje (r.free hj)
  · exact r.injective (c.used hk).1 hj hke hje ▸ hk

theorem nodup_equations {pending : List Nat} (c : Coloured used root pending s)
    (r : RootFree used root s.assign) : (s.redEquations ++ pending).Nodup := by
  apply List.Nodup.of_map some
  rw [c.equations, List.nodup_cons]
  constructor
  · intro h
    obtain ⟨j, hj, hje⟩ := List.mem_map.mp h
    exact r.free (c.used hj).1 hje
  · refine c.nodup.map_on fun j hj k hk h => ?_
    obtain ⟨e, _, he⟩ := c.assigned_of_red hj
    exact r.injective (c.used hj).1 (c.used hk).1 he (h.symm.trans he)

theorem length_le {pending : List Nat} (c : Coloured used root pending s) :
    s.redVariables.length ≤ s.assign.length := by
  have h : s.redVariables ⊆ List.range s.assign.length :=
    fun j hj => List.mem_range.mpr (c.used hj).2
  simpa using (c.nodup.subperm h).length_le

theorem colour_pending {i : Nat} (c : Coloured used root [i] s)
    (r : RootFree used root s.assign) : Coloured used root [] (s.colourEquation i) := by
  have hi : i ∉ s.redEquations := by
    have h := c.nodup_equations r
    rw [List.nodup_append] at h
    exact fun hm => h.2.2 i hm i (by simp) rfl
  constructor
  · simpa using c.nodup
  · intro j hj
    simpa using c.used (by simpa using hj)
  · rw [redEquations_colourEquation hi]
    simpa using c.equations

theorem colour_variable (c : Coloured used root [] s) {j e : Nat} (hj : j ∉ s.redVariables)
    (hu : used j ∧ j < s.assign.length) (he : s.assigned j = some e) :
    Coloured used root [e] (s.colourVariable j) := by
  constructor
  · simpa [colourVariable, List.nodup_append] using ⟨c.nodup, fun k hk h => hj (h ▸ hk)⟩
  · intro k hk
    rcases List.mem_append.mp hk with h | h
    · exact c.used h
    · rw [List.mem_singleton.mp h]; exact hu
  · have h := c.equations
    simp only [List.append_nil] at h
    simp [colourVariable, h, assigned, ← he]

theorem card (c : Coloured used root [] s) :
    s.redEquations.length = s.redVariables.length + 1 := by
  have h := congrArg List.length c.equations
  simpa using h

end Coloured

/-- What a failed search from an equation adds to the colours. -/
structure Exhausted (adj : Nat → List Nat) (used : Nat → Prop) (root : Nat) (s t : Search) :
    Prop where
  assign : t.assign = s.assign
  coloured : Coloured used root [] t
  equations : s.redEquations ⊆ t.redEquations
  vars : s.redVariables ⊆ t.redVariables
  closed : ∀ {e}, e ∈ t.redEquations → e ∉ s.redEquations → ∀ j ∈ adj e, j ∈ t.redVariables

/-- What a successful search for equation `i` does to the matching. The variable that `i` had
before, if any, is left to the caller. -/
structure Extended (adj : Nat → List Nat) (used : Nat → Prop) (i : Nat) (s t : Search) :
    Prop where
  length : t.assign.length = s.assign.length
  red : ∀ {j}, j ∈ s.redVariables → t.assigned j = s.assigned j
  other : ∀ {j}, ¬ used j → t.assigned j = s.assigned j
  adjacent : ∀ {j e}, t.assigned j = some e → s.assigned j = some e ∨ j ∈ adj e
  injective : ∀ {j k e}, used j → used k → s.assigned j ≠ some i → s.assigned k ≠ some i →
    t.assigned j = some e → t.assigned k = some e → j = k
  covers : ∀ {e}, (∃ j, used j ∧ s.assigned j ≠ some i ∧ t.assigned j = some e) ↔
    e = i ∨ ∃ j, used j ∧ s.assigned j = some e

namespace Search

variable {adj : Nat → List Nat} {used : Nat → Prop} {root : Nat}

theorem extended_free {s : Search} {i j : Nat} (hj : used j ∧ j < s.assign.length)
    (hadj : j ∈ adj i) (hfree : s.assigned j = none) (hred : j ∉ s.redVariables)
    (r : RootFree used root s.assign) : Extended adj used i s (s.give j i) := by
  have hset := assigned_give hj.2 i
  constructor
  · exact length_give s j i
  · intro k hk
    rw [hset, if_neg (fun h : k = j => hred (h ▸ hk))]
  · intro k hk
    rw [hset, if_neg (fun h : k = j => hk (h ▸ hj.1))]
  · intro k e hk
    rw [hset] at hk
    split at hk
    · next h => exact Or.inr (by rw [h, ← Option.some.inj hk]; exact hadj)
    · exact Or.inl hk
  · intro k l e hk hl hki hli hke hle
    rw [hset] at hke hle
    split at hke <;> split at hle
    · next h h' => exact h.trans h'.symm
    · exact absurd (hle.trans hke.symm) hli
    · exact absurd (hke.trans hle.symm) hki
    · exact r.injective hk hl hke hle
  · intro e
    constructor
    · rintro ⟨k, hk, -, hke⟩
      rw [hset] at hke
      split at hke
      · exact Or.inl (Option.some.inj hke).symm
      · exact Or.inr ⟨k, hk, hke⟩
    · intro h
      by_cases he : e = i
      · exact ⟨j, hj.1, by simp [hfree], by simp [hset, he]⟩
      · obtain ⟨k, hk, hke⟩ := h.resolve_left he
        have hkj : k ≠ j := fun h => by simp [h, hfree] at hke
        exact ⟨k, hk, by simp [hke, he], by rw [hset, if_neg hkj, hke]⟩

/-- A variable that was freed for its equation elsewhere can be given to another one. -/
theorem extended_give {s t : Search} {i j e : Nat} (hj : used j ∧ j < s.assign.length)
    (hadj : j ∈ adj i) (he : s.assigned j = some e) (hred : j ∉ s.redVariables)
    (r : RootFree used root s.assign) (c : Coloured used root [] s) (hi : i ∈ s.redEquations)
    (x : Extended adj used e (s.colourVariable j) t) : Extended adj used i s (t.give j i) := by
  have hset := assigned_give (x.length ▸ hj.2 : j < t.assign.length) i
  have hother : ∀ {k}, used k → k ≠ j → s.assigned k ≠ some e :=
    fun hk hkj h => hkj (r.injective hk hj.1 h he)
  -- the variable of `i`, if it has one, is coloured and so left in place
  have hparent : ∀ {k}, used k → s.assigned k = some i → k ∈ s.redVariables :=
    fun hk hki => c.red_of_assigned r hk hki (by simpa using hi)
  have hkeep : ∀ {k}, k ∈ s.redVariables → t.assigned k = s.assigned k :=
    fun hk => x.red (List.mem_append_left _ hk)
  have hie : i ≠ e := fun h => hred (hparent hj.1 (h ▸ he))
  constructor
  · rw [length_give]; exact x.length
  · intro k hk
    rw [hset, if_neg (fun h : k = j => hred (h ▸ hk)), hkeep hk]
  · intro k hk
    rw [hset, if_neg (fun h : k = j => hk (h ▸ hj.1))]
    exact x.other hk
  · intro k f hk
    rw [hset] at hk
    split at hk
    · next h => exact Or.inr (by rw [h, ← Option.some.inj hk]; exact hadj)
    · exact x.adjacent hk
  · have hnew : ∀ {k}, used k → k ≠ j → t.assigned k = some i → s.assigned k = some i := by
      intro k hk hkj hki
      rcases x.covers.mp ⟨k, hk, hother hk hkj, hki⟩ with h | ⟨p, hp, hpi⟩
      · exact absurd h hie
      · have hpj : p ≠ j := fun h => hred (h ▸ hparent hp hpi)
        have hpt : t.assigned p = some i := (hkeep (hparent hp hpi)).trans hpi
        exact x.injective hk hp (hother hk hkj) (hother hp hpj) hki hpt ▸ hpi
    intro k l f hk hl hki hli hkf hlf
    rw [hset] at hkf hlf
    split at hkf <;> split at hlf
    · next h h' => exact h.trans h'.symm
    · next hlj => exact absurd (hnew hl hlj (hlf.trans hkf.symm)) hli
    · next hkj _ => exact absurd (hnew hk hkj (hkf.trans hlf.symm)) hki
    · next hkj hlj => exact x.injective hk hl (hother hk hkj) (hother hl hlj) hkf hlf
  · intro f
    constructor
    · rintro ⟨k, hk, -, hkf⟩
      rw [hset] at hkf
      split at hkf
      · exact Or.inl (Option.some.inj hkf).symm
      · next hkj =>
        rcases x.covers.mp ⟨k, hk, hother hk hkj, hkf⟩ with h | h
        · exact Or.inr ⟨j, hj.1, h ▸ he⟩
        · exact Or.inr h
    · intro h
      by_cases hf : f = i
      · exact ⟨j, hj.1, by simp [he, Ne.symm hie], by simp [hset, hf]⟩
      · obtain ⟨k, hk, hke, hkf⟩ := x.covers.mpr (Or.inr (h.resolve_left hf))
        have hkj : k ≠ j := fun h => hke (h ▸ he)
        refine ⟨k, hk, fun hki => hf ?_, by rw [hset, if_neg hkj, hkf]⟩
        have hkt := (hkeep (hparent hk hki)).trans hki
        exact Option.some.inj (hkf.symm.trans hkt)

end Search

variable {adj : Nat → List Nat} {used : Nat → Prop} {root i : Nat} {s t u : Search}

theorem Search.assigned_congr (h : t.assign = s.assign) : t.assigned = s.assigned := by
  funext j
  rw [Search.assigned, h, Search.assigned]

/-- A search that goes on from more colours leaves at least as much in place. -/
theorem Extended.mono (x : Extended adj used i t u) (ha : t.assign = s.assign)
    (hv : s.redVariables ⊆ t.redVariables) : Extended adj used i s u := by
  have hs := Search.assigned_congr ha
  constructor
  · rw [x.length, ha]
  · intro j hj; rw [x.red (hv hj), hs]
  · intro j hj; rw [x.other hj, hs]
  · intro j e h; exact hs ▸ x.adjacent h
  · intro j k e hj hk hji hki; exact x.injective hj hk (hs ▸ hji) (hs ▸ hki)
  · intro e; exact hs ▸ x.covers

theorem Exhausted.refl (c : Coloured used root [] s) : Exhausted adj used root s s :=
  ⟨rfl, c, List.Subset.refl _, List.Subset.refl _, fun he hn => absurd he hn⟩

theorem Exhausted.trans (x : Exhausted adj used root s t) (y : Exhausted adj used root t u) :
    Exhausted adj used root s u where
  assign := y.assign.trans x.assign
  coloured := y.coloured
  equations := List.Subset.trans x.equations y.equations
  vars := List.Subset.trans x.vars y.vars
  closed := by
    intro e he hes j hj
    by_cases het : e ∈ t.redEquations
    · exact y.vars (x.closed het hes j hj)
    · exact y.closed he het j hj

/-- The equation of a coloured variable is coloured. -/
theorem Exhausted.assigned_of_red (x : Exhausted adj used root s t) {j : Nat}
    (hj : j ∈ t.redVariables) : ∃ e ∈ t.redEquations, s.assigned j = some e := by
  obtain ⟨e, he, hje⟩ := x.coloured.assigned_of_red hj
  exact ⟨e, by simpa using he, Search.assigned_congr x.assign ▸ hje⟩

/-- A coloured equation is the root or that of a coloured variable. -/
theorem Exhausted.red_cases (x : Exhausted adj used root s t) {e : Nat} (he : e ∈ t.redEquations) :
    e = root ∨ ∃ j ∈ t.redVariables, s.assigned j = some e :=
  Search.assigned_congr x.assign ▸ x.coloured.red_cases (by simpa using he)

/-- An equation that is matched to a variable that is not coloured is not coloured. -/
theorem Exhausted.not_red_of_assigned (x : Exhausted adj used root s t)
    (r : RootFree used root s.assign) {j e : Nat} (hj : used j) (hred : j ∉ t.redVariables)
    (hje : s.assigned j = some e) : e ∉ t.redEquations := fun he =>
  hred (x.coloured.red_of_assigned (x.assign ▸ r) hj (Search.assigned_congr x.assign ▸ hje)
    (by simpa using he))

/-- Colouring a variable before the search changes nothing else. -/
theorem Exhausted.of_colourVariable {j : Nat} (x : Exhausted adj used root (s.colourVariable j) t) :
    Exhausted adj used root s t ∧ j ∈ t.redVariables :=
  ⟨⟨x.assign, x.coloured, x.equations, fun _ hk => x.vars (List.mem_append_left _ hk), x.closed⟩,
    x.vars (by simp [Search.colourVariable])⟩

/-- Colouring an equation is made good by colouring all of its variables. -/
theorem Exhausted.of_colourEquation (x : Exhausted adj used root (s.colourEquation i) t)
    (h : ∀ j ∈ adj i, j ∈ t.redVariables) : Exhausted adj used root s t := by
  refine ⟨by simpa using x.assign, x.coloured, fun e he => x.equations ?_,
    by simpa using x.vars, ?_⟩
  · unfold Search.colourEquation; split <;> simp [he]
  · intro e he hes
    by_cases hei : e = i
    · exact hei ▸ h
    · refine x.closed he fun hm => hes ?_
      unfold Search.colourEquation at hm
      split at hm <;> simp_all

namespace Search

/-- What is known of the result of a search for equation `i`. -/
def Outcome (adj : Nat → List Nat) (used : Nat → Prop) (root i : Nat) (s : Search) :
    Bool × Search → Prop
  | (true, t) => Extended adj used i s t
  | (false, t) => Exhausted adj used root s t ∧ i ∈ t.redEquations

/-- What is known when the variables `js` of equation `i` have been tried. -/
def Tried (adj : Nat → List Nat) (used : Nat → Prop) (root i : Nat) (js : List Nat) (s : Search) :
    Bool × Search → Prop
  | (true, t) => Extended adj used i s t
  | (false, t) => Exhausted adj used root s t ∧ ∀ j ∈ js, j ∈ t.redVariables

theorem Tried.after {j : Nat} {js : List Nat} {r : Bool × Search}
    (x : Exhausted adj used root s t) (hj : j ∈ t.redVariables)
    (h : Tried adj used root i js t r) : Tried adj used root i (j :: js) s r := by
  rcases r with ⟨_ | _, u⟩
  · refine ⟨x.trans h.1, fun k hk => ?_⟩
    rcases List.mem_cons.mp hk with rfl | hk
    · exact h.1.vars hj
    · exact h.2 k hk
  · exact Extended.mono h x.assign x.vars

variable {n fuel : Nat}

theorem reassign_tried {deeper : Nat → Search → Bool × Search}
    (hadj : ∀ e, ∀ j ∈ adj e, used j ∧ j < n)
    (hdeeper : ∀ e s, s.assign.length = n → RootFree used root s.assign →
      Coloured used root [e] s → n < fuel + s.redVariables.length →
        Outcome adj used root e s (deeper e s)) :
    ∀ (js : List Nat) (s : Search), js ⊆ adj i → (∀ j ∈ js, s.assigned j ≠ none) →
      s.assign.length = n → RootFree used root s.assign → Coloured used root [] s →
      i ∈ s.redEquations → n < fuel + (s.redVariables.length + 1) →
        Tried adj used root i js s (reassign deeper i js s)
  | [], s, _, _, _, _, c, _, _ => ⟨.refl c, by simp⟩
  | j :: js, s, hjs, hfull, hn, r, c, hi, hf => by
    have hj := hjs (List.mem_cons_self ..)
    have hjs' : js ⊆ adj i := fun k hk => hjs (List.mem_cons_of_mem _ hk)
    rw [reassign]
    by_cases hred : j ∈ s.redVariables
    · rw [if_pos (by simpa using hred)]
      exact (reassign_tried hadj hdeeper js s hjs' (fun k hk => hfull k (List.mem_cons_of_mem _ hk))
        hn r c hi hf).after (.refl c) hred
    · rw [if_neg (by simpa using hred)]
      obtain ⟨e, he⟩ := Option.ne_none_iff_exists'.mp (hfull j (List.mem_cons_self ..))
      have hu : used j ∧ j < s.assign.length := hn ▸ hadj i j hj
      have hc := c.colour_variable hred hu he
      have ho := hdeeper e (s.colourVariable j) hn r hc (by simpa [colourVariable] using hf)
      simp only [he]
      rcases hd : deeper e (s.colourVariable j) with ⟨_ | _, t⟩ <;> rw [hd] at ho
      · have ⟨hx, hjt⟩ := ho.1.of_colourVariable
        have hs := assigned_congr hx.assign
        have hle := (c.nodup.subperm hx.vars).length_le
        exact (reassign_tried hadj hdeeper js t hjs'
          (fun k hk => hs ▸ hfull k (List.mem_cons_of_mem _ hk)) (hx.assign ▸ hn)
          (hx.assign ▸ r) hx.coloured (hx.equations hi) (by omega)).after hx hjt
      · exact extended_give hu hj he hred r c hi ho

theorem augmentFrom_outcome (hadj : ∀ e, ∀ j ∈ adj e, used j ∧ j < n) :
    ∀ (fuel i : Nat) (s : Search), s.assign.length = n → RootFree used root s.assign →
      Coloured used root [i] s → n < fuel + s.redVariables.length →
        Outcome adj used root i s (augmentFrom adj fuel i s)
  | 0, i, s, hn, _, c, hf => by have := c.length_le; omega
  | fuel + 1, i, s, hn, r, c, hf => by
    have hc := c.colour_pending r
    have hi : i ∈ (s.colourEquation i).redEquations := by
      unfold colourEquation; split <;> simp_all
    have hv : s.redVariables ⊆ (s.colourEquation i).redVariables := by simp
    rw [augmentFrom]
    rcases hfind : (adj i).find? fun j => ((s.colourEquation i).assigned j).isNone with _ | j
    · have hfull : ∀ j ∈ adj i, (s.colourEquation i).assigned j ≠ none := by
        simpa using hfind
      have h := reassign_tried hadj (augmentFrom_outcome hadj fuel) (adj i) (s.colourEquation i)
        (List.Subset.refl _) hfull (by simpa) (by simpa) hc hi (by simp; omega)
      simp only
      rcases hr : reassign (augmentFrom adj fuel) i (adj i) (s.colourEquation i) with ⟨_ | _, t⟩ <;>
        rw [hr] at h
      · exact ⟨h.1.of_colourEquation h.2, h.1.equations hi⟩
      · exact Extended.mono h (by simp) hv
    · have hj := List.mem_of_find?_eq_some hfind
      have hfree : s.assigned j = none := by simpa using List.find?_some hfind
      have hred : j ∉ s.redVariables := fun h => by
        obtain ⟨e, -, he⟩ := c.assigned_of_red h
        simp [hfree] at he
      exact Extended.mono (t := s.colourEquation i)
        (extended_free (by simpa [hn] using hadj i j hj) hj (by simpa) (by simpa) (by simpa))
        (by simp) hv

end Search

variable {a : Assignment}

/-- A search from an unmatched equation extends the matching or ends in a closed set of colours. -/
theorem augment_outcome (hadj : ∀ e, ∀ j ∈ adj e, used j ∧ j < a.length)
    (r : RootFree used i a) :
    Search.Outcome adj used i i ⟨a, [], []⟩ (augment adj a i) :=
  Search.augmentFrom_outcome hadj _ _ _ rfl r ⟨.nil, by simp, rfl⟩ (by simp)

end Flange

import Mathlib.Combinatorics.Hall.Basic
import Mathlib.Logic.Relation
import Flange.Proofs.Graph.Augment

/-! # Alternating paths

The search for an augmenting path comes to an end, and it finds one whenever there is one. Otherwise
it has coloured the equations that alternating paths reach. They have one variable too few, but
without any one of them they can be matched.
-/

namespace Flange

/-! ### Paths -/

/-- A variable of equation `e` is assigned to equation `f`. -/
def Leads (adj : Nat → List Nat) (a : Assignment) (e f : Nat) : Prop :=
  ∃ j ∈ adj e, (a[j]?).join = some f

/-- Alternating paths from equation `i` end at equation `e`. -/
def Reaches (adj : Nat → List Nat) (a : Assignment) : Nat → Nat → Prop :=
  Relation.ReflTransGen (Leads adj a)

/-- An alternating path from equation `i` ends at a free variable. -/
def Augmentable (adj : Nat → List Nat) (a : Assignment) (i : Nat) : Prop :=
  ∃ e, Reaches adj a i e ∧ ∃ j ∈ adj e, (a[j]?).join = none

/-- The variables in use are assigned to equations that contain them, and different ones to
different equations. -/
structure Matches (adj : Nat → List Nat) (used : Nat → Prop) (a : Assignment) : Prop where
  adjacent : ∀ {j e}, used j → (a[j]?).join = some e → j ∈ adj e
  injective : ∀ {j k e}, used j → used k → (a[j]?).join = some e → (a[k]?).join = some e → j = k

/-- A variable in use is assigned to equation `e`. -/
def IsMatched (used : Nat → Prop) (a : Assignment) (e : Nat) : Prop :=
  ∃ j, used j ∧ (a[j]?).join = some e

variable {adj : Nat → List Nat} {used : Nat → Prop} {a : Assignment} {i j k e : Nat}
  {js : List Nat} {s t : Search} {r r' : Bool × Search}

theorem Augmentable.of_leads (hleads : Leads adj a i k) (h : Augmentable adj a k) :
    Augmentable adj a i := by
  obtain ⟨e, hreach, hfree⟩ := h
  exact ⟨e, .head hleads hreach, hfree⟩

theorem Matches.rootFree (h : Matches adj used a) (hi : ¬ IsMatched used a i) : RootFree used i a :=
  ⟨h.injective, fun hu hj => hi ⟨_, hu, hj⟩⟩

/-- Equations that are covered, but for `i`, have enough variables, unless they are closed: then
they hold all that is reached from `i`. -/
theorem Matches.card_le (h : Matches adj used a) {T : Finset Nat}
    (hcovered : ∀ e ∈ T, e ≠ i → IsMatched used a e) (hout : ∃ e, Reaches adj a i e ∧ e ∉ T) :
    T.card ≤ (T.biUnion fun e => (adj e).toFinset).card := by
  choose! g hg using hcovered
  have hvalue : ∀ e ∈ T.erase i, used (g e) ∧ (a[g e]?).join = some e := fun e he =>
    hg e (Finset.mem_of_mem_erase he) (Finset.ne_of_mem_erase he)
  have hsub : (T.erase i).image g ⊆ T.biUnion fun e => (adj e).toFinset := by
    refine Finset.image_subset_iff.mpr fun e he => Finset.mem_biUnion.mpr ⟨e, ?_, ?_⟩
    · exact Finset.mem_of_mem_erase he
    · exact List.mem_toFinset.mpr (h.adjacent (hvalue e he).1 (hvalue e he).2)
  have hcard : ((T.erase i).image g).card = (T.erase i).card := by
    refine Finset.card_image_of_injOn fun e he f hf heq => ?_
    have hf := (hvalue f hf).2
    exact Option.some.inj ((hvalue e he).2.symm.trans (heq ▸ hf))
  by_contra hlt
  have hle := Finset.card_le_card hsub
  have hpred := Finset.pred_card_le_card_erase (s := T) (a := i)
  -- the variables are too few, so each of them is assigned to an equation in `T`
  have heq := Finset.eq_of_subset_of_card_le hsub (by omega)
  have hclosed : ∀ {e}, Reaches adj a i e → e ∈ T := by
    intro e hreach
    induction hreach with
    | refl =>
      by_contra hi
      rw [Finset.erase_eq_of_notMem hi] at hcard hsub
      have := Finset.card_le_card hsub
      omega
    | @tail e f _ hleads he =>
      obtain ⟨j, hj, hjf⟩ := hleads
      have hmem : j ∈ T.biUnion fun e => (adj e).toFinset :=
        Finset.mem_biUnion.mpr ⟨e, he, List.mem_toFinset.mpr hj⟩
      rw [← heq] at hmem
      obtain ⟨e', he', rfl⟩ := Finset.mem_image.mp hmem
      obtain rfl := Option.some.inj (hjf.symm.trans (hvalue e' he').2)
      exact Finset.mem_of_mem_erase he'
  obtain ⟨e, hreach, he⟩ := hout
  exact he (hclosed hreach)

/-- Equations that are covered, but for `i`, can all be matched, unless they hold all that is
reached from `i`. -/
theorem Matches.exists_injective (h : Matches adj used a) {S : Finset Nat}
    (hcovered : ∀ e ∈ S, e ≠ i → IsMatched used a e) (hout : ∃ e, Reaches adj a i e ∧ e ∉ S) :
    ∃ f : S → Nat, Function.Injective f ∧ ∀ e : S, f e ∈ adj e := by
  have hall : ∀ T : Finset S, T.card ≤ (T.biUnion fun e => (adj e).toFinset).card := by
    intro T
    have hmem : ∀ e ∈ T.image Subtype.val, e ∈ S := fun e he => by
      obtain ⟨f, -, rfl⟩ := Finset.mem_image.mp he
      exact f.2
    have hcard := h.card_le (T := T.image Subtype.val) (fun e he => hcovered e (hmem e he))
      (hout.imp fun e he => ⟨he.1, fun hT => he.2 (hmem e hT)⟩)
    rwa [Finset.card_image_of_injective _ Subtype.val_injective, Finset.image_biUnion] at hcard
  obtain ⟨f, hinj, hf⟩ := (Finset.all_card_le_biUnion_card_iff_exists_injective
    fun e : S => (adj e).toFinset).mp hall
  exact ⟨f, hinj, fun e => List.mem_toFinset.mp (hf e)⟩

namespace Search

/-! ### The course of a search -/

/-- What a search has to do. -/
inductive Task
  /-- find a path from an equation -/
  | path (i : Nat)
  /-- free one of the variables for an equation -/
  | free (i : Nat) (js : List Nat)

/-- The equation for which a task is done. -/
def Task.equation : Task → Nat
  | path i | free i _ => i

/-- The variables that a task frees are those of its equation. -/
def Task.Fits (adj : Nat → List Nat) : Task → Prop
  | path _ => True
  | free i js => js ⊆ adj i

/-- A task that starts in one state of the search ends with a result. No bound is set on how deep
the search goes. -/
inductive Ends (adj : Nat → List Nat) : Task → Search → Bool × Search → Prop
  | found {i j : Nat} {s : Search} : ((adj i).find? fun j => (s.assigned j).isNone) = some j →
      Ends adj (.path i) s (true, (s.colourEquation i).give j i)
  | assigned {i : Nat} {s : Search} {r : Bool × Search} :
      ((adj i).find? fun j => (s.assigned j).isNone) = none →
      Ends adj (.free i (adj i)) (s.colourEquation i) r → Ends adj (.path i) s r
  | exhausted {i : Nat} {s : Search} : Ends adj (.free i []) s (false, s)
  | red {i j : Nat} {js : List Nat} {s : Search} {r : Bool × Search} : j ∈ s.redVariables →
      Ends adj (.free i js) s r → Ends adj (.free i (j :: js)) s r
  | freed {i j k : Nat} {js : List Nat} {s t : Search} : j ∉ s.redVariables →
      s.assigned j = some k → Ends adj (.path k) (s.colourVariable j) (true, t) →
      Ends adj (.free i (j :: js)) s (true, t.give j i)
  | kept {i j k : Nat} {js : List Nat} {s t : Search} {r : Bool × Search} : j ∉ s.redVariables →
      s.assigned j = some k → Ends adj (.path k) (s.colourVariable j) (false, t) →
      Ends adj (.free i js) t r → Ends adj (.free i (j :: js)) s r

theorem Ends.unique {task : Task} (h : Ends adj task s r) (h' : Ends adj task s r') : r = r' := by
  induction h generalizing r' with
  | found hfind =>
    cases h' with
    | found hfind' => rw [Option.some.inj (hfind.symm.trans hfind')]
    | assigned hfind' => simp [hfind] at hfind'
  | assigned hfind _ ih =>
    cases h' with
    | found hfind' => simp [hfind] at hfind'
    | assigned _ h' => exact ih h'
  | exhausted =>
    cases h'
    rfl
  | red hred _ ih =>
    cases h' with
    | red _ h' => exact ih h'
    | freed hred' | kept hred' => exact absurd hred hred'
  | freed hred hj _ ih =>
    cases h' with
    | red hred' => exact absurd hred' hred
    | freed _ hj' h' =>
      obtain rfl := Option.some.inj (hj.symm.trans hj')
      rw [(Prod.mk.inj (ih h')).2]
    | kept _ hj' h' =>
      obtain rfl := Option.some.inj (hj.symm.trans hj')
      exact absurd (Prod.mk.inj (ih h')).1 (by simp)
  | kept hred hj _ _ ih ih' =>
    cases h' with
    | red hred' => exact absurd hred' hred
    | freed _ hj' h' =>
      obtain rfl := Option.some.inj (hj.symm.trans hj')
      exact absurd (Prod.mk.inj (ih h')).1 (by simp)
    | kept _ hj' h' h'' =>
      obtain rfl := Option.some.inj (hj.symm.trans hj')
      obtain rfl := (Prod.mk.inj (ih h')).2
      exact ih' h''

/-- A task that fails leaves the assignment alone and colours only what is reached; one that
succeeds has a path. -/
theorem Ends.reached {task : Task} (h : Ends adj task s r) (hfits : task.Fits adj) :
    (r.1 = true → Augmentable adj s.assign task.equation) ∧
    (r.1 = false → r.2.assign = s.assign ∧ ∀ e ∈ r.2.redEquations,
      e ∈ s.redEquations ∨ Reaches adj s.assign task.equation e) := by
  induction h with
  | @found i j s hfind =>
    have hfree := List.find?_some hfind
    refine ⟨fun _ => ⟨i, .refl, j, List.mem_of_find?_eq_some hfind, ?_⟩, by simp⟩
    exact Option.isNone_iff_eq_none.mp hfree
  | @assigned i s r hfind _ ih =>
    obtain ⟨hpath, hfail⟩ := ih (List.Subset.refl _)
    rw [assign_colourEquation] at hpath hfail
    refine ⟨hpath, fun hr => ⟨(hfail hr).1, fun e he => ?_⟩⟩
    rcases (hfail hr).2 e he with he | he
    · unfold colourEquation at he
      split at he
      · exact Or.inl he
      · rcases List.mem_append.mp he with he | he
        · exact Or.inl he
        · exact Or.inr (List.mem_singleton.mp he ▸ .refl)
    · exact Or.inr he
  | exhausted => exact ⟨by simp, fun _ => ⟨rfl, fun e he => Or.inl he⟩⟩
  | red _ _ ih => exact ih (List.Subset.trans (List.subset_cons_self _ _) hfits)
  | @freed i j k js s t _ hj _ ih =>
    have hleads : Leads adj s.assign i k := ⟨j, hfits List.mem_cons_self, hj⟩
    exact ⟨fun _ => .of_leads hleads ((ih trivial).1 rfl), by simp⟩
  | @kept i j k js s t r _ hj _ _ ih ih' =>
    have hleads : Leads adj s.assign i k := ⟨j, hfits List.mem_cons_self, hj⟩
    obtain ⟨hsame, hcoloured⟩ := (ih trivial).2 rfl
    rw [assign_colourVariable] at hsame hcoloured
    obtain ⟨hpath, hfail⟩ := ih' (List.Subset.trans (List.subset_cons_self _ _) hfits)
    rw [hsame] at hpath hfail
    refine ⟨hpath, fun hr => ⟨(hfail hr).1, fun e he => ?_⟩⟩
    rcases (hfail hr).2 e he with he | he
    · exact (hcoloured e he).imp_right fun hreach => .head hleads hreach
    · exact Or.inr he

section Depth

variable {root n fuel : Nat} (hadj : ∀ e, ∀ j ∈ adj e, used j ∧ j < n)

include hadj

theorem ends_reassign
    (hdeeper : ∀ e s, s.assign.length = n → RootFree used root s.assign →
      Coloured used root [e] s → n < fuel + s.redVariables.length →
        Ends adj (.path e) s (augmentFrom adj fuel e s)) :
    ∀ (js : List Nat) (s : Search), js ⊆ adj i → (∀ j ∈ js, s.assigned j ≠ none) →
      s.assign.length = n → RootFree used root s.assign → Coloured used root [] s →
      n < fuel + (s.redVariables.length + 1) →
        Ends adj (.free i js) s (reassign (augmentFrom adj fuel) i js s)
  | [], s, _, _, _, _, _, _ => .exhausted
  | j :: js, s, hjs, hfull, hn, r, c, hf => by
    have hj := hjs List.mem_cons_self
    have hjs' : js ⊆ adj i := fun k hk => hjs (List.mem_cons_of_mem _ hk)
    have hfull' : ∀ k ∈ js, s.assigned k ≠ none := fun k hk => hfull k (List.mem_cons_of_mem _ hk)
    rw [reassign]
    by_cases hred : j ∈ s.redVariables
    · rw [if_pos (by simpa using hred)]
      exact .red hred (ends_reassign hdeeper js s hjs' hfull' hn r c hf)
    · rw [if_neg (by simpa using hred)]
      obtain ⟨e, he⟩ := Option.ne_none_iff_exists'.mp (hfull j List.mem_cons_self)
      have hc := c.colour_variable hred (hn ▸ hadj i j hj) he
      have hdeep : n < fuel + (s.colourVariable j).redVariables.length := by
        simpa [colourVariable] using hf
      have hends := hdeeper e (s.colourVariable j) hn r hc hdeep
      have hout := augmentFrom_outcome hadj fuel e (s.colourVariable j) hn r hc hdeep
      simp only [he]
      rcases hd : augmentFrom adj fuel e (s.colourVariable j) with ⟨_ | _, t⟩ <;>
        rw [hd] at hends hout
      · have hx := hout.1.of_colourVariable.1
        have hs := assigned_congr hx.assign
        have hle := (c.nodup.subperm hx.vars).length_le
        refine .kept hred he hends (ends_reassign hdeeper js t hjs' (fun k hk => hs ▸ hfull' k hk)
          (hx.assign ▸ hn) (hx.assign ▸ r) hx.coloured (by omega))
      · exact .freed hred he hends

/-- Each variable on the way is coloured, so that the search is not deeper than there are
variables. -/
theorem ends_augmentFrom : ∀ (fuel i : Nat) (s : Search), s.assign.length = n →
    RootFree used root s.assign → Coloured used root [i] s → n < fuel + s.redVariables.length →
      Ends adj (.path i) s (augmentFrom adj fuel i s)
  | 0, i, s, hn, _, c, hf => by have := c.length_le; omega
  | fuel + 1, i, s, hn, r, c, hf => by
    rw [augmentFrom]
    rcases hfind : (adj i).find? fun j => ((s.colourEquation i).assigned j).isNone with _ | j
    · have hfull : ∀ j ∈ adj i, (s.colourEquation i).assigned j ≠ none := by simpa using hfind
      rw [assigned_colourEquation] at hfind
      exact .assigned hfind (ends_reassign hadj (ends_augmentFrom fuel) (adj i) (s.colourEquation i)
        (List.Subset.refl _) hfull (by simpa) (by simpa) (c.colour_pending r) (by simp; omega))
    · rw [assigned_colourEquation] at hfind
      exact .found hfind

end Depth

end Search

/-! ### What the search tells -/

/-- What is left of a search from equation `i` that fails: the coloured equations are too many for
their variables by one, and no fewer of them are. -/
structure Overfull (adj : Nat → List Nat) (a : Assignment) (i : Nat) (s : Search) : Prop where
  assign : s.assign = a
  reached : ∀ e, e ∈ s.redEquations ↔ Reaches adj a i e
  neighbours : ∀ e ∈ s.redEquations, ∀ j ∈ adj e,
    j ∈ s.redVariables ∧ ∃ f ∈ s.redEquations, (a[j]?).join = some f
  card : s.redEquations.toFinset.card = s.redVariables.toFinset.card + 1
  matchable : ∀ S ⊂ s.redEquations.toFinset,
    ∃ f : S → Nat, Function.Injective f ∧ ∀ e : S, f e ∈ adj e

/-- A failed search has coloured a closed set of equations. -/
theorem Exhausted.overfull (x : Exhausted adj used i ⟨a, [], []⟩ t) (hroot : i ∈ t.redEquations)
    (h : Matches adj used a) (hi : ¬ IsMatched used a i)
    (hreached : ∀ e ∈ t.redEquations, Reaches adj a i e) : Overfull adj a i t := by
  have hneighbours : ∀ e ∈ t.redEquations, ∀ j ∈ adj e,
      j ∈ t.redVariables ∧ ∃ f ∈ t.redEquations, (a[j]?).join = some f := by
    intro e he j hj
    have hred := x.closed he List.not_mem_nil j hj
    exact ⟨hred, x.assigned_of_red hred⟩
  have hiff : ∀ e, e ∈ t.redEquations ↔ Reaches adj a i e := by
    refine fun e => ⟨hreached e, fun hreach => ?_⟩
    induction hreach with
    | refl => exact hroot
    | tail _ hleads he =>
      obtain ⟨j, hj, hjf⟩ := hleads
      obtain ⟨-, f, hf, hjf'⟩ := hneighbours _ he j hj
      exact Option.some.inj (hjf'.symm.trans hjf) ▸ hf
  refine ⟨x.assign, hiff, hneighbours, ?_, fun S hS => ?_⟩
  · have hnodup := x.coloured.nodup_equations (x.assign ▸ h.rootFree hi)
    rw [List.append_nil] at hnodup
    rw [List.toFinset_card_of_nodup hnodup, List.toFinset_card_of_nodup x.coloured.nodup]
    exact x.coloured.card
  · refine h.exists_injective (i := i) (fun e he hne => ?_) ?_
    · have hred : e ∈ t.redEquations := List.mem_toFinset.mp (hS.subset he)
      obtain ⟨j, hj, hje⟩ := (x.red_cases hred).resolve_left hne
      exact ⟨j, (x.coloured.used hj).1, hje⟩
    · obtain ⟨e, he, heS⟩ := Finset.exists_of_ssubset hS
      exact ⟨e, hreached e (List.mem_toFinset.mp he), heS⟩

/-- A search from an equation that is not matched always ends, and it succeeds just when some
alternating path from the equation ends at a free variable. Then the equation is matched besides
those that were; otherwise nothing is, and the colours tell which equations stand in the way. -/
theorem augment_decides_path (hadj : ∀ e, ∀ j ∈ adj e, used j ∧ j < a.length)
    (h : Matches adj used a) (hi : ¬ IsMatched used a i) :
    (∀ r, Search.Ends adj (.path i) ⟨a, [], []⟩ r ↔ r = augment adj a i) ∧
    ((augment adj a i).1 = true ↔ Augmentable adj a i) ∧
    ((augment adj a i).1 = true → Matches adj used (augment adj a i).2.assign ∧
      ∀ e, IsMatched used (augment adj a i).2.assign e ↔ IsMatched used a e ∨ e = i) ∧
    ((augment adj a i).1 = false → Overfull adj a i (augment adj a i).2) := by
  have hroot := h.rootFree hi
  have hends : Search.Ends adj (.path i) ⟨a, [], []⟩ (augment adj a i) :=
    Search.ends_augmentFrom hadj _ _ _ rfl hroot ⟨.nil, by simp, rfl⟩ (by simp)
  have hout := augment_outcome hadj hroot
  obtain ⟨hpath, hfail⟩ := hends.reached trivial
  rcases haug : augment adj a i with ⟨_ | _, t⟩ <;> rw [haug] at hends hout hpath hfail
  · have hover : Overfull adj a i t := hout.1.overfull hout.2 h hi fun e he =>
      ((hfail rfl).2 e he).resolve_left List.not_mem_nil
    refine ⟨fun r => ⟨fun hr => hr.unique hends, fun hr => hr ▸ hends⟩, ?_, by simp, fun _ => hover⟩
    refine ⟨by simp, fun ⟨e, hreach, j, hj, hfree⟩ => ?_⟩
    obtain ⟨-, f, -, hjf⟩ := hover.neighbours e ((hover.reached e).mpr hreach) j hj
    simp [hfree] at hjf
  · have hfree : ∀ {j}, used j → (a[j]?).join ≠ some i := fun hu hj => hi ⟨_, hu, hj⟩
    refine ⟨fun r => ⟨fun hr => hr.unique hends, fun hr => hr ▸ hends⟩,
      ⟨fun _ => hpath rfl, fun _ => rfl⟩,
      fun _ => ⟨⟨fun hu hj => ?_, fun hj hk => ?_⟩, fun e => ?_⟩, by simp⟩
    · exact (hout.adjacent hj).elim (h.adjacent hu) id
    · exact hout.injective hj hk (hfree hj) (hfree hk)
    · refine Iff.trans ?_ (hout.covers.trans or_comm)
      exact ⟨fun ⟨j, hj, he⟩ => ⟨j, hj, hfree hj, he⟩, fun ⟨j, hj, _, he⟩ => ⟨j, hj, he⟩⟩

/-! ### Three equations in two variables -/

namespace Trio

def rows (e : Nat) : List Nat := [[0, 1], [0], [1]].getD e []

theorem rows_lt : ∀ e, ∀ j ∈ rows e, True ∧ j < 2
  | 0, j, hj | 1, j, hj | 2, j, hj => by
    simp only [rows, List.getD_cons_zero, List.getD_cons_succ, List.mem_cons, List.not_mem_nil,
      or_false] at hj
    exact ⟨trivial, by omega⟩
  | e + 3, j, hj => by simp [rows] at hj

/-- Only the first equation is matched, to the variable that is all that the second one has. -/
theorem matches_one : Matches rows (fun _ => True) [some 0, none] := by
  have hvalue : ∀ {j e}, ([some 0, none][j]?).join = some e → j = 0 ∧ e = 0
    | 0, e, h => ⟨rfl, (Option.some.inj h).symm⟩
    | 1, e, h => by simp at h
    | j + 2, e, h => by simp at h
  refine ⟨fun _ h => ?_, fun _ _ h h' => (hvalue h).1.trans (hvalue h').1.symm⟩
  obtain ⟨rfl, rfl⟩ := hvalue h
  decide

theorem matches_two : Matches rows (fun _ => True) [some 1, some 0] := by
  have hvalue : ∀ {j e}, ([some 1, some 0][j]?).join = some e → j = 0 ∧ e = 1 ∨ j = 1 ∧ e = 0
    | 0, e, h => Or.inl ⟨rfl, (Option.some.inj h).symm⟩
    | 1, e, h => Or.inr ⟨rfl, (Option.some.inj h).symm⟩
    | j + 2, e, h => by simp at h
  refine ⟨fun _ h => ?_, fun _ _ h h' => ?_⟩
  · rcases hvalue h with ⟨rfl, rfl⟩ | ⟨rfl, rfl⟩ <;> decide
  · have := hvalue h
    have := hvalue h'
    omega

/-- The first equation gives way to the second, and nothing is left for the third. -/
theorem augment_decides_path_trio :
    (¬ IsMatched (fun _ => True) [some 0, none] 1 ∧ Augmentable rows [some 0, none] 1 ∧
      Matches rows (fun _ => True) (augment rows [some 0, none] 1).2.assign) ∧
    (¬ IsMatched (fun _ => True) [some 1, some 0] 2 ∧
      Overfull rows [some 1, some 0] 2 (augment rows [some 1, some 0] 2).2) := by
  have hsecond : ¬ IsMatched (fun _ => True) [some 0, none] 1 := by
    rintro ⟨j, -, hj⟩
    rcases j with _ | _ | j <;> simp at hj
  have hthird : ¬ IsMatched (fun _ => True) [some 1, some 0] 2 := by
    rintro ⟨j, -, hj⟩
    rcases j with _ | _ | j <;> simp at hj
  obtain ⟨-, hiff, hfound, -⟩ := augment_decides_path rows_lt matches_one hsecond
  obtain ⟨-, -, -, hfailed⟩ := augment_decides_path rows_lt matches_two hthird
  exact ⟨⟨hsecond, hiff.mp (by decide), (hfound (by decide)).1⟩, hthird, hfailed (by decide)⟩

end Trio

end Flange

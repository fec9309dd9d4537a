import Mathlib.Logic.Relation
import Flange.Proofs.Connection.Joining

/-! # Classes of connectors

After any calls, two connectors are in one class just when the groups of the connections that were
made relate them, at once or through others.
-/

namespace Flange

namespace ConnectionGraph

/-- What may be asked of a connection graph. -/
inductive Call
  | addConnector (c : Component) (port : String)
  | connect (group : List Terminal)
  | find (i : Nat)
  | classes
  | classOf (component port : String)
  | equations

/-- The components that the call is about. -/
def Call.components : Call → List Component
  | addConnector c _ => [c]
  | connect ts => ts.map Terminal.component
  | _ => []

/-- A connection graph with the groups that were connected, the last one first. -/
structure History where
  graph : ConnectionGraph := {}
  connected : List (List Terminal) := []

namespace History

/-- The history with one more call, refused or not. -/
def step (h : History) : Call → History
  | .addConnector c p => { h with graph := (addConnector c p h.graph).2 }
  | .connect ts =>
    match ConnectionGraph.connect ts h.graph with
    | (.ok _, g) => ⟨g, ts :: h.connected⟩
    | (.error _, g) => { h with graph := g }
  | .find i => { h with graph := (h.graph.find i).2 }
  | .classes => { h with graph := h.graph.classes.2 }
  | .classOf c p => { h with graph := ((h.graph.classOf? c p).map Prod.snd).getD h.graph }
  | .equations => { h with graph := h.graph.equations.2 }

/-- What the calls make of an empty graph. -/
def after (cs : List Call) : History := cs.foldl step {}

end History

variable {g g' : ConnectionGraph} {root rank root' rank' : Nat → Nat} {ts : List Terminal}
  {gs : List (List Terminal)} {is : List Nat} {k l : String × String} {i j : Nat}

/-- Connectors that one of the groups names. -/
def Together (gs : List (List Terminal)) (k l : String × String) : Prop :=
  ∃ ts ∈ gs, (∃ t ∈ ts, t.key = k) ∧ ∃ u ∈ ts, u.key = l

/-- The root of the class of a connector, or else the connector, which is on its own. -/
def label (root : Nat → Nat) (g : ConnectionGraph) (k : String × String) :
    Nat ⊕ (String × String) :=
  match g.index? k.1 k.2 with
  | some i => .inl (root i)
  | none => .inr k

theorem label_of_index? (h : g.index? k.1 k.2 = some i) : label root g k = .inl (root i) := by
  rw [label, h]

theorem label_of_indexOf? {t : Terminal} (h : g.indexOf? t = some i) :
    label root g t.key = .inl (root i) := label_of_index? h

theorem label_of_record (h : Sound root rank g) {r : ConnectorRecord} (hr : g.records[i]? = some r) :
    label root g r.key = .inl (root i) :=
  label_of_index? (h.index?_eq_some_iff.mpr ⟨r, hr, rfl⟩)

theorem Sound.index?_of_grows (h : Sound root rank g) (h' : Sound root' rank' g')
    (hg : Grows g g') (hi : g.index? k.1 k.2 = some i) : g'.index? k.1 k.2 = some i :=
  have ⟨r, hr, hkey⟩ := h.index?_eq_some_iff.mp hi
  h'.index?_eq_some_iff.mpr ⟨r, getElem?_of_extends hg.records hr, hkey⟩

theorem Sound.size_le_of_index? (h' : Sound root' rank' g') (hg : Grows g g')
    (hnone : g.index? k.1 k.2 = none) (hi : g'.index? k.1 k.2 = some i) : g.size ≤ i := by
  obtain ⟨r, hr, hkey⟩ := h'.index?_eq_some_iff.mp hi
  by_contra hlt
  have hlt : i < g.records.length := Nat.lt_of_not_le hlt
  have hsame := getElem?_of_extends hg.records (List.getElem?_eq_getElem hlt)
  obtain rfl := Option.some.inj (hsame.symm.trans hr)
  exact index?_eq_none_iff.mp hnone _ (List.getElem_mem hlt) hkey

theorem Sound.index?_inj (h : Sound root rank g) (hk : g.index? k.1 k.2 = some i)
    (hl : g.index? l.1 l.2 = some i) : k = l := by
  obtain ⟨r, hr, hrk⟩ := h.index?_eq_some_iff.mp hk
  obtain ⟨s, hs, hsl⟩ := h.index?_eq_some_iff.mp hl
  obtain rfl := Option.some.inj (hr.symm.trans hs)
  exact hrk.symm.trans hsl

theorem Sound.lt_of_index? (h : Sound root rank g) (hi : g.index? k.1 k.2 = some i) :
    i < g.size :=
  have ⟨_, hr, _⟩ := h.index?_eq_some_iff.mp hi
  lt_of_getElem? hr

/-- Registering leaves every class as it was. -/
theorem label_eq_label_of_registered (h : Sound root rank g) (x : Registered root ts g g') :
    label root g' k = label root g' l ↔ label root g k = label root g l := by
  obtain ⟨_, h'⟩ := x.sound
  have hold : ∀ {k : String × String} {i}, g.index? k.1 k.2 = some i →
      label root g' k = label root g k := fun hi => by
    rw [label_of_index? hi, label_of_index? (h.index?_of_grows h' x.grows hi)]
  -- a new connector is its own root, which no record of `g` can be
  have hnew : ∀ {k : String × String}, g.index? k.1 k.2 = none →
      ∀ {r}, label root g' k = .inl r → g.size ≤ r ∧ g'.index? k.1 k.2 = some r := by
    intro k hnone r hr
    rcases hk : g'.index? k.1 k.2 with _ | i
    · simp [label, hk] at hr
    · have hle := h'.size_le_of_index? x.grows hnone hk
      rw [label_of_index? hk, h.ranked.root_of_le hle] at hr
      obtain rfl := Sum.inl.inj hr
      exact ⟨hle, rfl⟩
  have happart : ∀ {k l : String × String} {j}, g.index? k.1 k.2 = none →
      g.index? l.1 l.2 = some j → label root g' k ≠ label root g' l := by
    intro k l j hk hl hkl
    rw [hold hl, label_of_index? hl] at hkl
    exact absurd (h.ranked.root_lt (h.lt_of_index? hl)) (hnew hk hkl).1.not_gt
  rcases hk : g.index? k.1 k.2 with _ | i <;> rcases hl : g.index? l.1 l.2 with _ | j
  · have hg : label root g k = label root g l ↔ k = l := by simp [label, hk, hl]
    rw [hg]
    refine ⟨fun hkl => ?_, fun hkl => hkl ▸ rfl⟩
    rcases hk' : label root g' k with r | m
    · exact h'.index?_inj (hnew hk hk').2 (hnew hl (hkl ▸ hk')).2
    · rcases hik : g'.index? k.1 k.2 with _ | i <;> rcases hil : g'.index? l.1 l.2 with _ | j <;>
        simp_all [label]
  · exact iff_of_false (happart hk hl) (by simp [label, hk, hl])
  · exact iff_of_false (happart hl hk).symm (by simp [label, hk, hl])
  · rw [hold hk, hold hl]

/-- Joining connectors makes their classes one. -/
theorem label_eq_label_of_joins (hnames : Names g ts is) (hjoin : Forest.Joins root root' is) :
    label root' g k = label root' g l ↔ label root g k = label root g l ∨
      (∃ t ∈ ts, label root g k = label root g t.key) ∧
        ∃ u ∈ ts, label root g l = label root g u.key := by
  have htouch : ∀ {k : String × String} {i}, g.index? k.1 k.2 = some i →
      ((∃ t ∈ ts, label root g k = label root g t.key) ↔ ∃ a ∈ is, root i = root a) := by
    intro k i hi
    rw [label_of_index? hi]
    constructor
    · rintro ⟨t, ht, hlabel⟩
      obtain ⟨a, ha⟩ := hnames.named t ht
      rw [label_of_indexOf? ha] at hlabel
      exact ⟨a, hnames.mem_iff.mpr ⟨t, ht, ha⟩, Sum.inl.inj hlabel⟩
    · rintro ⟨a, ha, hroot⟩
      obtain ⟨t, ht, hta⟩ := hnames.mem_iff.mp ha
      exact ⟨t, ht, by rw [label_of_indexOf? hta, hroot]⟩
  have hout : ∀ {k : String × String}, g.index? k.1 k.2 = none →
      ¬ ∃ t ∈ ts, label root g k = label root g t.key := by
    rintro k hk ⟨t, ht, hlabel⟩
    obtain ⟨a, ha⟩ := hnames.named t ht
    rw [label_of_indexOf? ha, label, hk] at hlabel
    exact absurd hlabel (by simp)
  rcases hk : g.index? k.1 k.2 with _ | i
  · rw [iff_false_intro (hout hk)]
    simp only [label, hk, false_and, or_false]
    rcases hl : g.index? l.1 l.2 with _ | j <;> simp
  · rcases hl : g.index? l.1 l.2 with _ | j
    · rw [iff_false_intro (hout hl)]
      simp [label, hk, hl]
    · rw [htouch hk, htouch hl]
      simp only [label_of_index? hk, label_of_index? hl, Sum.inl.injEq]
      exact hjoin i j

theorem eq_of_eqvGen {α β : Type} {r : α → α → Prop} {f : α → β} (h : ∀ a b, r a b → f a = f b)
    {a b : α} (hab : Relation.EqvGen r a b) : f a = f b := by
  induction hab with
  | rel a b hab => exact h a b hab
  | refl => rfl
  | symm _ _ _ ih => exact ih.symm
  | trans _ _ _ _ _ ih ih' => exact ih.trans ih'

/-- Labels that a further group joins are those of the closure with that group. -/
theorem eqvGen_together_cons {β : Type} {f f' : String × String → β}
    (hf : ∀ k l, Relation.EqvGen (Together gs) k l ↔ f k = f l)
    (hf' : ∀ k l, f' k = f' l ↔ f k = f l ∨
      (∃ t ∈ ts, f k = f t.key) ∧ ∃ u ∈ ts, f l = f u.key) (k l : String × String) :
    Relation.EqvGen (Together (ts :: gs)) k l ↔ f' k = f' l := by
  have hmono : ∀ {k l}, f k = f l → Relation.EqvGen (Together (ts :: gs)) k l :=
    fun {k l} hkl => Relation.EqvGen.mono
      (fun _ _ ⟨us, hus, h⟩ => ⟨us, List.mem_cons_of_mem _ hus, h⟩) _ _ ((hf k l).mpr hkl)
  constructor
  · refine eq_of_eqvGen fun k l h => ?_
    rw [hf']
    obtain ⟨us, hus, ⟨t, ht, rfl⟩, u, hu, rfl⟩ := h
    rcases List.mem_cons.mp hus with rfl | hus
    · exact Or.inr ⟨⟨t, ht, rfl⟩, u, hu, rfl⟩
    · exact Or.inl ((hf _ _).mp (.rel _ _ ⟨us, hus, ⟨t, ht, rfl⟩, u, hu, rfl⟩))
  · intro h
    rcases (hf' k l).mp h with h | ⟨⟨t, ht, hkt⟩, u, hu, hlu⟩
    · exact hmono h
    · exact .trans _ _ _ (hmono hkt) (.trans _ _ _
        (.rel _ _ ⟨ts, List.mem_cons_self, ⟨t, ht, rfl⟩, u, hu, rfl⟩) (hmono hlu.symm))

/-- The classes that `root` names are those of the groups that were connected. -/
structure Tracks (root rank : Nat → Nat) (h : History) : Prop where
  sound : Sound root rank h.graph
  together : ∀ k l, Relation.EqvGen (Together h.connected) k l ↔
    label root h.graph k = label root h.graph l

theorem tracks_empty : Tracks id (fun _ => 0) {} where
  sound := sound_empty
  together := by
    intro k l
    have hlabel : ∀ k, label id {} k = .inr k := fun _ => rfl
    rw [hlabel, hlabel, Sum.inr.injEq]
    constructor
    · exact fun h => eq_of_eqvGen (f := id) (fun _ _ h => absurd h (by simp [Together])) h
    · rintro rfl
      exact .refl _

/-- What a call makes of a history: all classes stay, or those that one group touches become one. -/
inductive Change (root : Nat → Nat) (c : Call) (h : History) : History → Prop
  | kept {ts : List Terminal} {g' : ConnectionGraph} : (∀ t ∈ ts, t.component ∈ c.components) →
      Registered root ts h.graph g' → Change root c h { h with graph := g' }
  | joined {ts : List Terminal} {g' : ConnectionGraph} {is : List Nat} {f : Forest}
      {root' rank' : Nat → Nat} : (∀ t ∈ ts, t.component ∈ c.components) →
      Registered root ts h.graph g' → Names g' ts is →
      ¬ Conflicts g'.components g' (Touched root g'.size is) →
      Sound root' rank' { g' with forest := f } → Forest.Joins root root' is →
      Change root c h ⟨{ g' with forest := f }, ts :: h.connected⟩

/-- A call that only looks moves links of the forest, and no more. -/
theorem Sound.looked {h : History} (hs : Sound root rank h.graph) {f : Forest}
    (hf : f.Ranked h.graph.size root rank) (c : Call) :
    Change root c h { h with graph := { h.graph with forest := f } } :=
  .kept (by simp) ((Registered.refl hs []).withForest hf)

theorem Sound.change {h : History} (hs : Sound root rank h.graph) (c : Call) :
    Change root c h (h.step c) := by
  cases c with
  | addConnector c p =>
    have hreg := registration c p h.graph
    simp only [History.step]
    rcases hrun : addConnector c p h.graph with ⟨_ | i, g'⟩ <;> rw [hrun] at hreg
    · obtain ⟨rfl, -⟩ := Registration.unfit (t := ⟨c, p⟩) hreg hs
      exact .kept (by simp) (.refl hs [])
    · obtain ⟨x, -⟩ := Registration.registered (t := ⟨c, p⟩) hreg hs
      exact .kept (by simp [Call.components]) x
  | connect ts =>
    have hts : ∀ t ∈ ts, t.component ∈ (Call.connect ts).components := fun t ht =>
      List.mem_map_of_mem ht
    have hcon := hs.connection ts
    simp only [History.step]
    rcases hrun : ConnectionGraph.connect ts h.graph with ⟨_, g'⟩
    rw [hrun] at hcon
    cases hcon with
    | unregistered x => exact .kept hts x
    | tooFew x => exact .kept hts x
    | conflicting _ x _ _ _ _ hf => exact .kept hts (x.withForest hf)
    | joined _ x hnames _ hmerged h' hjoin => exact .joined hts x hnames hmerged h' hjoin
  | find i => exact hs.looked (hs.ranked.find i).2 _
  | classes => exact hs.looked hs.ranked.classes.2 _
  | classOf c p =>
    simp only [History.step, classOf?]
    rcases h.graph.index? c p with _ | i
    · exact .kept (by simp) (.refl hs [])
    · exact hs.looked ((hs.ranked.find i).2.members _).2 _
  | equations => exact hs.looked hs.ranked.classes.2 _

theorem Tracks.registered {h : History} (ht : Tracks root rank h)
    (x : Registered root ts h.graph g') : ∃ rank', Tracks root rank' { h with graph := g' } := by
  obtain ⟨rank', h'⟩ := x.sound
  exact ⟨rank', h', fun k l =>
    (ht.together k l).trans (label_eq_label_of_registered ht.sound x).symm⟩

theorem Tracks.joined {h : History} (ht : Tracks root rank h) {f : Forest}
    (x : Registered root ts h.graph g') (hnames : Names g' ts is)
    (h' : Sound root' rank' { g' with forest := f }) (hjoin : Forest.Joins root root' is) :
    Tracks root' rank' ⟨{ g' with forest := f }, ts :: h.connected⟩ := by
  obtain ⟨_, ht'⟩ := ht.registered x
  refine ⟨h', eqvGen_together_cons ht'.together fun k l => ?_⟩
  have hlabel := label_eq_label_of_joins (k := k) (l := l) hnames hjoin
  exact hlabel

theorem Tracks.step {h : History} (ht : Tracks root rank h) (c : Call) :
    ∃ root' rank', Tracks root' rank' (h.step c) := by
  have hchange := ht.sound.change c
  generalize h.step c = h' at hchange
  cases hchange with
  | kept _ x => exact ⟨root, ht.registered x⟩
  | joined _ x hnames _ h' hjoin => exact ⟨_, _, ht.joined x hnames h' hjoin⟩

theorem exists_tracks (cs : List Call) : ∃ root rank, Tracks root rank (History.after cs) := by
  suffices ∀ {h : History} {root rank}, Tracks root rank h →
      ∃ root' rank', Tracks root' rank' (cs.foldl History.step h) from this tracks_empty
  induction cs with
  | nil => exact fun ht => ⟨_, _, ht⟩
  | cons c cs ih =>
    intro h root rank ht
    obtain ⟨root', rank', ht'⟩ := ht.step c
    exact ih ht'

/-! ### What the graph tells of its classes -/

theorem Sound.find_eq (h : Sound root rank g) (i : Nat) : (g.find i).1 = root i :=
  (h.ranked.find i).1

theorem Sound.classes_eq (h : Sound root rank g) : g.classes.1 = Forest.partition root g.size :=
  h.ranked.classes.1

/-- The class of a connector is that of its record. -/
theorem Sound.classOf?_eq (h : Sound root rank g) {r : ConnectorRecord}
    (hr : g.records[i]? = some r) :
    ∃ g', g.classOf? r.component r.port =
      some ((List.range g.size).filter fun k => root k = root i, g') := by
  have hi : g.index? r.component r.port = some i := h.index?_eq_some_iff.mpr ⟨r, hr, rfl⟩
  obtain ⟨hroot, hf⟩ := h.ranked.find i
  refine ⟨{ g with forest := ((g.forest.find i).2.members [(g.forest.find i).1]).2 }, ?_⟩
  have hmembers : ((g.forest.find i).2.members [(g.forest.find i).1]).1 =
      (List.range g.size).filter fun k => root k = root i := by
    rw [(hf.members _).1, hroot]
    simp
  rw [classOf?, hi, ← hmembers]
  rfl

theorem mem_class_iff (his : is ∈ Forest.partition root g.size) (hi : i ∈ is) :
    j ∈ is ↔ j < g.size ∧ root i = root j := by
  obtain ⟨m, -, -, rfl⟩ := Forest.mem_partition.mp his
  simp only [List.mem_filter, List.mem_range, decide_eq_true_eq] at hi ⊢
  rw [hi.2, eq_comm]

theorem class_mem_partition (hi : i < g.size) :
    ((List.range g.size).filter fun k => root k = root i) ∈ Forest.partition root g.size := by
  obtain ⟨j, hj, hji⟩ := Forest.exists_smallest root hi
  rw [← hji]
  exact List.mem_map_of_mem hj

/-- After any calls: links lead to roots and nowhere else in circles, a root knows how many records
are under it, two records have one root just when the groups that were connected relate them, and
the classes that are listed are those of the roots, in order. -/
theorem classes_are_declared (cs : List Call) :
    let g := (History.after cs).graph
    let gs := (History.after cs).connected
    (∀ i m, g.forest.parentOf^[m + 1] i = i → g.forest.parentOf i = i) ∧
    (∀ i < g.size, (g.find i).1 < g.size ∧ (∃ m, g.forest.parentOf^[m] i = (g.find i).1) ∧
      g.forest.parentOf (g.find i).1 = (g.find i).1) ∧
    (∀ r < g.size, g.forest.parentOf r = r →
      g.forest.sizeOf r = (List.range g.size).countP fun i => (g.find i).1 = r) ∧
    (∀ i j r s, g.records[i]? = some r → g.records[j]? = some s →
      ((g.find i).1 = (g.find j).1 ↔ Relation.EqvGen (Together gs) r.key s.key)) ∧
    g.classes.1.flatten.Perm (List.range g.size) ∧
    (∀ is ∈ g.classes.1, is.Pairwise (· < ·) ∧
      ∀ i ∈ is, ∀ j, j ∈ is ↔ j < g.size ∧ (g.find i).1 = (g.find j).1) ∧
    (∃ firsts : List Nat, firsts.Pairwise (· < ·) ∧
      g.classes.1.map List.head? = firsts.map some) ∧
    ∀ i r, g.records[i]? = some r → ∃ is g',
      g.classOf? r.component r.port = some (is, g') ∧ is ∈ g.classes.1 ∧ i ∈ is := by
  intro g gs
  obtain ⟨root, rank, ht⟩ := exists_tracks cs
  have h : Sound root rank g := ht.sound
  simp only [h.find_eq, h.classes_eq]
  refine ⟨fun i m => h.ranked.acyclic, fun i hi => ?_, fun r hr hfix => ?_,
    fun i j r s hr hs => ?_, Forest.flatten_partition_perm root g.size, fun is his => ?_,
    ⟨Forest.smallest root g.size, List.pairwise_lt_range.filter _, Forest.head?_partition⟩,
    fun i r hr => ?_⟩
  · exact ⟨h.ranked.root_lt hi, h.ranked.exists_iterate i, h.ranked.parentOf_root i⟩
  · have hsize := h.ranked.sizeOf_root hr
    rwa [h.ranked.root_of_fixed hfix] at hsize
  · rw [ht.together, label_of_record h hr, label_of_record h hs, Sum.inl.injEq]
  · exact ⟨Forest.ascending_of_mem_partition his, fun i hi j => mem_class_iff his hi⟩
  · obtain ⟨g', hclass⟩ := h.classOf?_eq hr
    have hi : i < g.size := lt_of_getElem? hr
    exact ⟨_, g', hclass, class_mem_partition hi, by simp [hi]⟩

end ConnectionGraph

end Flange

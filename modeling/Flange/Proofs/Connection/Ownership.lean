import Flange.Proofs.Connection.Records

/-! # Owners of names

A name belongs to the component that was the first to register a connector under it, and every
record under the name is that of one of its ports. Another component of the name cannot register a
connector, unless the owner has one on the port of that name: then it is given the owner's record.
-/

namespace Flange

namespace ConnectionGraph

variable {g g' : ConnectionGraph} {root rank : Nat → Nat} {b c d : Component} {p : String}
  {ts : List Terminal} {i : Nat}

/-- The records under the name of `c` are its own. -/
def Owns (g : ConnectionGraph) (c : Component) : Prop :=
  ∃ b ∈ g.components, b.name = c.name ∧ b.id = c.id

theorem Owns.of_grows (h : g.Owns c) (hg : Grows g g') : g'.Owns c := by
  obtain ⟨b, hb, heq⟩ := h
  exact ⟨b, hg.components.subset hb, heq⟩

theorem Owns.component? (h : g.Owns c) (hs : Sound root rank g) :
    ∃ b, g.component? c.name = some b ∧ b.id = c.id := by
  obtain ⟨b, hb, hname, hid⟩ := h
  exact ⟨b, hs.component?_eq_some_iff.mpr ⟨hb, hname⟩, hid⟩

/-- A name has one owner. -/
theorem Owns.id_eq (h : g.Owns c) (h' : g.Owns d) (hs : Sound root rank g)
    (hname : c.name = d.name) : c.id = d.id := by
  obtain ⟨b, hb, hbc⟩ := h.component? hs
  obtain ⟨b', hb', hbd⟩ := h'.component? hs
  rw [← hname, hb] at hb'
  obtain rfl := Option.some.inj hb'
  exact hbc.symm.trans hbd

/-! ### What registering keeps -/

theorem kept_grows (g : ConnectionGraph) : Kept (Grows g) where
  congr hr hc h := ⟨hr ▸ h.records, hc ▸ h.components⟩
  addConnector {g'} c p h := by
    rcases addConnector_cases c p g' with hsame | ⟨q, -, hpush⟩
    · rwa [hsame]
    · rw [hpush]
      exact h.trans (grows_push g' c q)

theorem after_append (calls calls' : List Call) (call : Call) :
    History.after (calls ++ call :: calls') =
      calls'.foldl History.step ((History.after calls).step call) := by
  simp [History.after]

theorem mem_of_component? {n : String} (h : g.component? n = some b) :
    b ∈ g.components ∧ b.name = n :=
  ⟨List.mem_of_find?_eq_some h, by simpa using List.find?_some h⟩

theorem owns_push {q : Port} (hown : ∀ b, g.component? c.name = some b → b.id = c.id) :
    (g.push c q).Owns c := by
  cases hb : g.component? c.name with
  | none => exact ⟨c, by simp [push, hb], rfl, rfl⟩
  | some b =>
    obtain ⟨hmem, hname⟩ := mem_of_component? hb
    exact ⟨b, (grows_push g c q).components.subset hmem, hname, hown b hb⟩

/-- Every record is that of a port of the owner of its name. -/
def Attributed (g : ConnectionGraph) : Prop :=
  ∀ r ∈ g.records, ∃ c : Component, ∃ q, c.port? r.port = some q ∧ r = c.record q ∧ g.Owns c

theorem kept_attributed : Kept Attributed where
  congr hr hc h := by
    intro r hmem
    obtain ⟨c, q, hq, heq, b, hb, hbc⟩ := h r (hr ▸ hmem)
    exact ⟨c, q, hq, heq, b, hc ▸ hb, hbc⟩
  addConnector {g} c p h := by
    have hreg := registration c p g
    generalize addConnector c p g = x at hreg
    cases hreg with
    | recorded => exact h
    | refused => exact h
    | @added q _ hq hown =>
      intro r hr
      rcases List.mem_append.mp (records_push ▸ hr) with hr | hr
      · obtain ⟨d, q', hq', heq, hd⟩ := h r hr
        exact ⟨d, q', hq', heq, hd.of_grows (grows_push g c q)⟩
      · obtain rfl := List.mem_singleton.mp hr
        refine ⟨c, q, ?_, rfl, owns_push hown⟩
        change c.port? q.name = some q
        rwa [port?_name hq]

/-! ### Other components of the name -/

/-- `d` is another component than `c`, of the same name. -/
structure Shares (c d : Component) : Prop where
  name : d.name = c.name
  id_ne : d.id ≠ c.id

theorem sound_added {q : Port} (hs : Sound root rank g) (hnone : g.index? c.name p = none)
    (hq : c.port? p = some q) : Sound root (Function.update rank g.size 0) (g.push c q) := by
  apply hs.push
  rwa [port?_name hq]

/-- A component that shares the name of the owner registers no connector that is not recorded. -/
theorem Owns.refuses (h : g.Owns c) (hs : Sound root rank g) (hd : Shares c d)
    (hnone : g.index? c.name p = none) :
    ∃ e, addConnector d p g = (.error e, g) ∧ e.kind = .definition := by
  have hreg := registration d p g
  generalize addConnector d p g = x at hreg
  cases hreg with
  | recorded hi =>
    rw [hd.name, hnone] at hi
    exact absurd hi (by simp)
  | refused _ _ hkind => exact ⟨_, rfl, hkind⟩
  | added hi hq hown =>
    have hid := (h.of_grows (grows_push g d _)).id_eq (owns_push hown) (sound_added hs hi hq) hd.name.symm
    exact absurd hid.symm hd.id_ne

theorem index?_push_eq_none {q : Port} (hnone : g.index? c.name p = none)
    (hkey : (d.name, q.name) ≠ (c.name, p)) : (g.push d q).index? c.name p = none := by
  rw [index?_eq_none_iff] at hnone ⊢
  intro r hr
  rcases List.mem_append.mp (records_push ▸ hr) with hr | hr
  · exact hnone r hr
  · obtain rfl := List.mem_singleton.mp hr
    exact hkey

/-- When another connector is registered, the owner keeps its name and the connector stays
unrecorded. -/
theorem Owns.registered {p' : String} (h : g.Owns c) (hs : Sound root rank g)
    (hnone : g.index? c.name p = none) (hkey : (d.name, p') ≠ (c.name, p))
    (hrun : addConnector d p' g = (.ok i, g')) :
    g'.Owns c ∧ (∃ rank', Sound root rank' g') ∧ g'.index? c.name p = none := by
  have hreg := registration d p' g
  rw [hrun] at hreg
  cases hreg with
  | recorded => exact ⟨h, ⟨rank, hs⟩, hnone⟩
  | @added q hi hq _ =>
    refine ⟨h.of_grows (grows_push g d q), ⟨_, sound_added hs hi hq⟩, ?_⟩
    exact index?_push_eq_none hnone (by rwa [port?_name hq])

/-- A group is refused with a connector of another component of the name that is neither recorded
nor registered by the owner in the same group. -/
theorem Owns.refuses_group (h : g.Owns c) (hs : Sound root rank g)
    (hnone : g.index? c.name p = none) (hmem : ∃ t ∈ ts, t.key = (c.name, p))
    (hts : ∀ t ∈ ts, t.key = (c.name, p) → Shares c t.component) :
    ∃ e g', addGroup ts g = (.error e, g') ∧ e.kind = .definition := by
  induction ts generalizing g rank with
  | nil => simp at hmem
  | cons t ts ih =>
    obtain ⟨ht, hts⟩ := List.forall_mem_cons.mp hts
    rw [addGroup]
    by_cases hkey : t.key = (c.name, p)
    · obtain ⟨hname, hport⟩ := Prod.mk.inj hkey
      obtain ⟨e, hrun, hkind⟩ := h.refuses hs (ht hkey) (p := t.port) (hport ▸ hnone)
      exact ⟨e, g, Wiring.bind_of_error hrun, hkind⟩
    have hmem : ∃ u ∈ ts, u.key = (c.name, p) := by
      obtain ⟨u, hu, huk⟩ := hmem
      rcases List.mem_cons.mp hu with rfl | hu
      · exact absurd huk hkey
      · exact ⟨u, hu, huk⟩
    rcases hrun : addConnector t.component t.port g with ⟨e | i, g₁⟩
    · have hreg := registration t.component t.port g
      rw [hrun] at hreg
      cases hreg with
      | refused _ _ hkind => exact ⟨_, _, Wiring.bind_of_error hrun, hkind⟩
    · obtain ⟨howns, ⟨_, hs₁⟩, hnone₁⟩ := h.registered hs hnone hkey hrun
      obtain ⟨e, g', hgroup, hkind⟩ := ih howns hs₁ hnone₁ hmem hts
      refine ⟨e, g', ?_, hkind⟩
      rw [Wiring.bind_of_ok hrun, Wiring.bind_of_error hgroup]

theorem refuses_connect (h : ∃ e g', addGroup ts g = (.error e, g') ∧ e.kind = .definition) :
    ∃ e, (connect ts g).1 = .error e ∧ e.kind = .definition := by
  obtain ⟨e, g', hgroup, hkind⟩ := h
  refine ⟨e, ?_, hkind⟩
  rw [connect, Wiring.bind_of_error hgroup]

/-! ### Indices -/

theorem Sound.index?_of_registered (hs : Sound root rank g)
    (h : (addConnector c p g).1 = .ok i) :
    ∃ rank', Sound root rank' (addConnector c p g).2 ∧ Grows g (addConnector c p g).2 ∧
      (addConnector c p g).2.index? c.name p = some i := by
  have hreg := registration c p g
  rcases hrun : addConnector c p g with ⟨e | j, g'⟩ <;> rw [hrun] at hreg h
  · exact absurd h (by simp)
  · obtain ⟨x, hj⟩ := Registration.registered (t := ⟨c, p⟩) hreg hs
    obtain ⟨rank', hs'⟩ := x.sound
    exact ⟨rank', hs', x.grows, Except.ok.inj h ▸ hj⟩

theorem grows_after (calls calls' : List Call) (c : Component) (p : String) :
    Grows (addConnector c p (History.after calls).graph).2
      (History.after (calls ++ .addConnector c p :: calls')).graph := by
  have hfirst : Grows (addConnector c p (History.after calls).graph).2
      ((History.after calls).step (.addConnector c p)).graph := .refl _
  rw [after_append]
  exact (kept_grows _).foldl hfirst calls'

/-- A component owns its name from the time when it is the first to register a connector. -/
theorem owns_after (calls calls' : List Call)
    (hnone : (History.after calls).graph.index? c.name p = none)
    (hi : (addConnector c p (History.after calls).graph).1 = .ok i) :
    (History.after (calls ++ .addConnector c p :: calls')).graph.Owns c := by
  refine Owns.of_grows ?_ (grows_after calls calls' c p)
  have hreg := registration c p (History.after calls).graph
  generalize addConnector c p (History.after calls).graph = x at hi hreg
  cases hreg with
  | recorded h => exact absurd (hnone.symm.trans h) (by simp)
  | refused => exact absurd hi (by simp)
  | added _ _ hown => exact owns_push hown

/-- Registrations give the same index just when they are of one port of one name. -/
theorem index_eq_iff (calls calls' : List Call) {q : String} {j : Nat}
    (hi : (addConnector c p (History.after calls).graph).1 = .ok i)
    (hj : (addConnector d q
      (History.after (calls ++ .addConnector c p :: calls')).graph).1 = .ok j) :
    i = j ↔ d.name = c.name ∧ q = p := by
  obtain ⟨root, rank, ht⟩ := exists_tracks calls
  obtain ⟨root', rank', ht'⟩ := exists_tracks (calls ++ .addConnector c p :: calls')
  obtain ⟨rank₁, hs₁, -, hi⟩ := ht.sound.index?_of_registered hi
  obtain ⟨rank₂, hs₂, hgrow, hj⟩ := ht'.sound.index?_of_registered hj
  have hi := hs₁.index?_of_grows (k := (c.name, p)) hs₂
    ((grows_after calls calls' c p).trans hgrow) hi
  constructor
  · rintro rfl
    have hkey := hs₂.index?_inj (k := (c.name, p)) (l := (d.name, q)) hi hj
    exact ⟨(Prod.mk.inj hkey).1.symm, (Prod.mk.inj hkey).2.symm⟩
  · rintro ⟨hname, rfl⟩
    rw [hname] at hj
    exact Option.some.inj (hi.symm.trans hj)

/-- After any calls a name has one owner, the first component that registered a connector under it,
and every record is that of a port of the owner of its name. An attempt of another component of the
name to register a connector is refused just when the connector of that name and port is not
recorded, and so is a group with such a connector; otherwise the attempt is given the index of the
owner's record. Two registrations give the same index just when they are of one port of one name. -/
theorem foreign_refused_iff_unrecorded (calls : List Call) :
    let g := (History.after calls).graph
    (∀ c d, g.Owns c → g.Owns d → c.name = d.name → c.id = d.id) ∧
    (∀ c p i, g.index? c.name p = none → (addConnector c p g).1 = .ok i → ∀ calls',
      (History.after (calls ++ .addConnector c p :: calls')).graph.Owns c) ∧
    (∀ r ∈ g.records, ∃ c : Component, ∃ q, c.port? r.port = some q ∧ r = c.record q ∧ g.Owns c) ∧
    (∀ c d p, g.Owns c → Shares c d →
      ((∃ e, addConnector d p g = (.error e, g) ∧ e.kind = .definition) ↔
        g.index? c.name p = none) ∧
      (∀ i, addConnector d p g = (.ok i, g) ↔ g.index? c.name p = some i) ∧
      (g.index? c.name p = none → ∀ ts, (∃ t ∈ ts, t.key = (c.name, p)) →
        (∀ t ∈ ts, t.key = (c.name, p) → Shares c t.component) →
          ∃ e, (connect ts g).1 = .error e ∧ e.kind = .definition)) ∧
    ∀ calls' c d p q i j, (addConnector c p g).1 = .ok i → (addConnector d q
      (History.after (calls ++ .addConnector c p :: calls')).graph).1 = .ok j →
        (i = j ↔ d.name = c.name ∧ q = p) := by
  intro g
  obtain ⟨root, rank, ht⟩ := exists_tracks calls
  have hs : Sound root rank g := ht.sound
  refine ⟨fun c d hc hd => hc.id_eq hd hs,
    fun c p i hnone hi calls' => owns_after calls calls' hnone hi,
    kept_attributed.after (by simp [Attributed]) calls, fun c d p hc hd => ?_,
    fun calls' c d p q i j => index_eq_iff calls calls'⟩
  have hrecorded : ∀ {i}, g.index? c.name p = some i → addConnector d p g = (.ok i, g) := by
    intro i hi
    simp only [addConnector, Wiring.get_bind, hd.name, hi]
    rfl
  refine ⟨⟨?_, hc.refuses hs hd⟩, fun i => ⟨?_, hrecorded⟩,
    fun hnone ts hmem hts => refuses_connect (hc.refuses_group hs hnone hmem hts)⟩
  · rintro ⟨e, hrun, -⟩
    cases hi : g.index? c.name p with
    | none => rfl
    | some i => exact absurd (Prod.mk.inj ((hrecorded hi).symm.trans hrun)).1 (by simp)
  · intro hrun
    cases hi : g.index? c.name p with
    | none =>
      obtain ⟨e, he, -⟩ := hc.refuses hs hd hi
      exact absurd (Prod.mk.inj (he.symm.trans hrun)).1 (by simp)
    | some j =>
      rw [hrecorded hi] at hrun
      exact congrArg some (Except.ok.inj (Prod.mk.inj hrun).1)

/-- A second component with the name of the gear. -/
def rival : Component := { shaft with id := 2, name := "gear" }

/-- The rival cannot register its second flange, but for its first one it is given the record of the
gear's. -/
theorem foreign_refused_iff_unrecorded_rival :
    let g := (History.after [Call.addConnector gear "flange_a"]).graph
    addConnector rival "flange_a" g = (.ok 0, g) ∧
      ∃ e, addConnector rival "flange_b" g = (.error e, g) ∧ e.kind = .definition := by
  intro g
  obtain ⟨-, -, -, hother, -⟩ := foreign_refused_iff_unrecorded [Call.addConnector gear "flange_a"]
  have hshares : Shares gear rival := ⟨rfl, by decide⟩
  have howns : g.Owns gear := ⟨gear, List.mem_cons_self, rfl, rfl⟩
  exact ⟨((hother gear rival "flange_a" howns hshares).2.1 0).mpr rfl,
    (hother gear rival "flange_b" howns hshares).1.mpr rfl⟩

end ConnectionGraph

end Flange

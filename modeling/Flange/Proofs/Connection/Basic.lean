import Flange.Connection
import Flange.Proofs.Graph.Forest

/-! # Steps on connection graphs

What registering and connecting do to a connection graph, with its classes named by their roots.
Registering keeps the classes and adds new ones of one connector; a connection joins the classes
of its connectors, or is refused and joins nothing.
-/

namespace Flange

/-- What tells connectors apart. -/
def ConnectorRecord.key (r : ConnectorRecord) : String × String := (r.component, r.port)

def Terminal.key (t : Terminal) : String × String := (t.component.name, t.port)

namespace Wiring

variable {α β : Type} {w : Wiring α} {k : α → Wiring β} {g g' : ConnectionGraph}

theorem bind_apply (w : Wiring α) (k : α → Wiring β) (g : ConnectionGraph) :
    (w >>= k) g = match w g with
      | (.ok a, g') => k a g'
      | (.error e, g') => (.error e, g') := by
  change (match w g with | (r, g') => (ExceptT.bindCont k r : StateM ConnectionGraph _) g') = _
  rcases w g with ⟨_ | a, g'⟩ <;> rfl

theorem get_bind (k : ConnectionGraph → Wiring α) (g : ConnectionGraph) :
    ((get : Wiring ConnectionGraph) >>= k) g = k g g := bind_apply ..

theorem set_bind (k : PUnit → Wiring α) (g g' : ConnectionGraph) :
    ((set g' : Wiring PUnit) >>= k) g = k ⟨⟩ g' := bind_apply ..

theorem bind_of_ok {a : α} (h : w g = (.ok a, g')) : (w >>= k) g = k a g' := by
  rw [bind_apply, h]

theorem bind_of_error {e : ModelError} (h : w g = (.error e, g')) :
    (w >>= k) g = (.error e, g') := by
  rw [bind_apply, h]

end Wiring

namespace ConnectionGraph

variable {g g' : ConnectionGraph} {root rank root' rank' : Nat → Nat} {c : Component} {p : String}
  {ts : List Terminal} {i j : Nat}

/-- The index of the connector that the terminal means. -/
def indexOf? (g : ConnectionGraph) (t : Terminal) : Option Nat := g.index? t.component.name t.port

/-- Records of different connectors, each with its component, in the classes that `root` names. -/
structure Sound (root rank : Nat → Nat) (g : ConnectionGraph) : Prop where
  ranked : g.forest.Ranked g.size root rank
  nodup_keys : (g.records.map ConnectorRecord.key).Nodup
  nodup_names : (g.components.map Component.name).Nodup
  owner : ∀ r ∈ g.records, ∃ c ∈ g.components, c.name = r.component

theorem sound_empty : Sound id (fun _ => 0) {} where
  ranked := by
    have hfix : ∀ i, (({} : Forest).parentOf i) = i := fun i => by simp [Forest.parentOf]
    exact ⟨rfl, rfl, by simp [size], hfix, fun _ => rfl, fun hi => absurd (hfix _) hi,
      by simp [size], by simp [size]⟩
  nodup_keys := .nil
  nodup_names := .nil
  owner := by simp

theorem Sound.index?_eq_some_iff (h : Sound root rank g) {n : String} :
    g.index? n p = some i ↔ ∃ r, g.records[i]? = some r ∧ r.key = (n, p) := by
  rw [index?, List.findIdx?_eq_some_iff_getElem]
  constructor
  · rintro ⟨hi, hr, -⟩
    exact ⟨_, List.getElem?_eq_getElem hi, by simpa [ConnectorRecord.key] using hr⟩
  · rintro ⟨r, hi, hr⟩
    obtain ⟨hlt, rfl⟩ := List.getElem?_eq_some_iff.mp hi
    refine ⟨hlt, by simpa [ConnectorRecord.key] using hr, fun k hk hkr => ?_⟩
    have hkey : g.records[k].key = g.records[i].key := by
      rw [hr]
      simpa [ConnectorRecord.key] using hkr
    have hki : (g.records.map ConnectorRecord.key)[k]? = (g.records.map ConnectorRecord.key)[i]? := by
      rw [List.getElem?_map, List.getElem?_map, List.getElem?_eq_getElem hlt,
        List.getElem?_eq_getElem (hk.trans hlt), Option.map_some, Option.map_some, hkey]
    exact absurd ((List.getElem?_inj (by simpa using hk.trans hlt) h.nodup_keys).mp hki) hk.ne

theorem index?_eq_none_iff {n : String} : g.index? n p = none ↔ ∀ r ∈ g.records, r.key ≠ (n, p) := by
  simp [index?, ConnectorRecord.key]

theorem Sound.component?_eq_some_iff (h : Sound root rank g) {n : String} :
    g.component? n = some c ↔ c ∈ g.components ∧ c.name = n := by
  rw [component?]
  constructor
  · exact fun hc => ⟨List.mem_of_find?_eq_some hc, by simpa using List.find?_some hc⟩
  · rintro ⟨hc, rfl⟩
    obtain ⟨b, hb⟩ : ∃ b, g.components.find? (fun b => b.name == c.name) = some b :=
      Option.isSome_iff_exists.mp (List.find?_isSome.mpr ⟨c, hc, by simp⟩)
    rw [hb, List.inj_on_of_nodup_map h.nodup_names (List.mem_of_find?_eq_some hb) hc
      (by simpa using List.find?_some hb)]

theorem component?_eq_none_iff {n : String} :
    g.component? n = none ↔ ∀ c ∈ g.components, c.name ≠ n := by
  simp [component?]

/-! ### Registering -/

theorem port?_name {q : Port} (h : c.port? p = some q) : q.name = p := by
  simpa using List.find?_some h

/-- What comes of registering a connector: it is recorded already, or it gets a record, or it is
refused because its component lacks the port or shares its name with another one. -/
inductive Registration (c : Component) (p : String) (g : ConnectionGraph) :
    Except ModelError Nat × ConnectionGraph → Prop
  | recorded {i : Nat} : g.index? c.name p = some i → Registration c p g (.ok i, g)
  | added {q : Port} : g.index? c.name p = none → c.port? p = some q →
      (∀ b, g.component? c.name = some b → b.id = c.id) →
      Registration c p g (.ok g.size, g.push c q)
  | refused {e : ModelError} : g.index? c.name p = none →
      (c.port? p = none ∨ ∃ b, g.component? c.name = some b ∧ b.id ≠ c.id) →
      e.kind = .definition → Registration c p g (.error e, g)

theorem registration (c : Component) (p : String) (g : ConnectionGraph) :
    Registration c p g (addConnector c p g) := by
  cases hi : g.index? c.name p with
  | some i =>
    simp only [addConnector, Wiring.get_bind, hi]
    exact .recorded hi
  | none =>
    cases hq : c.port? p with
    | none =>
      simp only [addConnector, Wiring.get_bind, hi, hq]
      exact .refused hi (Or.inl hq) rfl
    | some q =>
      cases hb : (g.component? c.name).filter (fun b => b.id != c.id) with
      | none =>
        simp only [addConnector, Wiring.get_bind, hi, hq, hb, Wiring.set_bind]
        refine .added hi hq fun b hbc => ?_
        simpa [hbc] using hb
      | some b =>
        simp only [addConnector, Wiring.get_bind, hi, hq, hb]
        obtain ⟨hb, hid⟩ := Option.filter_eq_some_iff.mp hb
        exact .refused hi (Or.inr ⟨b, hb, by simpa using hid⟩) rfl

/-- `g'` has the records and components of `g`, perhaps with more behind them. -/
structure Grows (g g' : ConnectionGraph) : Prop where
  records : g.records <+: g'.records
  components : g.components <+: g'.components

theorem Grows.refl (g : ConnectionGraph) : Grows g g := ⟨List.prefix_refl _, List.prefix_refl _⟩

theorem Grows.trans {g'' : ConnectionGraph} (h : Grows g g') (h' : Grows g' g'') : Grows g g'' :=
  ⟨h.records.trans h'.records, h.components.trans h'.components⟩

theorem Grows.size_le (h : Grows g g') : g.size ≤ g'.size := h.records.length_le

theorem grows_push (g : ConnectionGraph) (c : Component) (q : Port) : Grows g (g.push c q) where
  records := List.prefix_append _ _
  components := by
    rw [ConnectionGraph.push]
    split
    · exact List.prefix_refl _
    · exact List.prefix_append _ _

theorem Sound.push (h : Sound root rank g) {q : Port} (hnew : g.index? c.name q.name = none) :
    Sound root (Function.update rank g.size 0) (g.push c q) := by
  refine ⟨?_, ?_, ?_, ?_⟩
  · have hsize : (g.push c q).size = g.size + 1 := by simp [size, ConnectionGraph.push]
    rw [hsize]
    exact h.ranked.push
  · rw [ConnectionGraph.push, List.map_append, List.nodup_append]
    refine ⟨h.nodup_keys, by simp, fun k hk l hl hkl => ?_⟩
    obtain ⟨r, hr, rfl⟩ := List.mem_map.mp hk
    obtain rfl : l = (c.name, q.name) := by simpa [ConnectorRecord.key] using hl
    exact index?_eq_none_iff.mp hnew r hr hkl
  · rw [ConnectionGraph.push]
    split
    · exact h.nodup_names
    · next hc =>
      rw [List.map_append, List.nodup_append]
      refine ⟨h.nodup_names, by simp, fun k hk l hl hkl => ?_⟩
      obtain ⟨b, hb, rfl⟩ := List.mem_map.mp hk
      obtain rfl : l = c.name := by simpa using hl
      exact component?_eq_none_iff.mp (by simpa using hc) b hb hkl
  · have hown : ∃ b ∈ (g.push c q).components, b.name = c.name := by
      rw [ConnectionGraph.push]
      split
      · next hc =>
        obtain ⟨b, hb⟩ := Option.isSome_iff_exists.mp hc
        exact ⟨b, h.component?_eq_some_iff.mp hb⟩
      · exact ⟨c, by simp, rfl⟩
    intro r hr
    rcases List.mem_append.mp hr with hr | hr
    · obtain ⟨b, hb, hbr⟩ := h.owner r hr
      exact ⟨b, (grows_push g c q).components.subset hb, hbr⟩
    · obtain rfl := List.mem_singleton.mp hr
      exact hown

/-- `g'` is what registering connectors among `ts` makes of `g`: the classes stay, and every new
connector is a class of its own. -/
structure Registered (root : Nat → Nat) (ts : List Terminal) (g g' : ConnectionGraph) : Prop where
  sound : ∃ rank, Sound root rank g'
  grows : Grows g g'
  records : ∀ r ∈ g'.records, r ∈ g.records ∨
    ∃ t ∈ ts, t.key = r.key ∧ ∃ q, t.component.port? t.port = some q
  components : ∀ c ∈ g'.components, c ∈ g.components ∨ ∃ t ∈ ts, t.component = c
  known : (∀ t ∈ ts, ∃ i, g.indexOf? t = some i) →
    g'.records = g.records ∧ g'.components = g.components

theorem Sound.indexOf?_of_grows (h : Sound root rank g) (h' : Sound root' rank' g')
    (hg : Grows g g') {t : Terminal} (hi : g.indexOf? t = some i) : g'.indexOf? t = some i := by
  obtain ⟨r, hr, hkey⟩ := h.index?_eq_some_iff.mp hi
  exact h'.index?_eq_some_iff.mpr ⟨r, getElem?_of_extends hg.records hr, hkey⟩

theorem Registered.refl (h : Sound root rank g) (ts : List Terminal) : Registered root ts g g :=
  ⟨⟨rank, h⟩, .refl g, fun _ => Or.inl, fun _ => Or.inl, fun _ => ⟨rfl, rfl⟩⟩

theorem indexOf?_congr (h : g'.records = g.records) (t : Terminal) :
    g'.indexOf? t = g.indexOf? t := by
  simp only [indexOf?, index?, h]

theorem Registered.cons {g'' : ConnectionGraph} {t : Terminal}
    (x : Registered root [t] g g') (y : Registered root ts g' g'') :
    Registered root (t :: ts) g g'' := by
  refine ⟨y.sound, x.grows.trans y.grows, fun r hr => ?_, fun c hc => ?_, fun hknown => ?_⟩
  · rcases y.records r hr with hr | ⟨u, hu, hur⟩
    · exact (x.records r hr).imp_right fun ⟨u, hu, hur⟩ =>
        ⟨u, List.mem_cons.mpr (Or.inl (List.mem_singleton.mp hu)), hur⟩
    · exact Or.inr ⟨u, List.mem_cons_of_mem _ hu, hur⟩
  · rcases y.components c hc with hc | ⟨u, hu, huc⟩
    · exact (x.components c hc).imp_right fun ⟨u, hu, huc⟩ =>
        ⟨u, List.mem_cons.mpr (Or.inl (List.mem_singleton.mp hu)), huc⟩
    · exact Or.inr ⟨u, List.mem_cons_of_mem _ hu, huc⟩
  · obtain ⟨ht, hts⟩ := List.forall_mem_cons.mp hknown
    obtain ⟨hr, hc⟩ := x.known (List.forall_mem_singleton.mpr ht)
    obtain ⟨hr', hc'⟩ := y.known fun u hu => by simpa only [indexOf?_congr hr] using hts u hu
    exact ⟨hr'.trans hr, hc'.trans hc⟩

/-- The connector cannot be registered: its component lacks the port, or shares its name with another
one. -/
def Unfit (g : ConnectionGraph) (ts : List Terminal) (t : Terminal) : Prop :=
  t.component.port? t.port = none ∨ ∃ b : Component, (b ∈ g.components ∨ ∃ u ∈ ts, u.component = b) ∧
    b.name = t.component.name ∧ b.id ≠ t.component.id

/-- A connector that is registered has the index that is returned. -/
theorem Registration.registered {t : Terminal}
    (hreg : Registration t.component t.port g (.ok i, g')) (h : Sound root rank g) :
    Registered root [t] g g' ∧ g'.indexOf? t = some i := by
  cases hreg with
  | recorded hi => exact ⟨.refl h _, hi⟩
  | @added q hnone hq _ =>
    have hport := port?_name hq
    have h' := h.push (c := t.component) (q := q) (hport ▸ hnone)
    refine ⟨⟨⟨_, h'⟩, grows_push g _ q, fun r hr => ?_, fun c hc => ?_, fun hknown => ?_⟩, ?_⟩
    · refine (List.mem_append.mp hr).imp_right fun hr => ⟨t, List.mem_singleton_self t, ?_, q, hq⟩
      rw [List.mem_singleton.mp hr, ConnectorRecord.key, Terminal.key, hport]
    · rw [ConnectionGraph.push] at hc
      dsimp only at hc
      split at hc
      · exact Or.inl hc
      · exact (List.mem_append.mp hc).imp_right fun hc =>
          ⟨t, List.mem_singleton_self t, (List.mem_singleton.mp hc).symm⟩
    · obtain ⟨i, hi⟩ := hknown t (List.mem_singleton_self t)
      exact absurd (hnone.symm.trans hi) (by simp)
    · exact h'.index?_eq_some_iff.mpr
        ⟨⟨t.component.name, q.name, q.domain, q.potential, q.flow, q.flowSign⟩,
          by simp [ConnectionGraph.push, size], by simp [ConnectorRecord.key, hport]⟩

/-- A connector that is refused is unfit, and leaves the graph as it is. -/
theorem Registration.unfit {t : Terminal} {e : ModelError}
    (hreg : Registration t.component t.port g (.error e, g')) (h : Sound root rank g) :
    g' = g ∧ e.kind = .definition ∧ g.indexOf? t = none ∧ g.Unfit [] t := by
  cases hreg with
  | refused hnone hunfit hkind =>
    refine ⟨rfl, hkind, hnone, hunfit.imp_right ?_⟩
    rintro ⟨b, hb, hid⟩
    obtain ⟨hmem, hname⟩ := h.component?_eq_some_iff.mp hb
    exact ⟨b, Or.inl hmem, hname, hid⟩

/-- The indices `is` are those of the connectors that `ts` means, each once. -/
structure Names (g : ConnectionGraph) (ts : List Terminal) (is : List Nat) : Prop where
  nodup : is.Nodup
  mem_iff : ∀ {i}, i ∈ is ↔ ∃ t ∈ ts, g.indexOf? t = some i
  named : ∀ t ∈ ts, ∃ i, g.indexOf? t = some i

/-- What comes of registering the connectors of a group. -/
inductive GroupRegistration (root : Nat → Nat) (ts : List Terminal) (g : ConnectionGraph) :
    Except ModelError (List Nat) × ConnectionGraph → Prop
  | ok {is : List Nat} {g' : ConnectionGraph} : Registered root ts g g' → Names g' ts is →
      GroupRegistration root ts g (.ok is, g')
  | refused {e : ModelError} {g' : ConnectionGraph} : Registered root ts g g' →
      e.kind = .definition → (∃ t ∈ ts, g.indexOf? t = none ∧ g.Unfit ts t) →
      GroupRegistration root ts g (.error e, g')

theorem Sound.groupRegistration (h : Sound root rank g) (ts : List Terminal) :
    GroupRegistration root ts g (addGroup ts g) := by
  induction ts generalizing g rank with
  | nil => exact .ok (.refl h _) ⟨.nil, by simp, by simp⟩
  | cons t ts ih =>
    rw [addGroup]
    have hreg := registration t.component t.port g
    rcases hrun : addConnector t.component t.port g with ⟨e | i, g'⟩ <;> rw [hrun] at hreg
    · rw [Wiring.bind_of_error hrun]
      obtain ⟨rfl, hkind, hnone, hunfit⟩ := hreg.unfit h
      exact .refused (.refl h _) hkind ⟨t, List.mem_cons_self, hnone,
        hunfit.imp_right fun ⟨b, hb, hne⟩ => ⟨b, Or.inl (hb.resolve_right (by simp)), hne⟩⟩
    · rw [Wiring.bind_of_ok hrun]
      obtain ⟨x, hi⟩ := hreg.registered h
      obtain ⟨rank', h'⟩ := x.sound
      have hgroup := ih h'
      rcases hrun' : addGroup ts g' with ⟨e | is, g''⟩ <;> rw [hrun'] at hgroup
      · rw [Wiring.bind_of_error hrun']
        cases hgroup with
        | refused y hkind hnone =>
          obtain ⟨u, hu, hnone, hunfit⟩ := hnone
          refine .refused (x.cons y) hkind ⟨u, List.mem_cons_of_mem _ hu, ?_, hunfit.imp_right ?_⟩
          · rcases hi' : g.indexOf? u with _ | k
            · rfl
            · exact absurd (hnone.symm.trans (h.indexOf?_of_grows h' x.grows hi')) (by simp)
          · rintro ⟨b, hb | ⟨v, hv, hvb⟩, hne⟩
            · refine ⟨b, (x.components b hb).imp_right fun ⟨v, hv, hvb⟩ => ?_, hne⟩
              exact ⟨v, List.mem_cons.mpr (Or.inl (List.mem_singleton.mp hv)), hvb⟩
            · exact ⟨b, Or.inr ⟨v, List.mem_cons_of_mem _ hv, hvb⟩, hne⟩
      · rw [Wiring.bind_of_ok hrun']
        cases hgroup with
        | ok y hnames =>
          obtain ⟨rank'', h''⟩ := y.sound
          have hi' := h'.indexOf?_of_grows h'' y.grows hi
          refine .ok (x.cons y) ⟨?_, ?_, ?_⟩
          · exact List.nodup_cons.mpr ⟨hnames.nodup.not_mem_erase, hnames.nodup.erase i⟩
          · intro k
            rw [List.mem_cons, List.exists_mem_cons_iff, hi', Option.some.injEq,
              ← hnames.mem_iff, hnames.nodup.mem_erase_iff]
            grind
          · exact List.forall_mem_cons.mpr ⟨⟨i, hi'⟩, hnames.named⟩

end ConnectionGraph

end Flange

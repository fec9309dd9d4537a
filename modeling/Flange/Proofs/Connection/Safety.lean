import Flange.Proofs.Connection.Classes

/-! # Safety of connections

No class mixes domains or holds two ports that their component keeps apart, and a connection is
refused for that reason only when its merged class would.
-/

namespace Flange

namespace ConnectionGraph

variable {g g' : ConnectionGraph} {root rank root' rank' : Nat → Nat} {ts : List Terminal}
  {is : List Nat} {cs : List Component} {P Q : Nat → Prop} {i : Nat}

/-- No two of the components share a name, and none keeps a port apart from itself. -/
structure Distinct (cs : List Component) : Prop where
  eq_of_name : ∀ c ∈ cs, ∀ d ∈ cs, c.name = d.name → c = d
  ports_ne : ∀ c ∈ cs, ∀ pq ∈ c.interface.exclusive, pq.1 ≠ pq.2

/-- The class of a record. -/
def InClass (root : Nat → Nat) (n i : Nat) (k : Nat) : Prop := k < n ∧ root k = root i

/-- No class holds what it must not. -/
def Safe (cs : List Component) (root : Nat → Nat) (g : ConnectionGraph) : Prop :=
  ∀ i < g.size, ¬ Conflicts cs g (InClass root g.size i)

theorem Sound.conflicts_components_iff (h : Sound root rank g) (hcs : Distinct cs)
    (hsub : ∀ c ∈ g.components, c ∈ cs) : Conflicts g.components g P ↔ Conflicts cs g P := by
  refine or_congr_right ⟨fun ⟨c, hc, hpq⟩ => ⟨c, hsub c hc, hpq⟩, ?_⟩
  rintro ⟨c, hc, pq, hpq, hp, hq⟩
  obtain ⟨i, r, -, hr, hkey⟩ := id hp
  obtain ⟨d, hd, hdr⟩ := h.owner r (List.mem_of_getElem? hr)
  obtain rfl := hcs.eq_of_name d (hsub d hd) c hc (hdr.trans (Prod.mk.inj hkey).1)
  exact ⟨d, hd, pq, hpq, hp, hq⟩

/-- A conflict among old records was there before. -/
theorem Conflicts.of_grows (h : Conflicts cs g' P) (hg : Grows g g') (hP : ∀ i, P i → i < g.size) :
    Conflicts cs g P := by
  have hold : ∀ {i r}, P i → g'.records[i]? = some r → g.records[i]? = some r := by
    intro i r hi hr
    have hlt : i < g.records.length := hP i hi
    rw [← hr, List.getElem?_eq_getElem hlt]
    exact (getElem?_of_extends hg.records (List.getElem?_eq_getElem hlt)).symm
  have hholds : ∀ {k}, g'.Holds P k → g.Holds P k := fun ⟨i, r, hi, hr, hk⟩ =>
    ⟨i, r, hi, hold hi hr, hk⟩
  rcases h with ⟨i, j, r, s, hi, hj, hr, hs, hrs⟩ | ⟨c, hc, pq, hpq, hp, hq⟩
  · exact Or.inl ⟨i, j, r, s, hi, hj, hold hi hr, hold hj hs, hrs⟩
  · exact Or.inr ⟨c, hc, pq, hpq, hholds hp, hholds hq⟩

/-- One record is no conflict. -/
theorem not_conflicts_singleton (hcs : Distinct cs) (hP : ∀ k, P k → k = i) :
    ¬ Conflicts cs g P := by
  rintro (⟨k, l, r, s, hk, hl, hr, hs, hrs⟩ | ⟨c, hc, pq, hpq, ⟨k, r, hk, hr, hkr⟩, l, s, hl, hs, hls⟩)
  · obtain rfl := hP k hk
    obtain rfl := hP l hl
    exact hrs (congrArg _ (Option.some.inj (hr.symm.trans hs)))
  · obtain rfl := hP k hk
    obtain rfl := hP l hl
    obtain rfl := Option.some.inj (hr.symm.trans hs)
    exact hcs.ports_ne c hc pq hpq (Prod.mk.inj (hkr.symm.trans hls)).2

theorem Safe.registered (hsafe : Safe cs root g) (h : Sound root rank g) (hcs : Distinct cs)
    (x : Registered root ts g g') : Safe cs root g' := by
  intro i _ hconflict
  rcases Nat.lt_or_ge i g.size with hi | hi
  · have hold : ∀ k, InClass root g'.size i k → InClass root g.size i k := by
      rintro k ⟨-, hk⟩
      refine ⟨Nat.lt_of_not_le fun hle => ?_, hk⟩
      have hlt := h.ranked.root_lt hi
      rw [← hk, h.ranked.root_of_le hle] at hlt
      omega
    exact hsafe i hi ((hconflict.of_grows x.grows fun k hk => (hold k hk).1).mono hold)
  · refine not_conflicts_singleton (i := i) hcs (fun k hk => ?_) hconflict
    have hk := hk.2
    rw [h.ranked.root_of_le hi] at hk
    rcases Nat.lt_or_ge k g.size with hlt | hge
    · have := h.ranked.root_lt hlt
      omega
    · rwa [h.ranked.root_of_le hge] at hk

theorem Safe.joined (hsafe : Safe cs root g) (hjoin : Forest.Joins root root' is)
    (hmerged : ¬ Conflicts cs g (Touched root g.size is)) : Safe cs root' g := by
  intro i hi hconflict
  by_cases ht : ∃ a ∈ is, root i = root a
  · refine hmerged (hconflict.mono fun k hk => ⟨hk.1, ?_⟩)
    rcases (hjoin k i).mp hk.2 with hki | ⟨hk, -⟩
    · rwa [hki]
    · exact hk
  · exact hsafe i hi (hconflict.mono fun k hk =>
      ⟨hk.1, ((hjoin k i).mp hk.2).resolve_right fun hboth => ht hboth.2⟩)

/-- The classes of the history are safe, and its components are among `cs`. -/
structure Guarded (cs : List Component) (root rank : Nat → Nat) (h : History) : Prop where
  tracks : Tracks root rank h
  safe : Safe cs root h.graph
  components : ∀ c ∈ h.graph.components, c ∈ cs

theorem guarded_empty : Guarded cs id (fun _ => 0) {} :=
  ⟨tracks_empty, by simp [Safe, size], by simp⟩

theorem Guarded.registered {h : History} (hg : Guarded cs root rank h) (hcs : Distinct cs)
    (hts : ∀ t ∈ ts, t.component ∈ cs) (x : Registered root ts h.graph g') :
    ∃ rank', Guarded cs root rank' { h with graph := g' } := by
  obtain ⟨rank', ht⟩ := hg.tracks.registered x
  refine ⟨rank', ht, hg.safe.registered hg.tracks.sound hcs x, fun c hc => ?_⟩
  rcases x.components c hc with hc | ⟨t, ht, rfl⟩
  · exact hg.components c hc
  · exact hts t ht

theorem Guarded.step {h : History} (hg : Guarded cs root rank h) (hcs : Distinct cs) {c : Call}
    (hc : ∀ d ∈ c.components, d ∈ cs) : ∃ root' rank', Guarded cs root' rank' (h.step c) := by
  have hchange := hg.tracks.sound.change c
  generalize h.step c = h' at hchange
  cases hchange with
  | kept hts x => exact ⟨root, hg.registered hcs (fun t ht => hc _ (hts t ht)) x⟩
  | joined hts x hnames hmerged h' hjoin =>
    obtain ⟨_, hg'⟩ := hg.registered hcs (fun t ht => hc _ (hts t ht)) x
    refine ⟨_, _, hg.tracks.joined x hnames h' hjoin, ?_, hg'.components⟩
    have hsafe := hg'.safe.joined hjoin fun hconflict =>
      hmerged ((hg'.tracks.sound.conflicts_components_iff hcs hg'.components).mpr hconflict)
    exact hsafe

theorem exists_guarded (hcs : Distinct cs) {calls : List Call}
    (hsub : ∀ c ∈ calls.flatMap Call.components, c ∈ cs) :
    ∃ root rank, Guarded cs root rank (History.after calls) := by
  suffices ∀ {h : History} {root rank}, Guarded cs root rank h →
      ∃ root' rank', Guarded cs root' rank' (calls.foldl History.step h) from this guarded_empty
  induction calls with
  | nil => exact fun hg => ⟨_, _, hg⟩
  | cons c calls ih =>
    intro h root rank hg
    rw [List.flatMap_cons, List.forall_mem_append] at hsub
    obtain ⟨root', rank', hg'⟩ := hg.step hcs hsub.1
    exact ih hsub.2 hg'

/-! ### Refusals -/

/-- The records of the class that the group would make, were it connected in `g`. -/
def Merged (g : ConnectionGraph) (ts : List Terminal) (k : Nat) : Prop :=
  k < g.size ∧ ∃ t ∈ ts, ∃ a, g.indexOf? t = some a ∧ (g.find k).1 = (g.find a).1

theorem Sound.touched_eq_merged (h : Sound root rank g) (hnames : Names g ts is) :
    Touched root g.size is = Merged g ts := by
  funext k
  simp only [Touched, Merged, h.find_eq, hnames.mem_iff]
  grind

/-- Connectors that exist can be registered. -/
theorem Guarded.not_unfit {h : History} (hg : Guarded cs root rank h) (hcs : Distinct cs)
    (hts : ∀ t ∈ ts, t.component ∈ cs) (hports : ∀ t ∈ ts, (t.component.port? t.port).isSome)
    {t : Terminal} (ht : t ∈ ts) : ¬ h.graph.Unfit ts t := by
  rintro (hnone | ⟨b, hb, hname, hid⟩)
  · have hport := hports t ht
    rw [hnone] at hport
    exact absurd hport (by simp)
  · refine hid (congrArg _ (hcs.eq_of_name b ?_ _ (hts t ht) hname))
    rcases hb with hb | ⟨u, hu, rfl⟩
    · exact hg.components b hb
    · exact hts u hu

theorem Names.two_le_length (hnames : Names g ts is) (h : Sound root rank g) {t u : Terminal}
    (ht : t ∈ ts) (hu : u ∈ ts) (htu : t.key ≠ u.key) : 2 ≤ is.length := by
  obtain ⟨i, hi⟩ := hnames.named t ht
  obtain ⟨j, hj⟩ := hnames.named u hu
  have hij : i ≠ j := fun hij => htu (h.index?_inj (k := t.key) (l := u.key) hi (hij ▸ hj))
  by_contra hlt
  have hi := hnames.mem_iff.mpr ⟨t, ht, hi⟩
  have hj := hnames.mem_iff.mpr ⟨u, hu, hj⟩
  rcases is with _ | ⟨a, _ | ⟨b, is⟩⟩
  · simp at hi
  · simp_all
  · simp at hlt

/-- Existing connectors, two or more, are refused as a connection just when their merged class
holds what it must not, and are connected otherwise. -/
theorem Guarded.connect_iff {h : History} (hg : Guarded cs root rank h) (hcs : Distinct cs)
    (hts : ∀ t ∈ ts, t.component ∈ cs) (hports : ∀ t ∈ ts, (t.component.port? t.port).isSome)
    (hne : ∃ t ∈ ts, ∃ u ∈ ts, t.key ≠ u.key) :
    ((∃ e, (connect ts h.graph).1 = .error e ∧ e.kind = .connection) ↔
      Conflicts cs (addGroup ts h.graph).2 (Merged (addGroup ts h.graph).2 ts)) ∧
    ((∃ n, (connect ts h.graph).1 = .ok n) ↔
      ¬ Conflicts cs (addGroup ts h.graph).2 (Merged (addGroup ts h.graph).2 ts)) := by
  obtain ⟨t, ht, u, hu, htu⟩ := hne
  -- what the touched classes hold in the graph where the group is registered
  have hmerged : ∀ {g' : ConnectionGraph} {is : List Nat}, addGroup ts h.graph = (.ok is, g') →
      Registered root ts h.graph g' → Names g' ts is →
      (Conflicts g'.components g' (Touched root g'.size is) ↔
        Conflicts cs (addGroup ts h.graph).2 (Merged (addGroup ts h.graph).2 ts)) := by
    intro g' is hadd x hnames
    obtain ⟨_, hg'⟩ := hg.registered hcs hts x
    have hsound : Sound root _ g' := hg'.tracks.sound
    rw [hadd, ← hsound.touched_eq_merged hnames]
    exact hsound.conflicts_components_iff hcs hg'.components
  have hcon := hg.tracks.sound.connection ts
  generalize connect ts h.graph = made at hcon ⊢
  cases hcon with
  | unregistered _ _ hunfit =>
    obtain ⟨v, hv, -, hunfit⟩ := hunfit
    exact absurd hunfit (hg.not_unfit hcs hts hports hv)
  | tooFew x hnames hlen =>
    obtain ⟨_, h'⟩ := x.sound
    have := hnames.two_le_length h' ht hu htu
    omega
  | conflicting hadd x hnames _ hconflict hkind =>
    have hconflict := (hmerged hadd x hnames).mp hconflict
    exact ⟨iff_of_true ⟨_, rfl, hkind⟩ hconflict, iff_of_false (by simp) (not_not_intro hconflict)⟩
  | joined hadd x hnames _ hno =>
    have hno := mt (hmerged hadd x hnames).mpr hno
    exact ⟨iff_of_false (by simp) hno, iff_of_true ⟨_, rfl⟩ hno⟩

/-- A connection that is refused adds connectors that are classes of their own, if any. -/
theorem Sound.classes_of_refused (h : Sound root rank g) {e : ModelError}
    (he : connect ts g = (.error e, g')) : g.records <+: g'.records ∧
      g'.classes.1 = g.classes.1 ++ (List.range (g'.size - g.size)).map fun k => [g.size + k] := by
  have x : Registered root ts g g' := by
    have hcon := h.connection ts
    rw [he] at hcon
    cases hcon with
    | unregistered x => exact x
    | tooFew x => exact x
    | conflicting _ x _ _ _ _ hf => exact x.withForest hf
  obtain ⟨_, h'⟩ := x.sound
  refine ⟨x.grows.records, ?_⟩
  have hsize : g.size + (g'.size - g.size) = g'.size := Nat.add_sub_cancel' x.grows.size_le
  rw [h.classes_eq, h'.classes_eq, ← Forest.partition_add (fun _ => h.ranked.root_lt)
    (fun _ => h.ranked.root_of_le), hsize]

/-- After any calls: no class mixes domains or holds two ports that one of its components keeps
apart. Existing connectors, two or more, are refused as a connection just when their merged class
would, and are connected otherwise. A refusal leaves the classes that were there, and each connector
that it registered is a class of its own. -/
theorem connect_keeps_apart (calls : List Call) (ts : List Terminal)
    (hcs : Distinct ((calls ++ [Call.connect ts]).flatMap Call.components)) :
    let cs := (calls ++ [Call.connect ts]).flatMap Call.components
    let g := (History.after calls).graph
    let registered := (addGroup ts g).2
    (∀ is ∈ g.classes.1, ¬ Conflicts cs g (· ∈ is)) ∧
    ((∀ t ∈ ts, (t.component.port? t.port).isSome) → (∃ t ∈ ts, ∃ u ∈ ts, t.key ≠ u.key) →
      ((∃ e, (connect ts g).1 = .error e ∧ e.kind = .connection) ↔
        Conflicts cs registered (Merged registered ts)) ∧
      ((∃ n, (connect ts g).1 = .ok n) ↔
        ¬ Conflicts cs registered (Merged registered ts))) ∧
    ∀ e g', connect ts g = (.error e, g') → g.records <+: g'.records ∧
      g'.classes.1 = g.classes.1 ++ (List.range (g'.size - g.size)).map fun k => [g.size + k] := by
  intro cs g registered
  have hcalls : ∀ c ∈ calls.flatMap Call.components, c ∈ cs := fun c hc => by
    simp only [cs, List.flatMap_append, List.mem_append, hc, true_or]
  have hts : ∀ t ∈ ts, t.component ∈ cs := fun t ht => by
    simp only [cs, List.flatMap_append, List.flatMap_singleton, List.mem_append]
    exact Or.inr (List.mem_map_of_mem ht)
  obtain ⟨root, rank, hg⟩ := exists_guarded hcs hcalls
  have h : Sound root rank g := hg.tracks.sound
  refine ⟨fun is his => ?_, hg.connect_iff hcs hts, fun e g' he => h.classes_of_refused he⟩
  rw [h.classes_eq] at his
  obtain ⟨i, hi, -, rfl⟩ := Forest.mem_partition.mp his
  exact fun hconflict => hg.safe i hi (hconflict.mono fun k hk => by simpa [InClass] using hk)

/-- A flange of a rotational component. -/
def flangeOf (c p : String) : Port where
  name := p
  domain := .rotational
  potential :=
    { name := c ++ "_" ++ p ++ "_phi", shortName := p ++ "_phi"
      symbol := .var ⟨c ++ "_" ++ p ++ "_phi", 0⟩, kind := .pot }
  flow :=
    { name := c ++ "_" ++ p ++ "_tau", shortName := p ++ "_tau"
      symbol := .var ⟨c ++ "_" ++ p ++ "_tau", 0⟩, kind := .flow }
  isFlange := true

def gear : Component where
  id := 0
  name := "gear"
  interface := Rotational.idealGear.interface
  ports := [flangeOf "gear" "flange_a", flangeOf "gear" "flange_b"]

def shaft : Component where
  id := 1
  name := "shaft"
  interface := Rotational.inertia.interface
  ports := [flangeOf "shaft" "flange_a", flangeOf "shaft" "flange_b"]

/-- The flanges of a gear meet through a shaft that the first one is connected to already. -/
theorem connect_keeps_gear_apart :
    let calls := [Call.connect [⟨gear, "flange_a"⟩, ⟨shaft, "flange_a"⟩]]
    let ts := [⟨shaft, "flange_a"⟩, ⟨gear, "flange_b"⟩]
    Distinct ((calls ++ [Call.connect ts]).flatMap Call.components) ∧
      (∀ t ∈ ts, (t.component.port? t.port).isSome) ∧ (∃ t ∈ ts, ∃ u ∈ ts, t.key ≠ u.key) ∧
      ∃ e, (connect ts (History.after calls).graph).1 = .error e ∧ e.kind = .connection := by
  intro calls ts
  have hcs : Distinct ((calls ++ [Call.connect ts]).flatMap Call.components) := by
    have hname : gear.name ≠ shaft.name := by decide
    have hpairs : gear.interface.exclusive = [("flange_a", "flange_b")] := rfl
    have hnone : shaft.interface.exclusive = [] := rfl
    constructor
    · simp [calls, ts, Call.components, hname, hname.symm]
    · simp [calls, ts, Call.components, hpairs, hnone]
  have hports : ∀ t ∈ ts, (t.component.port? t.port).isSome := by
    simp only [ts, List.forall_mem_cons]
    exact ⟨rfl, rfl, by simp⟩
  have hne : ∃ t ∈ ts, ∃ u ∈ ts, t.key ≠ u.key :=
    ⟨_, List.mem_cons_self, _, List.mem_cons_of_mem _ List.mem_cons_self, by decide⟩
  refine ⟨hcs, hports, hne, ((connect_keeps_apart calls ts hcs).2.1 hports hne).1.mpr ?_⟩
  refine Or.inr ⟨gear, List.mem_cons_self, ("flange_a", "flange_b"), List.mem_cons_self, ?_, ?_⟩
  · exact ⟨0, _, ⟨by decide, ⟨shaft, "flange_a"⟩, List.mem_cons_self, 1, rfl, rfl⟩, rfl, rfl⟩
  · exact ⟨2, _, ⟨by decide, ⟨gear, "flange_b"⟩, List.mem_cons_of_mem _ List.mem_cons_self, 2, rfl,
      rfl⟩, rfl, rfl⟩

end ConnectionGraph

end Flange

import Flange.Assembly
import Flange.Proofs.Connection.Safety

/-! # Order of connections

Connections may be made in any order, and their terminals named in any order: all are made or some
is refused, and the equations of the classes are the same.
-/

namespace Flange

namespace ConnectionGraph

variable {g g' g₁ g₂ : ConnectionGraph} {root rank root' rank' : Nat → Nat}
  {ts us : List Terminal} {is js : List Nat} {cs : List Component} {i : Nat}

/-- Every port of the components has a record. -/
def Complete (cs : List Component) (g : ConnectionGraph) : Prop :=
  ∀ t : Terminal, t.component ∈ cs → (∃ q, t.component.port? t.port = some q) →
    ∃ i, g.indexOf? t = some i

/-- A graph that calls have made; its classes are named by the roots it finds. -/
def WellFormed (g : ConnectionGraph) : Prop := ∃ rank, Sound (fun i => (g.find i).1) rank g

theorem Sound.root_eq (h : Sound root rank g) : root = fun i => (g.find i).1 :=
  funext fun i => (h.find_eq i).symm

theorem Sound.wellFormed (h : Sound root rank g) : g.WellFormed := ⟨rank, h.root_eq ▸ h⟩

/-- The two graphs have the same records in the same classes. -/
structure Alike (g g' : ConnectionGraph) : Prop where
  records : g'.records = g.records
  components : g'.components = g.components
  wellFormed : g.WellFormed
  wellFormed' : g'.WellFormed
  same : ∀ i j, (g.find i).1 = (g.find j).1 ↔ (g'.find i).1 = (g'.find j).1

theorem Alike.refl (h : g.WellFormed) : Alike g g := ⟨rfl, rfl, h, h, fun _ _ => Iff.rfl⟩

theorem Alike.trans (h : Alike g g₁) (h' : Alike g₁ g₂) : Alike g g₂ :=
  ⟨h'.records.trans h.records, h'.components.trans h.components, h.wellFormed, h'.wellFormed',
    fun i j => (h.same i j).trans (h'.same i j)⟩

theorem Complete.of_records (h : Complete cs g) (hr : g'.records = g.records) : Complete cs g' :=
  fun t ht hq => by simpa only [indexOf?_congr hr] using h t ht hq

theorem Names.of_records (h : Names g ts is) (hr : g'.records = g.records) : Names g' ts is := by
  refine ⟨h.nodup, fun {i} => ?_, fun t ht => ?_⟩
  · simpa only [indexOf?_congr hr] using h.mem_iff
  · simpa only [indexOf?_congr hr] using h.named t ht

theorem Names.of_perm (h : Names g ts is) (hp : ts.Perm us) : Names g us is := by
  refine ⟨h.nodup, fun {i} => ?_, fun t ht => h.named t (hp.mem_iff.mpr ht)⟩
  simpa only [← hp.mem_iff] using h.mem_iff

theorem Names.perm (h : Names g ts is) (h' : Names g ts js) : is.Perm js :=
  (List.perm_ext_iff_of_nodup h.nodup h'.nodup).mpr fun _ => h.mem_iff.trans h'.mem_iff.symm

/-- The records that would be one class with the listed ones. -/
def Reach (g : ConnectionGraph) (is : List Nat) (k : Nat) : Prop :=
  ∃ a ∈ is, (g.find k).1 = (g.find a).1

/-- The group can be connected. -/
def Ready (g : ConnectionGraph) (ts : List Terminal) : Prop :=
  ∃ is, Names g ts is ∧ 2 ≤ is.length ∧
    ¬ Conflicts g.components g fun k => k < g.size ∧ g.Reach is k

/-- `g'` is `g` with the group connected. -/
structure Connected (ts : List Terminal) (g g' : ConnectionGraph) : Prop where
  records : g'.records = g.records
  components : g'.components = g.components
  wellFormed : g'.WellFormed
  ready : g.Ready ts
  joined : ∀ {is}, Names g ts is → ∀ k l, (g'.find k).1 = (g'.find l).1 ↔
    (g.find k).1 = (g.find l).1 ∨ g.Reach is k ∧ g.Reach is l

theorem Complete.known (hc : Complete cs g) (h : Sound root rank g) (x : Registered root ts g g')
    (hts : ∀ t ∈ ts, t.component ∈ cs) (hnames : Names g' ts is) :
    ∀ t ∈ ts, ∃ i, g.indexOf? t = some i := by
  obtain ⟨_, h'⟩ := x.sound
  intro t ht
  obtain ⟨i, hi⟩ := hnames.named t ht
  obtain ⟨r, hr, hkey⟩ := h'.index?_eq_some_iff.mp hi
  rcases x.records r (List.mem_of_getElem? hr) with hr | ⟨u, hu, hur, hq⟩
  · obtain ⟨j, hj⟩ := List.mem_iff_getElem?.mp hr
    exact ⟨j, h.index?_eq_some_iff.mpr ⟨r, hj, hkey⟩⟩
  · obtain ⟨j, hj⟩ := hc u (hts u hu) hq
    obtain ⟨hn, hp⟩ := Prod.mk.inj (hur.trans hkey)
    exact ⟨j, by rw [indexOf?, ← hn, ← hp]; exact hj⟩

theorem conflicts_congr {P : Nat → Prop} (hr : g'.records = g.records) :
    Conflicts cs g' P ↔ Conflicts cs g P := by
  simp only [Conflicts, Mixes, Holds, hr]

/-- A group is connected just when it can be. -/
theorem Complete.connect_cases (hc : Complete cs g) (h : g.WellFormed)
    (hts : ∀ t ∈ ts, t.component ∈ cs) :
    (∃ n g', connect ts g = (.ok n, g') ∧ Connected ts g g') ∨
      (∃ e g', connect ts g = (.error e, g')) ∧ ¬ g.Ready ts := by
  obtain ⟨rank, h⟩ := h
  have hcon := h.connection ts
  generalize connect ts g = made at hcon ⊢
  cases hcon with
  | unregistered _ _ hnone =>
    refine Or.inr ⟨⟨_, _, rfl⟩, fun ⟨is, hnames, _⟩ => ?_⟩
    obtain ⟨t, ht, hnone, -⟩ := hnone
    obtain ⟨i, hi⟩ := hnames.named t ht
    exact absurd (hnone.symm.trans hi) (by simp)
  | tooFew x hnames hlen =>
    refine Or.inr ⟨⟨_, _, rfl⟩, fun ⟨is, hnames', hlen', _⟩ => ?_⟩
    have hr := (x.known hnames'.named).1
    have := (hnames.perm (hnames'.of_records hr)).length_eq
    omega
  | @conflicting _ g' is f _ _ x hnames _ hconflict =>
    refine Or.inr ⟨⟨_, _, rfl⟩, fun ⟨js, hnames', _, hno⟩ => hno ?_⟩
    obtain ⟨hr, hcs⟩ := x.known hnames'.named
    have hp := hnames.perm (hnames'.of_records hr)
    rw [hcs, conflicts_congr hr] at hconflict
    refine hconflict.mono fun k hk => ⟨?_, ?_⟩
    · simpa only [size, hr] using hk.1
    · simpa only [Reach, hp.mem_iff] using hk.2
  | @joined _ g' is f _ _ _ x hnames hlen hno h' hjoin =>
    obtain ⟨hr, hcs⟩ := x.known (hc.known h x hts hnames)
    have hnames := hnames.of_records hr.symm
    refine Or.inl ⟨_, _, rfl, hr, hcs, h'.wellFormed, ⟨is, hnames, hlen, fun hconflict => hno ?_⟩,
      fun {js} hnames' k l => ?_⟩
    · rw [hcs, conflicts_congr hr]
      refine hconflict.mono fun k hk => ⟨?_, hk.2⟩
      simpa only [size, hr] using hk.1
    · have hp := hnames.perm hnames'
      rw [h'.find_eq, h'.find_eq, hjoin k l]
      simp only [Reach, hp.mem_iff]

/-! ### Alike graphs and swapped groups -/

theorem Alike.reach_iff (h : Alike g g') (hp : is.Perm js) (k : Nat) :
    g.Reach is k ↔ g'.Reach js k := by
  simp only [Reach, hp.mem_iff, h.same]

theorem Alike.ready (h : Alike g g') (hp : ts.Perm us) (hr : g.Ready ts) : g'.Ready us := by
  obtain ⟨is, hnames, hlen, hno⟩ := hr
  refine ⟨is, (hnames.of_records h.records).of_perm hp, hlen, fun hconflict => hno ?_⟩
  rw [h.components, conflicts_congr h.records] at hconflict
  refine hconflict.mono fun k hk => ⟨?_, (h.reach_iff (.refl is) k).mpr hk.2⟩
  simpa only [size, h.records] using hk.1

theorem Alike.symm (h : Alike g g') : Alike g' g :=
  ⟨h.records.symm, h.components.symm, h.wellFormed', h.wellFormed, fun i j => (h.same i j).symm⟩

theorem Alike.connected (h : Alike g g') (hp : ts.Perm us) (hc : Connected ts g g₁)
    (hc' : Connected us g' g₂) : Alike g₁ g₂ := by
  obtain ⟨is, hnames, -⟩ := hc.ready
  refine ⟨by rw [hc'.records, h.records, hc.records],
    by rw [hc'.components, h.components, hc.components], hc.wellFormed, hc'.wellFormed,
    fun k l => ?_⟩
  rw [hc.joined hnames, hc'.joined ((hnames.of_records h.records).of_perm hp), h.same,
    h.reach_iff (.refl is), h.reach_iff (.refl is)]

/-- Records of two groups are in one class. -/
def Meet (g : ConnectionGraph) (is js : List Nat) : Prop := ∃ b ∈ js, g.Reach is b

theorem meet_comm : g.Meet is js ↔ g.Meet js is := by
  simp only [Meet, Reach]
  constructor
  · rintro ⟨b, hb, a, ha, hba⟩
    exact ⟨a, ha, b, hb, hba.symm⟩
  · rintro ⟨a, ha, b, hb, hab⟩
    exact ⟨b, hb, a, ha, hab.symm⟩

theorem Connected.reach_iff (hc : Connected ts g g₁) (hnames : Names g ts is) (k : Nat) :
    g₁.Reach js k ↔ g.Reach js k ∨ g.Reach is k ∧ g.Meet is js := by
  simp only [Reach, hc.joined hnames, Meet]
  constructor
  · rintro ⟨b, hb, hkb | ⟨hk, hb'⟩⟩
    · exact Or.inl ⟨b, hb, hkb⟩
    · exact Or.inr ⟨hk, b, hb, hb'⟩
  · rintro (⟨b, hb, hkb⟩ | ⟨hk, b, hb, hb'⟩)
    · exact ⟨b, hb, Or.inl hkb⟩
    · exact ⟨b, hb, Or.inr ⟨hk, hb'⟩⟩

/-- What can be connected after another group can be connected before it. -/
theorem Connected.ready_first (hc : Connected ts g g₁) (hr : g₁.Ready us) : g.Ready us := by
  obtain ⟨is, hnames, -⟩ := hc.ready
  obtain ⟨js, hnames', hlen, hno⟩ := hr
  refine ⟨js, hnames'.of_records hc.records.symm, hlen, fun hconflict => hno ?_⟩
  rw [hc.components, conflicts_congr hc.records]
  refine hconflict.mono fun k hk => ⟨?_, (hc.reach_iff hnames k).mpr (Or.inl hk.2)⟩
  simpa only [size, hc.records] using hk.1

/-- The first of two groups can be connected after the second. -/
theorem Connected.ready_second (hc : Connected ts g g₁) (hr : g₁.Ready us)
    (hc' : Connected us g g₂) : g₂.Ready ts := by
  obtain ⟨is, hnames, hlen, hno⟩ := hc.ready
  obtain ⟨js, hnames', -, hno'⟩ := hr
  have hnames' := hnames'.of_records hc.records.symm
  refine ⟨is, hnames.of_records hc'.records, hlen, fun hconflict => ?_⟩
  rw [hc'.components, conflicts_congr hc'.records] at hconflict
  have hlt : ∀ {k}, k < g₂.size → k < g.size := fun hk => by simpa only [size, hc'.records] using hk
  -- groups that meet make one class, which was checked when the second joined it
  by_cases hmeet : g.Meet is js
  · refine hno' ?_
    rw [hc.components, conflicts_congr hc.records]
    refine hconflict.mono fun k hk => ⟨by simpa only [size, hc.records] using hlt hk.1, ?_⟩
    rcases (hc'.reach_iff hnames' k).mp hk.2 with hk | ⟨hk, -⟩
    · exact (hc.reach_iff hnames k).mpr (Or.inr ⟨hk, hmeet⟩)
    · exact (hc.reach_iff hnames k).mpr (Or.inl hk)
  · refine hno (hconflict.mono fun k hk => ⟨hlt hk.1, ?_⟩)
    exact ((hc'.reach_iff hnames' k).mp hk.2).resolve_right fun h => hmeet (meet_comm.mp h.2)

/-- Two groups make the same classes in either order. -/
theorem Connected.alike_swap {h₁ h₂ : ConnectionGraph} (hc : Connected ts g g₁)
    (hc' : Connected us g₁ g₂) (hd : Connected us g h₁) (hd' : Connected ts h₁ h₂) :
    Alike g₂ h₂ := by
  obtain ⟨is, hnames, -⟩ := hc.ready
  obtain ⟨js, hnames', -⟩ := hd.ready
  have hcomm : g.Meet js is ↔ g.Meet is js := meet_comm
  refine ⟨by rw [hd'.records, hd.records, hc'.records, hc.records],
    by rw [hd'.components, hd.components, hc'.components, hc.components], hc'.wellFormed,
    hd'.wellFormed, fun k l => ?_⟩
  rw [hc'.joined (hnames'.of_records hc.records), hd'.joined (hnames.of_records hd.records),
    hc.joined hnames, hd.joined hnames', hc.reach_iff hnames, hc.reach_iff hnames,
    hd.reach_iff hnames', hd.reach_iff hnames', hcomm]
  by_cases hmeet : g.Meet is js
  · simp only [hmeet, and_true]
    tauto
  · simp only [hmeet, and_false, or_false]
    tauto

end ConnectionGraph

namespace Assembly

open ConnectionGraph

variable {g g' : ConnectionGraph} {ts us : List Terminal} {rest rest' : List (List Terminal)}
  {cs : List Component}

/-- Both are refused, or both make alike graphs. -/
inductive Agree : Except Failure ConnectionGraph → Except Failure ConnectionGraph → Prop
  | refused {e e' : Failure} : Agree (.error e) (.error e')
  | made {g g' : ConnectionGraph} : Alike g g' → Agree (.ok g) (.ok g')

theorem Agree.trans {x y z : Except Failure ConnectionGraph} (h : Agree x y) (h' : Agree y z) :
    Agree x z := by
  cases h with
  | refused => cases h' with | refused => exact .refused
  | made h => cases h' with | made h' => exact .made (h.trans h')

theorem connectGroups_of_ok {n : Nat} (h : connect ts g = (.ok n, g')) :
    (connectGroups (ts :: rest) g).outcome = (connectGroups rest g').outcome := by
  rw [connectGroups, wire, h]
  rfl

theorem connectGroups_of_error {e : ModelError} (h : connect ts g = (.error e, g')) :
    (connectGroups (ts :: rest) g).outcome = .error (.model e) := by
  rw [connectGroups, wire, h]
  rfl

/-- Runs agree when they begin with the same group and agree from alike graphs on. -/
theorem agree_cons (h : Alike g g') (hc : Complete cs g) (hp : ts.Perm us)
    (hts : ∀ t ∈ ts, t.component ∈ cs)
    (hrest : ∀ {g₁ g₂}, Alike g₁ g₂ → Complete cs g₁ →
      Agree (connectGroups rest g₁).outcome (connectGroups rest' g₂).outcome) :
    Agree (connectGroups (ts :: rest) g).outcome (connectGroups (us :: rest') g').outcome := by
  have hus : ∀ u ∈ us, u.component ∈ cs := fun u hu => hts u (hp.mem_iff.mpr hu)
  rcases hc.connect_cases h.wellFormed hts with ⟨n, g₁, hrun, hcon⟩ | ⟨⟨e, g₁, hrun⟩, hno⟩ <;>
    rcases (hc.of_records h.records).connect_cases h.wellFormed' hus with
      ⟨m, g₂, hrun', hcon'⟩ | ⟨⟨e', g₂, hrun'⟩, hno'⟩
  · rw [connectGroups_of_ok hrun, connectGroups_of_ok hrun']
    exact hrest (h.connected hp hcon hcon') (hc.of_records hcon.records)
  · exact absurd (h.ready hp hcon.ready) hno'
  · exact absurd (h.symm.ready hp.symm hcon'.ready) hno
  · rw [connectGroups_of_error hrun, connectGroups_of_error hrun']
    exact .refused

/-- Terminals may be named in any order. -/
theorem agree_of_forall₂ {gs gs' : List (List Terminal)} (hgs : List.Forall₂ List.Perm gs gs')
    (hcs : ∀ ts ∈ gs, ∀ t ∈ ts, t.component ∈ cs) (h : Alike g g') (hc : Complete cs g) :
    Agree (connectGroups gs g).outcome (connectGroups gs' g').outcome := by
  induction hgs generalizing g g' with
  | nil => exact .made h
  | cons hp _ ih =>
    obtain ⟨hts, hrest⟩ := List.forall_mem_cons.mp hcs
    exact agree_cons h hc hp hts fun h hc => ih hrest h hc

theorem agree_refl {gs : List (List Terminal)} (hcs : ∀ ts ∈ gs, ∀ t ∈ ts, t.component ∈ cs)
    (h : Alike g g') (hc : Complete cs g) :
    Agree (connectGroups gs g).outcome (connectGroups gs g').outcome :=
  agree_of_forall₂ (List.forall₂_same.mpr fun _ _ => .refl _) hcs h hc

theorem exists_swapped (hc : Complete cs g) (h : g.WellFormed) (hus : ∀ u ∈ us, u.component ∈ cs)
    (hcon : Connected ts g g') (hr : g'.Ready us) : ∃ h₁, Connected us g h₁ ∧ h₁.Ready ts := by
  rcases hc.connect_cases h hus with ⟨_, h₁, -, hcon'⟩ | ⟨-, hno⟩
  · exact ⟨h₁, hcon', hcon.ready_second hr hcon'⟩
  · exact absurd (hcon.ready_first hr) hno

theorem connectGroups_two (hc : Complete cs g) (h : g.WellFormed)
    (hts : ∀ t ∈ ts, t.component ∈ cs) (hus : ∀ u ∈ us, u.component ∈ cs) :
    (∃ g₁ g₂, Connected ts g g₁ ∧ Connected us g₁ g₂ ∧
      (connectGroups (ts :: us :: rest) g).outcome = (connectGroups rest g₂).outcome) ∨
    (∃ e, (connectGroups (ts :: us :: rest) g).outcome = .error e) ∧
      ∀ g₁, Connected ts g g₁ → ¬ g₁.Ready us := by
  rcases hc.connect_cases h hts with ⟨n, g₁, hrun, hcon⟩ | ⟨⟨e, g₁, hrun⟩, hno⟩
  · rw [connectGroups_of_ok hrun]
    rcases (hc.of_records hcon.records).connect_cases hcon.wellFormed hus with
      ⟨m, g₂, hrun', hcon'⟩ | ⟨⟨e, g₂, hrun'⟩, hno⟩
    · exact Or.inl ⟨g₁, g₂, hcon, hcon', connectGroups_of_ok hrun'⟩
    · refine Or.inr ⟨⟨_, connectGroups_of_error hrun'⟩, fun g₁' hcon' hr => hno ?_⟩
      exact ((Alike.refl h).connected (.refl ts) hcon' hcon).ready (.refl us) hr
  · exact Or.inr ⟨⟨_, connectGroups_of_error hrun⟩, fun g₁ hcon => absurd hcon.ready hno⟩

/-- Two groups that come first may change places. -/
theorem agree_swap (h : Alike g g') (hc : Complete cs g) (hts : ∀ t ∈ ts, t.component ∈ cs)
    (hus : ∀ u ∈ us, u.component ∈ cs) (hrest : ∀ vs ∈ rest, ∀ v ∈ vs, v.component ∈ cs) :
    Agree (connectGroups (ts :: us :: rest) g).outcome
      (connectGroups (us :: ts :: rest) g').outcome := by
  -- the groups change places on `g`; what remains is the same list on alike graphs
  refine Agree.trans ?_ (agree_refl (List.forall_mem_cons.mpr ⟨hus,
    List.forall_mem_cons.mpr ⟨hts, hrest⟩⟩) h hc)
  have hwf := h.wellFormed
  rcases connectGroups_two hc hwf hts hus with ⟨g₁, g₂, hcon, hcon', hx⟩ | ⟨⟨e, hx⟩, hno⟩ <;>
    rcases connectGroups_two hc hwf hus hts with ⟨h₁, h₂, hdon, hdon', hy⟩ | ⟨⟨e', hy⟩, hno'⟩
  · rw [hx, hy]
    exact agree_refl hrest (hcon.alike_swap hcon' hdon hdon')
      ((hc.of_records hcon.records).of_records hcon'.records)
  · obtain ⟨h₁, hdon, hr⟩ := exists_swapped hc hwf hus hcon hcon'.ready
    exact absurd hr (hno' h₁ hdon)
  · obtain ⟨g₁, hcon, hr⟩ := exists_swapped hc hwf hts hdon hdon'.ready
    exact absurd hr (hno g₁ hcon)
  · rw [hx, hy]
    exact .refused

/-- Groups may be connected in any order. -/
theorem agree_of_perm {gs gs' : List (List Terminal)} (hgs : gs.Perm gs')
    (hcs : ∀ ts ∈ gs, ∀ t ∈ ts, t.component ∈ cs) (h : Alike g g') (hc : Complete cs g) :
    Agree (connectGroups gs g).outcome (connectGroups gs' g').outcome := by
  induction hgs generalizing g g' with
  | nil => exact .made h
  | cons ts _ ih =>
    obtain ⟨hts, hrest⟩ := List.forall_mem_cons.mp hcs
    exact agree_cons h hc (.refl ts) hts fun h hc => ih hrest h hc
  | swap ts us rest =>
    obtain ⟨hus, hrest⟩ := List.forall_mem_cons.mp hcs
    obtain ⟨hts, hrest⟩ := List.forall_mem_cons.mp hrest
    exact agree_swap h hc hus hts hrest
  | trans hp _ ih ih' =>
    refine (ih hcs (.refl h.wellFormed) hc).trans (ih' ?_ h hc)
    exact fun ts hts => hcs ts (hp.mem_iff.mpr hts)

/-! ### Diagrams -/

/-- The step, when nothing refuses it, leaves the terminals with records, and merges nothing. -/
def Registers (w : Wiring Unit) (ts : List Terminal) : Prop :=
  ∀ {rank : Nat → Nat} {g g' : ConnectionGraph}, Sound id rank g → w g = (.ok (), g') →
    (∃ rank', Sound id rank' g') ∧ Grows g g' ∧ ∀ t ∈ ts, ∃ i, g'.indexOf? t = some i

theorem registers_addConnector (t : Terminal) :
    Registers (do let _ ← ConnectionGraph.addConnector t.component t.port) [t] := by
  intro rank g g' h hrun
  have hreg := registration t.component t.port g
  rcases hadd : addConnector t.component t.port g with ⟨_ | i, g₁⟩
  · rw [Wiring.bind_of_error hadd] at hrun
    exact absurd (Prod.mk.inj hrun).1 (by simp)
  · rw [Wiring.bind_of_ok hadd] at hrun
    obtain rfl : g₁ = g' := (Prod.mk.inj hrun).2
    obtain ⟨x, hi⟩ := (hadd ▸ hreg).registered h
    exact ⟨x.sound, x.grows, by simpa using ⟨_, hi⟩⟩

theorem registers_forM {α : Type} {f : α → Wiring Unit} {named : α → List Terminal}
    (hf : ∀ a, Registers (f a) (named a)) (as : List α) :
    Registers (as.forM f) (as.flatMap named) := by
  intro rank g g' h hrun
  induction as generalizing rank g with
  | nil =>
    obtain rfl : g = g' := (Prod.mk.inj hrun).2
    exact ⟨⟨rank, h⟩, .refl g, by simp⟩
  | cons a as ih =>
    change (f a >>= fun _ => as.forM f) g = _ at hrun
    rcases hfirst : f a g with ⟨_ | _, g₁⟩
    · rw [Wiring.bind_of_error hfirst] at hrun
      exact absurd (Prod.mk.inj hrun).1 (by simp)
    · rw [Wiring.bind_of_ok hfirst] at hrun
      obtain ⟨⟨rank₁, h₁⟩, hgrows, hnamed⟩ := hf a h hfirst
      obtain ⟨⟨rank', h'⟩, hgrows', hnamed'⟩ := ih h₁ hrun
      refine ⟨⟨rank', h'⟩, hgrows.trans hgrows', ?_⟩
      rw [List.flatMap_cons, List.forall_mem_append]
      refine ⟨fun t ht => ?_, hnamed'⟩
      obtain ⟨i, hi⟩ := hnamed t ht
      exact ⟨i, h₁.indexOf?_of_grows h' hgrows' hi⟩

/-- Registering all ports, when nothing refuses it, leaves each component's ports with records. -/
theorem registers_addPorts (cs : List Component) : Registers (addPorts cs)
    (cs.flatMap fun c => c.ports.flatMap fun p => [⟨c, p.name⟩]) :=
  registers_forM (fun c => registers_forM (fun p : Port =>
    registers_addConnector ⟨c, p.name⟩) c.ports) cs

theorem addPorts_complete (hrun : addPorts cs {} = (.ok (), g)) : g.WellFormed ∧ Complete cs g := by
  obtain ⟨⟨_, h⟩, -, hnamed⟩ := registers_addPorts cs sound_empty hrun
  refine ⟨h.wellFormed, fun t ht ⟨q, hq⟩ => hnamed t ?_⟩
  have hport : q.name = t.port := by simpa using List.find?_some hq
  refine List.mem_flatMap.mpr ⟨_, ht, List.mem_flatMap.mpr ⟨q, List.mem_of_find?_eq_some hq, ?_⟩⟩
  rw [hport, List.mem_singleton]

theorem outcome_connectAll (d : Diagram) : (connectAll d).outcome =
    match addPorts d.components {} with
    | (.ok _, g) => (connectGroups d.connections g).outcome
    | (.error e, _) => .error (.model e) := by
  rw [connectAll, Run.outcome_bind, wire]
  rcases addPorts d.components {} with ⟨_ | _, g⟩ <;> rfl

theorem equations_congr (h : Alike g g') : g.equations.1 = g'.equations.1 := by
  obtain ⟨_, hs⟩ := h.wellFormed
  obtain ⟨_, hs'⟩ := h.wellFormed'
  have hclasses : g.classes.1 = g'.classes.1 := by
    rw [hs.classes_eq, hs'.classes_eq, size, size, h.records]
    exact Forest.partition_congr fun i _ j _ => h.same i j
  change (g.classes.1.zipIdx.flatMap fun p => classEquations p.2 (p.1.filterMap fun i =>
    g.records[i]?)) = g'.classes.1.zipIdx.flatMap fun p => classEquations p.2 (p.1.filterMap fun i =>
    g'.records[i]?)
  rw [hclasses, h.records]

theorem outcome_identifyNodes (d : Diagram) (verbose : Bool) :
    (identifyNodes d verbose).outcome =
      (connectAll d).outcome.map fun g => g.classes.2.equations.1 := by
  rw [identifyNodes, Run.outcome_bind]
  cases (connectAll d).outcome <;> rfl

theorem alike_classes (h : Alike g g') : Alike g.classes.2 g'.classes.2 := by
  obtain ⟨_, hs⟩ := h.wellFormed
  obtain ⟨_, hs'⟩ := h.wellFormed'
  have hl := hs.withForest hs.ranked.classes.2
  have hl' := hs'.withForest hs'.ranked.classes.2
  refine ⟨h.records, h.components, hl.wellFormed, hl'.wellFormed, fun i j => ?_⟩
  have hfind : ∀ i, (g.classes.2.find i).1 = (g.find i).1 := hl.find_eq
  have hfind' : ∀ i, (g'.classes.2.find i).1 = (g'.find i).1 := hl'.find_eq
  rw [hfind, hfind, hfind', hfind', h.same]

/-- The same groups in some order, each with the same terminals in some order. -/
def Rearranged (gs gs' : List (List Terminal)) : Prop :=
  ∃ hs, gs.Perm hs ∧ List.Forall₂ List.Perm hs gs'

theorem agree_connectAll (d : Diagram) {gs : List (List Terminal)}
    (hterms : ∀ ts ∈ d.connections, ∀ t ∈ ts, t.component ∈ d.components)
    (hgs : Rearranged d.connections gs) :
    Agree (connectAll d).outcome (connectAll { d with connections := gs }).outcome := by
  rw [outcome_connectAll, outcome_connectAll]
  dsimp only
  rcases hrun : addPorts d.components {} with ⟨_ | _, g⟩
  · exact .refused
  · obtain ⟨h, hc⟩ := addPorts_complete hrun
    obtain ⟨hs, hperm, hgs⟩ := hgs
    have hterms' : ∀ ts ∈ hs, ∀ t ∈ ts, t.component ∈ d.components := fun ts hts =>
      hterms ts (hperm.mem_iff.mpr hts)
    exact (agree_of_perm hperm hterms (.refl h) hc).trans
      (agree_of_forall₂ hgs hterms' (.refl h) hc)

/-- The groups and their terminals may be given in any order: the diagram is refused in either, or
has the same equations of its connections in both. -/
theorem identifyNodes_rearranged (d : Diagram) {gs : List (List Terminal)}
    (hterms : ∀ ts ∈ d.connections, ∀ t ∈ ts, t.component ∈ d.components)
    (hgs : Rearranged d.connections gs) (verbose : Bool) :
    let x := (identifyNodes d verbose).outcome
    let y := (identifyNodes { d with connections := gs } verbose).outcome
    ((∃ e, x = .error e) ↔ ∃ e, y = .error e) ∧ ∀ eqs, x = .ok eqs ↔ y = .ok eqs := by
  intro x y
  have hagree := agree_connectAll d hterms hgs
  simp only [x, y, outcome_identifyNodes]
  generalize (connectAll d).outcome = made at hagree ⊢
  generalize (connectAll { d with connections := gs }).outcome = made' at hagree ⊢
  cases hagree with
  | refused => simp [Except.map]
  | made h => simp [Except.map, equations_congr (alike_classes h)]

/-- A shaft with a gear across it, its two connections given in two ways. -/
theorem identifyNodes_rearranged_gear :
    let d : Diagram :=
      { components := [shaft, gear]
        connections := [[⟨shaft, "flange_a"⟩, ⟨gear, "flange_a"⟩],
          [⟨gear, "flange_b"⟩, ⟨shaft, "flange_b"⟩]] }
    let gs := [[⟨shaft, "flange_b"⟩, ⟨gear, "flange_b"⟩],
      [⟨gear, "flange_a"⟩, ⟨shaft, "flange_a"⟩]]
    (∀ ts ∈ d.connections, ∀ t ∈ ts, t.component ∈ d.components) ∧ Rearranged d.connections gs ∧
      ∃ eqs, (identifyNodes d false).outcome = .ok eqs ∧
        (identifyNodes { d with connections := gs } false).outcome = .ok eqs := by
  intro d gs
  have hterms : ∀ ts ∈ d.connections, ∀ t ∈ ts, t.component ∈ d.components := by simp [d]
  have hgs : Rearranged d.connections gs :=
    ⟨_, .swap _ _ _, .cons (.swap _ _ _) (.cons (.swap _ _ _) .nil)⟩
  obtain ⟨eqs, heqs⟩ : ∃ eqs, (identifyNodes d false).outcome = .ok eqs := ⟨_, rfl⟩
  exact ⟨hterms, hgs, eqs, heqs,
    ((identifyNodes_rearranged d hterms hgs false).2 eqs).mp heqs⟩

end Assembly

end Flange

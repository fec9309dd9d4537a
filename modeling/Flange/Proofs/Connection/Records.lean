import Flange.Proofs.Connection.Order

/-! # What the records say

Every record is that of a port of some component, so that its flow enters the balances with one of
the two signs. In the graph of a diagram each port has one record, in the order of the components,
and connecting adds none.
-/

namespace Flange

/-- The record of a port. -/
def Component.record (c : Component) (p : Port) : ConnectorRecord :=
  ⟨c.name, p.name, p.domain, p.potential, p.flow, p.flowSign⟩

theorem Port.flowSign_ne_zero (p : Port) : p.flowSign ≠ 0 := by
  unfold flowSign
  split
  · decide
  · decide

namespace ConnectionGraph

variable {g g' : ConnectionGraph} {c : Component} {p : String} {q : Port} {ts : List Terminal}
  {cs : List Component} {rs ss : List ConnectorRecord}

theorem records_push : (g.push c q).records = g.records ++ [c.record q] := rfl

/-- Registering a connector changes nothing, or adds the record of its port. -/
theorem addConnector_cases (c : Component) (p : String) (g : ConnectionGraph) :
    (addConnector c p g).2 = g ∨
      ∃ q, c.port? p = some q ∧ addConnector c p g = (.ok g.size, g.push c q) := by
  have hreg := registration c p g
  generalize addConnector c p g = x at hreg
  cases hreg with
  | recorded => exact Or.inl rfl
  | refused => exact Or.inl rfl
  | added _ hq _ => exact Or.inr ⟨_, hq, rfl⟩

/-- A connection keeps the records and components that registering its group leaves. -/
theorem connect_keeps (ts : List Terminal) (g : ConnectionGraph) :
    (connect ts g).2.records = (addGroup ts g).2.records ∧
      (connect ts g).2.components = (addGroup ts g).2.components := by
  rw [connect]
  rcases hgroup : addGroup ts g with ⟨_ | is, g'⟩
  · rw [Wiring.bind_of_error hgroup]
    exact ⟨rfl, rfl⟩
  · rw [Wiring.bind_of_ok hgroup]
    rcases is with _ | ⟨i, _ | ⟨j, is⟩⟩
    · exact ⟨rfl, rfl⟩
    · exact ⟨rfl, rfl⟩
    · simp only [Wiring.get_bind, Wiring.set_bind]
      cases g'.conflict? _ <;> exact ⟨rfl, rfl⟩

/-- The records and components decide whether `P` holds, and registering a connector keeps it. -/
structure Kept (P : ConnectionGraph → Prop) : Prop where
  congr : ∀ {g g' : ConnectionGraph}, g'.records = g.records → g'.components = g.components →
    P g → P g'
  addConnector : ∀ {g : ConnectionGraph} (c : Component) (p : String), P g → P (addConnector c p g).2

namespace Kept

variable {P : ConnectionGraph → Prop} (hP : Kept P)

include hP

theorem addGroup (h : P g) (ts : List Terminal) : P (addGroup ts g).2 := by
  induction ts generalizing g with
  | nil => exact h
  | cons t ts ih =>
    have hfirst := hP.addConnector t.component t.port h
    rw [ConnectionGraph.addGroup]
    rcases hadd : ConnectionGraph.addConnector t.component t.port g with ⟨_ | i, g₁⟩ <;>
      rw [hadd] at hfirst
    · rwa [Wiring.bind_of_error hadd]
    · rw [Wiring.bind_of_ok hadd]
      have hrest := ih hfirst
      rcases hgroup : ConnectionGraph.addGroup ts g₁ with ⟨_ | is, g₂⟩ <;> rw [hgroup] at hrest
      · rwa [Wiring.bind_of_error hgroup]
      · rwa [Wiring.bind_of_ok hgroup]

theorem step {h : History} (hp : P h.graph) (call : Call) : P (h.step call).graph := by
  cases call with
  | addConnector c p => exact hP.addConnector c p hp
  | connect ts =>
    have hcon := hP.congr (connect_keeps ts h.graph).1 (connect_keeps ts h.graph).2
      (hP.addGroup hp ts)
    simp only [History.step]
    rcases hrun : ConnectionGraph.connect ts h.graph with ⟨_ | n, g'⟩ <;> rwa [hrun] at hcon
  | find i => exact hP.congr (g := h.graph) rfl rfl hp
  | classes => exact hP.congr (g := h.graph) rfl rfl hp
  | classOf c p =>
    simp only [History.step, classOf?]
    cases h.graph.index? c p with
    | none => exact hp
    | some i => exact hP.congr (g := h.graph) rfl rfl hp
  | equations => exact hP.congr (g := h.graph) rfl rfl hp

theorem foldl {h : History} (hp : P h.graph) (calls : List Call) :
    P (calls.foldl History.step h).graph := by
  induction calls generalizing h with
  | nil => exact hp
  | cons c calls ih => exact ih (hP.step hp c)

theorem after (hempty : P {}) (calls : List Call) : P (History.after calls).graph :=
  hP.foldl (h := {}) hempty calls

end Kept

/-- Every record is that of a port. -/
def Ported (g : ConnectionGraph) : Prop :=
  ∀ r ∈ g.records, ∃ c : Component, ∃ q ∈ c.ports, r = c.record q

theorem kept_ported : Kept Ported where
  congr hr _ h := by
    intro r hmem
    exact h r (hr ▸ hmem)
  addConnector {g} c p h := by
    rcases addConnector_cases c p g with hsame | ⟨q, hq, hpush⟩
    · rwa [hsame]
    · rw [hpush]
      intro r hr
      rcases List.mem_append.mp (records_push ▸ hr) with hr | hr
      · exact h r hr
      · exact ⟨c, q, List.mem_of_find?_eq_some hq, List.mem_singleton.mp hr⟩

theorem ported_after (calls : List Call) : (History.after calls).graph.Ported :=
  kept_ported.after (by simp [Ported]) calls

theorem Ported.flowSign_ne_zero (h : g.Ported) {r : ConnectorRecord} (hr : r ∈ g.records) :
    r.flowSign ≠ 0 := by
  obtain ⟨c, q, -, rfl⟩ := h r hr
  exact q.flowSign_ne_zero

end ConnectionGraph

/-! ### Diagrams -/

namespace Component

/-- No two ports have one name. -/
def PortsDiffer (c : Component) : Prop := (c.ports.map Port.name).Nodup

theorem PortsDiffer.port?_eq {c : Component} (h : c.PortsDiffer) {q : Port} (hq : q ∈ c.ports) :
    c.port? q.name = some q := by
  obtain ⟨p, hp⟩ : ∃ p, c.port? q.name = some p :=
    Option.isSome_iff_exists.mp (List.find?_isSome.mpr ⟨q, hq, by simp⟩)
  have hname : p.name = q.name := by simpa using List.find?_some hp
  rw [hp, List.inj_on_of_nodup_map h (List.mem_of_find?_eq_some hp) hq hname]

end Component

namespace Assembly

open ConnectionGraph

variable {g g' : ConnectionGraph} {c : Component} {q : Port} {cs : List Component}
  {ps : List Port} {gs : List (List Terminal)}

theorem records_addConnector (hq : c.port? q.name = some q)
    (hnew : ∀ r ∈ g.records, r.key ≠ (c.name, q.name))
    (hrun : (do let _ ← addConnector c q.name : Wiring Unit) g = (.ok (), g')) :
    g'.records = g.records ++ [c.record q] := by
  have hnone : g.index? c.name q.name = none := index?_eq_none_iff.mpr hnew
  rcases hadd : addConnector c q.name g with ⟨_ | i, g₁⟩
  · rw [Wiring.bind_of_error hadd] at hrun
    exact absurd (Prod.mk.inj hrun).1 (by simp)
  · rw [Wiring.bind_of_ok hadd] at hrun
    obtain rfl : g₁ = g' := (Prod.mk.inj hrun).2
    rcases hb : (g.component? c.name).filter (fun b => b.id != c.id) with _ | b
    · simp only [addConnector, Wiring.get_bind, hnone, hq, hb, Wiring.set_bind] at hadd
      rw [← (Prod.mk.inj hadd).2, records_push]
    · simp only [addConnector, Wiring.get_bind, hnone, hq, hb] at hadd
      exact absurd (Prod.mk.inj hadd).1 (by simp)

/-- Registering the listed ports of a component adds their records. -/
theorem records_ports (hports : ∀ q ∈ ps, c.port? q.name = some q)
    (hdistinct : (ps.map Port.name).Nodup)
    (hnew : ∀ q ∈ ps, ∀ r ∈ g.records, r.key ≠ (c.name, q.name))
    (hrun : (ps.forM fun q => do let _ ← addConnector c q.name : Wiring Unit) g = (.ok (), g')) :
    g'.records = g.records ++ ps.map c.record := by
  induction ps generalizing g with
  | nil =>
    obtain rfl : g = g' := (Prod.mk.inj hrun).2
    simp
  | cons q ps ih =>
    obtain ⟨hq, hports⟩ := List.forall_mem_cons.mp hports
    obtain ⟨hnewq, hnew⟩ := List.forall_mem_cons.mp hnew
    obtain ⟨hqs, hdistinct⟩ := List.nodup_cons.mp hdistinct
    change ((do let _ ← addConnector c q.name : Wiring Unit) >>= fun _ => ps.forM fun q => do
      let _ ← addConnector c q.name) g = _ at hrun
    rcases hfirst : (do let _ ← addConnector c q.name : Wiring Unit) g with ⟨_ | ⟨⟨⟩⟩, g₁⟩
    · rw [Wiring.bind_of_error hfirst] at hrun
      exact absurd (Prod.mk.inj hrun).1 (by simp)
    · rw [Wiring.bind_of_ok hfirst] at hrun
      have hrecords := records_addConnector hq hnewq hfirst
      rw [ih hports hdistinct ?_ hrun, hrecords, List.append_assoc]
      · rfl
      · intro p hp r hr
        rw [hrecords] at hr
        rcases List.mem_append.mp hr with hr | hr
        · exact hnew p hp r hr
        · obtain rfl := List.mem_singleton.mp hr
          intro heq
          exact hqs (List.mem_map.mpr ⟨p, hp, (Prod.mk.inj heq).2.symm⟩)

/-- Registering the ports of components of different names gives each port a record. -/
theorem records_addPorts (hports : ∀ c ∈ cs, c.PortsDiffer) (hnames : (cs.map Component.name).Nodup)
    (hnew : ∀ c ∈ cs, ∀ r ∈ g.records, r.component ≠ c.name)
    (hrun : addPorts cs g = (.ok (), g')) :
    g'.records = g.records ++ cs.flatMap fun c => c.ports.map c.record := by
  induction cs generalizing g with
  | nil =>
    obtain rfl : g = g' := (Prod.mk.inj hrun).2
    simp
  | cons c cs ih =>
    obtain ⟨hc, hports⟩ := List.forall_mem_cons.mp hports
    obtain ⟨hnewc, hnew⟩ := List.forall_mem_cons.mp hnew
    obtain ⟨hcs, hnames⟩ := List.nodup_cons.mp hnames
    change ((c.ports.forM fun q => do let _ ← addConnector c q.name : Wiring Unit) >>=
      fun _ => addPorts cs) g = _ at hrun
    rcases hfirst : (c.ports.forM fun q => do let _ ← addConnector c q.name : Wiring Unit) g with
      ⟨_ | ⟨⟨⟩⟩, g₁⟩
    · rw [Wiring.bind_of_error hfirst] at hrun
      exact absurd (Prod.mk.inj hrun).1 (by simp)
    · rw [Wiring.bind_of_ok hfirst] at hrun
      have hrecords := records_ports (fun q hq => hc.port?_eq hq) hc
        (fun q _ r hr heq => hnewc r hr (Prod.mk.inj heq).1) hfirst
      rw [ih hports hnames ?_ hrun, hrecords, List.flatMap_cons, List.append_assoc]
      intro b hb r hr
      rw [hrecords] at hr
      rcases List.mem_append.mp hr with hr | hr
      · exact hnew b hb r hr
      · obtain ⟨q, -, rfl⟩ := List.mem_map.mp hr
        intro heq
        exact hcs (List.mem_map.mpr ⟨b, hb, heq.symm⟩)

theorem records_connectGroups (hc : Complete cs g) (h : g.WellFormed)
    (hgs : ∀ ts ∈ gs, ∀ t ∈ ts, t.component ∈ cs) (hrun : (connectGroups gs g).outcome = .ok g') :
    g'.records = g.records ∧ g'.WellFormed := by
  induction gs generalizing g with
  | nil =>
    obtain rfl : g = g' := Except.ok.inj hrun
    exact ⟨rfl, h⟩
  | cons ts gs ih =>
    obtain ⟨hts, hgs⟩ := List.forall_mem_cons.mp hgs
    rcases hc.connect_cases h hts with ⟨n, g₁, hfirst, hcon⟩ | ⟨⟨e, g₁, hfirst⟩, -⟩
    · rw [connectGroups_of_ok hfirst] at hrun
      obtain ⟨hrecords, hwf⟩ := ih (hc.of_records hcon.records) hcon.wellFormed hgs hrun
      exact ⟨hrecords.trans hcon.records, hwf⟩
    · rw [connectGroups_of_error hfirst] at hrun
      exact absurd hrun (by simp)

/-- In the graph of a diagram each port has one record, in the order of the components. -/
theorem records_connectAll {d : Diagram} (hports : ∀ c ∈ d.components, c.PortsDiffer)
    (hnames : (d.components.map Component.name).Nodup)
    (hterms : ∀ ts ∈ d.connections, ∀ t ∈ ts, t.component ∈ d.components)
    (hrun : (connectAll d).outcome = .ok g) :
    g.records = (d.components.flatMap fun c => c.ports.map c.record) ∧ g.WellFormed := by
  rw [outcome_connectAll] at hrun
  rcases hadd : addPorts d.components {} with ⟨_ | ⟨⟨⟩⟩, g₀⟩ <;> rw [hadd] at hrun
  · exact absurd hrun (by simp)
  · obtain ⟨h, hc⟩ := addPorts_complete hadd
    obtain ⟨hrecords, hwf⟩ := records_connectGroups hc h hterms hrun
    refine ⟨?_, hwf⟩
    rw [hrecords, records_addPorts hports hnames (by simp) hadd]
    rfl

end Assembly

end Flange

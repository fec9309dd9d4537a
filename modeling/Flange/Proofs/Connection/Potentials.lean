import Flange.Proofs.Component.Variables
import Flange.Proofs.Connection.Power

/-! # Variables in the equations of connections

The flow of every connector occurs in the balance of its class. Its potential occurs just when the
class holds another connector, that is, when a group of the diagram joins the two.
-/

namespace Flange

/-- A group of the diagram joins the connector with another one. -/
def Diagram.Joins (d : Diagram) (k : String × String) : Prop :=
  ∃ ts ∈ d.connections, (∃ t ∈ ts, t.key = k) ∧ ∃ u ∈ ts, u.key ≠ k

instance (d : Diagram) : DecidablePred d.Joins := fun k => by
  unfold Diagram.Joins
  infer_instance

/-- The potential and the flow are functions, known by their names. -/
structure ConnectorRecord.Named (r : ConnectorRecord) : Prop where
  potential : r.potential.symbol = .var ⟨r.potential.name, 0⟩
  flow : r.flow.symbol = .var ⟨r.flow.name, 0⟩

namespace ConnectionGraph

open Flange.Expr

variable {g g' : ConnectionGraph} {root rank : Nat → Nat} {r s : ConnectorRecord}
  {rs : List ConnectorRecord} {i n : Nat} {m : String} {gs hs : List (List Terminal)}

/-! ### Classes -/

theorem mentions_append {es fs : List Equation} :
    Mentions (es ++ fs) m ↔ Mentions es m ∨ Mentions fs m := by
  simp only [Mentions, List.mem_append, or_and_right, exists_or]

theorem mentions_flatMap {α : Type} {f : α → List Equation} {as : List α} :
    Mentions (as.flatMap f) m ↔ ∃ a ∈ as, Mentions (f a) m := by
  simp only [Mentions, List.mem_flatMap]
  constructor
  · rintro ⟨e, ⟨a, ha, he⟩, hm⟩
    exact ⟨a, ha, e, he, hm⟩
  · rintro ⟨a, ha, e, he, hm⟩
    exact ⟨e, ⟨a, ha, he⟩, hm⟩

theorem equation_classEquations (n : Nat) (r : ConnectorRecord) (rs : List ConnectorRecord) :
    (classEquations n (r :: rs)).map Eqn.equation =
      rs.map (fun s => ⟨r.potential.expr, s.potential.expr⟩) ++ [⟨.zero, balance (r :: rs)⟩] := by
  rw [classEquations_cons, List.map_append, List.map_map]
  rfl

/-- The equations of a class contain its flows. -/
theorem mentions_flow (hr : r ∈ rs) (hnamed : ∀ s ∈ rs, s.Named) (hsign : r.flowSign ≠ 0)
    (hnodup : (rs.map fun s => s.flow.symbol).Nodup) :
    Mentions ((classEquations n rs).map Eqn.equation) r.flow.name := by
  obtain ⟨u, us, rfl⟩ := List.exists_cons_of_ne_nil (List.ne_nil_of_mem hr)
  refine ⟨⟨.zero, balance (u :: us)⟩, by simp [equation_classEquations], ?_⟩
  apply Equation.mem_functions_residual (l := fun _ _ => 0) fun T _ =>
    ⟨fun _ _ => denotes_zero, fun t _ => denotes_balance True (T.valuation t) (u :: us)⟩
  have hsum : ∀ x : ℝ, ((u :: us).map fun s => (s.flowSign : ℝ) *
      ((Trajectory.ramp r.flow.name x).valuation 0).symbol s.flow.symbol).sum =
        r.flowSign * x := by
    intro x
    rw [sum_flows hnodup hr, (hnamed r hr).flow]
    · simp [Valuation.symbol]
    · intro s hs hne
      rw [(hnamed s hs).flow, (hnamed r hr).flow] at hne
      rw [(hnamed s hs).flow]
      have hname : s.flow.name ≠ r.flow.name := fun heq => hne (heq ▸ rfl)
      simp [Valuation.symbol, hname]
  rw [hsum, hsum]
  simpa using hsign

theorem over_pair {a b : String} :
    (Equation.residual ⟨var ⟨a, 0⟩, var ⟨b, 0⟩⟩).Over fun f => f.name = a ∨ f.name = b :=
  within_sub (within_var.mpr (Or.inl rfl)) (within_var.mpr (Or.inr rfl))

/-- The equation of two potentials contains both of them. -/
theorem mem_functions_potentials (hr : r.Named) (hs : s.Named)
    (hne : r.potential.name ≠ s.potential.name) :
    ⟨m, 0⟩ ∈ (Equation.residual ⟨r.potential.expr, s.potential.expr⟩).functions ↔
      m = r.potential.name ∨ m = s.potential.name := by
  have hexpr : ∀ {r : ConnectorRecord}, r.Named → r.potential.expr = var ⟨r.potential.name, 0⟩ := by
    intro r hr
    rw [Quantity.expr, hr.potential, var]
  rw [hexpr hr, hexpr hs]
  constructor
  · exact fun hm => over_iff.mp over_pair _ hm
  · exact Rotational.pair_functions (v := ⟨_, 0⟩) (w := ⟨_, 0⟩) hne zero_le_one zero_le_one

/-- The balance of a class is about its flows. -/
theorem not_mentions_balance {m : String} (hnamed : ∀ s ∈ rs, s.Named)
    (hflow : ∀ s ∈ rs, s.flow.name ≠ m) : ¬ Mentions [⟨.zero, balance rs⟩] m := by
  have hover : (Equation.residual ⟨.zero, balance rs⟩).Over fun f => f.name ≠ m := by
    refine within_sub within_zero ((within_balance rs).mono ?_)
    rintro _ ⟨s, hs, rfl⟩
    rw [(hnamed s hs).flow]
    exact hflow s hs
  rintro ⟨e, he, hm⟩
  obtain rfl := List.mem_singleton.mp he
  exact over_iff.mp hover _ hm rfl

/-- The equations of a class contain the potential of each of its connectors, unless there is only
one. -/
theorem mentions_potential_iff (hnamed : ∀ s ∈ rs, s.Named) (hnodup : rs.Nodup)
    (hpotential : ∀ s ∈ rs, ∀ u ∈ r :: rs, s.potential.name = u.potential.name → s = u)
    (hflow : ∀ s ∈ rs, s.flow.name ≠ r.potential.name) :
    Mentions ((classEquations n rs).map Eqn.equation) r.potential.name ↔
      r ∈ rs ∧ ∃ s ∈ rs, s ≠ r := by
  cases rs with
  | nil => simp [Mentions, classEquations]
  | cons u us =>
    have hbalance := not_mentions_balance hnamed hflow
    obtain ⟨hu, hnodup⟩ := List.nodup_cons.mp hnodup
    have hpair : ∀ s ∈ us, (⟨r.potential.name, 0⟩ ∈
        (Equation.residual ⟨u.potential.expr, s.potential.expr⟩).functions ↔ u = r ∨ s = r) := by
      intro s hs
      have hsmem := List.mem_cons_of_mem u hs
      rw [mem_functions_potentials (hnamed u List.mem_cons_self) (hnamed s hsmem)]
      · constructor
        · exact Or.imp (fun h => hpotential u List.mem_cons_self r List.mem_cons_self h.symm)
            (fun h => hpotential s hsmem r List.mem_cons_self h.symm)
        · rintro (rfl | rfl)
          · exact Or.inl rfl
          · exact Or.inr rfl
      · intro heq
        obtain rfl := hpotential u List.mem_cons_self s (List.mem_cons_of_mem r hsmem) heq
        exact hu hs
    rw [equation_classEquations, mentions_append, or_iff_left hbalance]
    constructor
    · rintro ⟨e, he, hm⟩
      obtain ⟨s, hs, rfl⟩ := List.mem_map.mp he
      rcases (hpair s hs).mp hm with rfl | rfl
      · exact ⟨List.mem_cons_self, s, List.mem_cons_of_mem u hs, fun heq => hu (heq ▸ hs)⟩
      · exact ⟨List.mem_cons_of_mem u hs, u, List.mem_cons_self, fun heq => hu (heq ▸ hs)⟩
    · rintro ⟨hr, s, hs, hne⟩
      rcases List.mem_cons.mp hr with rfl | hr
      · have hs := (List.mem_cons.mp hs).resolve_left hne
        exact ⟨_, List.mem_map_of_mem hs, (hpair s hs).mpr (Or.inl rfl)⟩
      · exact ⟨_, List.mem_map_of_mem hr, (hpair r hr).mpr (Or.inr rfl)⟩

/-! ### All classes -/

/-- The records have variables of their own. -/
structure Unshared (rs : List ConnectorRecord) : Prop where
  named : ∀ r ∈ rs, r.Named
  nodup : (rs.flatMap fun r => [r.potential.name, r.flow.name]).Nodup

theorem Unshared.nodup_append (h : Unshared rs) :
    (rs.map (fun r => r.potential.name) ++ rs.map fun r => r.flow.name).Nodup := by
  have hperm := List.flatMap_append_perm rs (fun r => [r.potential.name]) fun r => [r.flow.name]
  rw [← List.map_eq_flatMap, ← List.map_eq_flatMap] at hperm
  exact hperm.nodup_iff.mpr h.nodup

theorem Unshared.potential_inj (h : Unshared rs) (hr : r ∈ rs) (hs : s ∈ rs)
    (heq : r.potential.name = s.potential.name) : r = s :=
  List.inj_on_of_nodup_map h.nodup_append.of_append_left hr hs heq

theorem Unshared.flow_ne_potential (h : Unshared rs) (hr : r ∈ rs) (hs : s ∈ rs) :
    r.flow.name ≠ s.potential.name := by
  intro heq
  apply List.disjoint_of_nodup_append h.nodup_append (List.mem_map_of_mem hs)
  exact List.mem_map.mpr ⟨r, hr, heq⟩

theorem Unshared.nodup_flows (h : Unshared rs) : (rs.map fun r => r.flow.symbol).Nodup := by
  have hname : rs.map (fun r => r.flow.symbol) =
      (rs.map fun r => r.flow.name).map fun n => .var ⟨n, 0⟩ := by
    rw [List.map_map]
    exact List.map_congr_left fun r hr => (h.named r hr).flow
  rw [hname]
  exact h.nodup_append.of_append_right.map fun a b heq => by simpa using heq

theorem mentions_equations : Mentions (g.equations.1.map Eqn.equation) m ↔ ∃ p ∈ g.classes.1.zipIdx,
    Mentions ((classEquations p.2 (g.recordsOf p.1)).map Eqn.equation) m := by
  rw [equations_eq, List.map_flatMap, mentions_flatMap]

theorem exists_mem_zipIdx {α : Type} {a : α} {as : List α} :
    a ∈ as ↔ ∃ p ∈ as.zipIdx, p.1 = a := by
  rw [← List.mem_map, List.zipIdx_map_fst]

theorem mem_of_mem_recordsOf {is : List Nat} (hr : r ∈ g.recordsOf is) : r ∈ g.records := by
  obtain ⟨i, -, hi⟩ := mem_recordsOf.mp hr
  exact List.mem_of_getElem? hi

theorem Sound.nodup_class (h : Sound root rank g) {is : List Nat} (his : is ∈ g.classes.1) :
    is.Nodup := by
  rw [h.classes_eq] at his
  exact (Forest.ascending_of_mem_partition his).imp Nat.ne_of_lt

/-- The class of a connector is listed. -/
theorem Sound.exists_class (h : Sound root rank g) (hi : g.records[i]? = some r) :
    ∃ p ∈ g.classes.1.zipIdx, p.1 ∈ g.classes.1 ∧ r ∈ g.recordsOf p.1 ∧
      ∀ j < g.size, root i = root j → j ∈ p.1 := by
  have hlt : i < g.size := lt_of_getElem? hi
  have hclass : ((List.range g.size).filter fun k => root k = root i) ∈ g.classes.1 := by
    rw [h.classes_eq]
    exact class_mem_partition hlt
  obtain ⟨p, hp, hpis⟩ := exists_mem_zipIdx.mp hclass
  refine ⟨p, hp, hpis ▸ hclass, ?_, ?_⟩
  · rw [hpis]
    exact mem_recordsOf.mpr ⟨i, by simpa using hlt, hi⟩
  · rintro j hj hroot
    rw [hpis]
    simpa [hroot] using hj

/-- The flow of every connector occurs. -/
theorem Sound.mentions_flow (h : Sound root rank g) (hd : Unshared g.records)
    (hsign : r.flowSign ≠ 0) (hi : g.records[i]? = some r) :
    Mentions (g.equations.1.map Eqn.equation) r.flow.name := by
  obtain ⟨p, hp, his, hmem, -⟩ := h.exists_class hi
  apply mentions_equations.mpr
  refine ⟨p, hp, ConnectionGraph.mentions_flow hmem
    (fun s hs => hd.named s (mem_of_mem_recordsOf hs)) hsign ?_⟩
  exact nodup_recordsOf hd.nodup_flows (h.nodup_class his)

/-- In the equations of a class the potential of a connector occurs when it is in the class, beside
another one. -/
theorem Sound.mentions_class (h : Sound root rank g) (hd : Unshared g.records) (hr : r ∈ g.records)
    {is : List Nat} (his : is ∈ g.classes.1) (n : Nat) :
    Mentions ((classEquations n (g.recordsOf is)).map Eqn.equation) r.potential.name ↔
      r ∈ g.recordsOf is ∧ ∃ s ∈ g.recordsOf is, s ≠ r := by
  apply ConnectionGraph.mentions_potential_iff
  · exact fun s hs => hd.named s (mem_of_mem_recordsOf hs)
  · exact (nodup_recordsOf hd.nodup_flows (h.nodup_class his)).of_map
  · intro s hs u hu heq
    refine hd.potential_inj (mem_of_mem_recordsOf hs) ?_ heq
    rcases List.mem_cons.mp hu with rfl | hu
    · exact hr
    · exact mem_of_mem_recordsOf hu
  · exact fun s hs => hd.flow_ne_potential (mem_of_mem_recordsOf hs) hr

/-- The potential of a connector occurs when its class holds another one. -/
theorem Sound.mentions_potential_iff (h : Sound root rank g) (hd : Unshared g.records)
    (hi : g.records[i]? = some r) : Mentions (g.equations.1.map Eqn.equation) r.potential.name ↔
      ∃ j < g.size, j ≠ i ∧ root i = root j := by
  have hr : r ∈ g.records := List.mem_of_getElem? hi
  have hrecords : g.records.Nodup := hd.nodup_flows.of_map
  have hindex : ∀ {j}, g.records[j]? = some r → j = i := fun hj =>
    (List.getElem?_inj (lt_of_getElem? hj) hrecords).mp (hj.trans hi.symm)
  rw [mentions_equations]
  constructor
  · rintro ⟨p, hp, hm⟩
    have his : p.1 ∈ g.classes.1 := exists_mem_zipIdx.mpr ⟨p, hp, rfl⟩
    obtain ⟨hmem, s, hs, hne⟩ := (h.mentions_class hd hr his p.2).mp hm
    obtain ⟨k, hk, hkr⟩ := mem_recordsOf.mp hmem
    obtain ⟨j, hj, hjs⟩ := mem_recordsOf.mp hs
    obtain rfl := hindex hkr
    rw [h.classes_eq] at his
    obtain ⟨hlt, hroot⟩ := (mem_class_iff his hk).mp hj
    refine ⟨j, hlt, ?_, hroot⟩
    rintro rfl
    exact hne (Option.some.inj (hjs.symm.trans hi))
  · rintro ⟨j, hlt, hne, hroot⟩
    obtain ⟨p, hp, his, hmem, hothers⟩ := h.exists_class hi
    refine ⟨p, hp, (h.mentions_class hd hr his p.2).mpr ⟨hmem, ?_⟩⟩
    have hj : g.records[j]? = some g.records[j] := List.getElem?_eq_getElem hlt
    exact ⟨g.records[j], mem_recordsOf.mpr ⟨j, hothers j hlt hroot, hj⟩,
      fun heq => hne (hindex (heq ▸ hj))⟩

/-! ### Groups -/

/-- What is related to something else by a symmetric relation has a neighbour. -/
theorem exists_neighbour {α : Type} {R : α → α → Prop} (hsymm : ∀ a b, R a b → R b a) {a b : α}
    (h : Relation.EqvGen R a b) (hne : a ≠ b) : (∃ c, c ≠ a ∧ R a c) ∧ ∃ c, c ≠ b ∧ R b c := by
  induction h with
  | rel a b h => exact ⟨⟨b, hne.symm, h⟩, a, hne, hsymm a b h⟩
  | refl => exact absurd rfl hne
  | symm a b _ ih => exact (ih hne.symm).symm
  | trans a b c _ _ ih ih' =>
    constructor
    · by_cases hab : a = b
      · subst hab
        exact (ih' hne).1
      · exact (ih hab).1
    · by_cases hbc : b = c
      · subst hbc
        exact (ih hne).2
      · exact (ih' hbc).2

/-- The class of a connector holds another one when some group joins the two. -/
theorem Tracks.exists_other_iff {h : History} (ht : Tracks root rank h)
    (hi : h.graph.records[i]? = some r) : (∃ j < h.graph.size, j ≠ i ∧ root i = root j) ↔
      ∃ k, k ≠ r.key ∧ Together h.connected r.key k := by
  have hlabel := label_of_record ht.sound hi
  constructor
  · rintro ⟨j, hlt, hne, hroot⟩
    have hj : h.graph.records[j]? = some h.graph.records[j] := List.getElem?_eq_getElem hlt
    have heqv : Relation.EqvGen (Together h.connected) r.key h.graph.records[j].key := by
      rw [ht.together, hlabel, label_of_record ht.sound hj, hroot]
    refine (exists_neighbour ?_ heqv fun heq => hne ?_).1
    · rintro k l ⟨ts, hts, hk, hl⟩
      exact ⟨ts, hts, hl, hk⟩
    · have hindex := ht.sound.index?_eq_some_iff.mpr ⟨r, hi, heq⟩
      have hindex' := ht.sound.index?_eq_some_iff.mpr ⟨_, hj, rfl⟩
      exact Option.some.inj (hindex'.symm.trans hindex)
  · rintro ⟨k, hne, htogether⟩
    have heq := (ht.together _ _).mp (.rel _ _ htogether)
    rcases hk : h.graph.index? k.1 k.2 with _ | j
    · rw [hlabel, label, hk] at heq
      exact absurd heq (by simp)
    · rw [hlabel, label_of_index? hk, Sum.inl.injEq] at heq
      refine ⟨j, ht.sound.lt_of_index? hk, ?_, heq⟩
      rintro rfl
      exact hne (ht.sound.index?_inj hk (ht.sound.index?_eq_some_iff.mpr ⟨r, hi, rfl⟩))

end ConnectionGraph

namespace Assembly

open ConnectionGraph

variable {g g' : ConnectionGraph} {root rank : Nat → Nat} {d : Diagram}
  {gs hs : List (List Terminal)}

/-- Before the first connection every connector is on its own. -/
theorem tracks_of_sound (h : Sound id rank g) : Tracks id rank ⟨g, []⟩ where
  sound := h
  together := by
    intro k l
    constructor
    · exact eq_of_eqvGen fun k l ⟨ts, hts, _⟩ => absurd hts List.not_mem_nil
    · intro heq
      suffices k = l from this ▸ .refl k
      rcases hk : g.index? k.1 k.2 with _ | i <;> rcases hl : g.index? l.1 l.2 with _ | j <;>
        simp only [label, hk, hl, Sum.inl.injEq, Sum.inr.injEq, reduceCtorEq, id_eq] at heq
      · exact heq
      · subst heq
        exact h.index?_inj hk hl

theorem exists_tracks_connectGroups (ht : Tracks root rank ⟨g, hs⟩)
    (hrun : (connectGroups gs g).outcome = .ok g') :
    ∃ root' rank', Tracks root' rank' ⟨g', gs.reverse ++ hs⟩ := by
  induction gs generalizing g hs root rank with
  | nil =>
    obtain rfl : g = g' := Except.ok.inj hrun
    exact ⟨root, rank, ht⟩
  | cons ts gs ih =>
    have hstep := ht.step (.connect ts)
    rcases hcon : connect ts g with ⟨e | n, g₁⟩
    · rw [connectGroups_of_error hcon] at hrun
      exact absurd hrun (by simp)
    · rw [connectGroups_of_ok hcon] at hrun
      simp only [History.step, hcon] at hstep
      obtain ⟨_, _, ht'⟩ := hstep
      rw [List.reverse_cons, List.append_assoc]
      exact ih ht' hrun

/-- The equations of the connections are those of a graph with a record for each port, whose classes
are joined by the groups. -/
theorem exists_graph_of_identifyNodes {verbose : Bool} {nodes : List Eqn}
    (hports : ∀ c ∈ d.components, c.PortsDiffer) (hnames : (d.components.map Component.name).Nodup)
    (hterms : ∀ ts ∈ d.connections, ∀ t ∈ ts, t.component ∈ d.components)
    (hrun : (identifyNodes d verbose).outcome = .ok nodes) :
    ∃ g root rank, nodes = g.equations.1 ∧
      g.records = (d.components.flatMap fun c => c.ports.map c.record) ∧
      Tracks root rank ⟨g, d.connections.reverse⟩ := by
  rw [outcome_identifyNodes] at hrun
  obtain ⟨g, hg, rfl⟩ := exists_of_map_ok hrun
  obtain ⟨hrecords, -⟩ := records_connectAll hports hnames hterms hg
  rw [outcome_connectAll] at hg
  rcases hadd : addPorts d.components {} with ⟨_ | ⟨⟨⟩⟩, g₀⟩ <;> rw [hadd] at hg
  · exact absurd hg (by simp)
  · obtain ⟨⟨_, h⟩, -⟩ := registers_addPorts d.components sound_empty hadd
    obtain ⟨root, rank, ht⟩ := exists_tracks_connectGroups (tracks_of_sound h) hg
    rw [List.append_nil] at ht
    obtain ⟨root', rank', ht'⟩ := ht.step .classes
    exact ⟨_, root', rank', rfl, hrecords, ht'⟩

theorem joins_iff {k : String × String} :
    d.Joins k ↔ ∃ l, l ≠ k ∧ Together d.connections.reverse k l := by
  simp only [Diagram.Joins, Together, List.mem_reverse]
  constructor
  · rintro ⟨ts, hts, hk, u, hu, hne⟩
    exact ⟨u.key, hne, ts, hts, hk, u, hu, rfl⟩
  · rintro ⟨l, hne, ts, hts, hk, u, hu, rfl⟩
    exact ⟨ts, hts, hk, u, hu, hne⟩

end Assembly

end Flange

import Flange.Proofs.Component.Power
import Flange.Proofs.Connection.Balance

/-! # The power of connections

Connections pass power without loss: where potentials agree and flows balance in every class, the
powers that enter at all ports of a diagram add up to zero.
-/

namespace Flange

/-- The power that enters at a connector: its flow, with its sign, times the rate of its
potential. -/
def ConnectorRecord.power (T : Trajectory) (t : ℝ) (r : ConnectorRecord) : ℝ :=
  r.flowSign * (T.valuation t).symbol r.flow.symbol * (T.valuation t).rate r.potential.symbol

namespace ConnectionGraph

variable {g : ConnectionGraph} {T : Trajectory} {ρ : Valuation ℝ} {t : ℝ}
  {rs : List ConnectorRecord} {e : Eqn}

/-- A balanced class passes power without loss. -/
theorem power_eq_zero_of_balanced (h : ∀ u ∈ T.domain, Balanced (T.valuation u) rs)
    (ht : t ∈ T.domain) : (rs.map (ConnectorRecord.power T t)).sum = 0 := by
  cases rs with
  | nil => rfl
  | cons r rs =>
    -- connectors of one potential move together
    have hrate : ∀ s ∈ r :: rs,
        (T.valuation t).rate s.potential.symbol = (T.valuation t).rate r.potential.symbol :=
      fun s hs => T.rate_eq (fun u hu => (h u hu).potential s hs r List.mem_cons_self) ht
        (Trajectory.hasDerivAt_symbol ht _) (Trajectory.hasDerivAt_symbol ht _)
    calc ((r :: rs).map (ConnectorRecord.power T t)).sum
        = ((r :: rs).map fun s => (s.flowSign : ℝ) * (T.valuation t).symbol s.flow.symbol *
            (T.valuation t).rate r.potential.symbol).sum := by
          rw [List.map_congr_left fun s hs => by rw [ConnectorRecord.power, hrate s hs]]
      _ = ((r :: rs).map fun s => (s.flowSign : ℝ) * (T.valuation t).symbol s.flow.symbol).sum *
            (T.valuation t).rate r.potential.symbol := List.sum_map_mul_right _ _ _
      _ = 0 := by rw [(h t ht).flow, zero_mul]

/-- The classes together have the records of the graph. -/
theorem WellFormed.records_perm (h : g.WellFormed) :
    (g.classes.1.flatMap g.recordsOf).Perm g.records := by
  obtain ⟨rank, hs⟩ := h
  have hall : g.recordsOf (List.range g.size) = g.records := by
    simpa [recordsOf, size] using filterMap_range_getElem? some g.records
  have hclasses : g.classes.1.flatMap g.recordsOf = g.recordsOf g.classes.1.flatten := by
    rw [recordsOf, List.filterMap_flatten]
    rfl
  rw [hclasses, ← hall, hs.classes_eq]
  exact (Forest.flatten_partition_perm _ g.size).filterMap _

theorem WellFormed.power_eq_zero (h : g.WellFormed)
    (hbalanced : ∀ u ∈ T.domain, ∀ is ∈ g.classes.1, Balanced (T.valuation u) (g.recordsOf is))
    (ht : t ∈ T.domain) : (g.records.map (ConnectorRecord.power T t)).sum = 0 := by
  rw [← (h.records_perm.map _).sum_eq, List.map_flatMap, List.flatMap_def, List.sum_flatten,
    List.map_map]
  refine List.sum_eq_zero fun x hx => ?_
  obtain ⟨is, his, rfl⟩ := List.mem_map.mp hx
  exact power_eq_zero_of_balanced (fun u hu => hbalanced u hu is his) ht

/-- An equation of a class is one of potentials or of flows, and both its sides have values. -/
theorem denotes_of_mem_equations (he : e ∈ g.equations.1) : (e.kind = .pot ∨ e.kind = .flow) ∧
    ∃ x y, e.equation.lhs.Denotes True ρ x ∧ e.equation.rhs.Denotes True ρ y := by
  rw [equations_eq, List.mem_flatMap] at he
  obtain ⟨p, -, he⟩ := he
  cases hrs : g.recordsOf p.1 with
  | nil => exact absurd (hrs ▸ he) List.not_mem_nil
  | cons r rs =>
    rw [hrs, classEquations_cons, List.mem_append, List.mem_map, List.mem_singleton] at he
    rcases he with ⟨s, -, rfl⟩ | rfl
    · exact ⟨Or.inl rfl, _, _, Expr.denotes_sym _, Expr.denotes_sym _⟩
    · exact ⟨Or.inr rfl, _, _, Expr.denotes_zero, denotes_balance True ρ _⟩

theorem balanced_of_equations (h : ∀ e ∈ g.equations.1, e.residual.eval ρ = 0) :
    ∀ is ∈ g.classes.1, Balanced ρ (g.recordsOf is) := by
  refine (equations_iff g).mp fun e he => ?_
  obtain ⟨-, x, y, hx, hy⟩ := denotes_of_mem_equations (ρ := ρ) he
  have hzero := (Expr.denotes_sub hx hy).eval
  rw [Equation.Holds, hx.eval, hy.eval, ← sub_eq_zero, ← hzero]
  exact h e he

end ConnectionGraph

namespace Assembly

open ConnectionGraph

variable {T : Trajectory} {t : ℝ} {d : Diagram} {nodes : List Eqn}

theorem kind_of_mem_nodes {verbose : Bool} (hrun : (identifyNodes d verbose).outcome = .ok nodes) :
    ∀ e ∈ nodes, e.kind = .pot ∨ e.kind = .flow := by
  rw [outcome_identifyNodes] at hrun
  obtain ⟨g, -, rfl⟩ := exists_of_map_ok hrun
  exact fun e he => (denotes_of_mem_equations (ρ := ⟨0, fun _ => 0, fun _ => 0⟩) he).1

/-- Along a trajectory that solves the equations of the connections, the powers that enter at the
ports of all components add up to zero. -/
theorem power_eq_zero (hports : ∀ c ∈ d.components, c.PortsDiffer)
    (hnames : (d.components.map Component.name).Nodup)
    (hterms : ∀ ts ∈ d.connections, ∀ t ∈ ts, t.component ∈ d.components) {verbose : Bool}
    (hrun : (identifyNodes d verbose).outcome = .ok nodes)
    (hT : ∀ e ∈ nodes, T.Equates e.equation) (ht : t ∈ T.domain) :
    (d.components.map fun c => (c.ports.map fun p => p.flowSign * T.portPower t p).sum).sum = 0 := by
  rw [outcome_identifyNodes] at hrun
  obtain ⟨g, hg, rfl⟩ := exists_of_map_ok hrun
  obtain ⟨hrecords, hwf⟩ := records_connectAll hports hnames hterms hg
  have hclasses : g.classes.2.WellFormed := (alike_classes (Alike.refl hwf)).wellFormed'
  have hpower := hclasses.power_eq_zero (T := T) (t := t)
    (fun u hu => balanced_of_equations fun e he => hT e he u hu) ht
  have hsame : g.classes.2.records = g.records := rfl
  rw [hsame, hrecords, List.map_flatMap, List.flatMap_def, List.sum_flatten, List.map_map] at hpower
  rw [← hpower]
  congr 1
  refine List.map_congr_left fun c _ => ?_
  rw [Function.comp_apply, List.map_map]
  congr 1
  refine List.map_congr_left fun p _ => ?_
  simp only [Function.comp_apply, ConnectorRecord.power, Component.record, Trajectory.portPower, mul_assoc]

end Assembly

end Flange

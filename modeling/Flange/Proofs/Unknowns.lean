import Flange.Proofs.Assembly
import Flange.Proofs.Connection.Potentials

/-! # Equations and unknowns of a diagram

A diagram of components of the library has as many equations as unknowns, but for the angles of the
sources of torque that are connected with nothing: each of these is in no equation.
-/

namespace Flange

namespace Assembly

variable {l : Library} {k k' : Checked} {c : Component} {q : Quantity} {cs : List Component}
  {qs : List Quantity}

/-! ### Symbols -/

/-- `k'` is `k` with the quantities `qs`, whose symbols it did not have before. -/
structure Extends (qs : List Quantity) (k k' : Checked) : Prop where
  quantities : k'.quantities = k.quantities ++ qs.map fun q => (q.symbol, q)
  nodup : (k.quantities.map Prod.fst).Nodup → (k'.quantities.map Prod.fst).Nodup

theorem extends_nil (k : Checked) : Extends [] k k := ⟨by simp, id⟩

theorem Extends.trans {rs : List Quantity} {k'' : Checked} (h : Extends qs k k')
    (h' : Extends rs k' k'') : Extends (qs ++ rs) k k'' where
  quantities := by rw [h'.quantities, h.quantities, List.map_append, List.append_assoc]
  nodup hk := h'.nodup (h.nodup hk)

theorem extends_checkQuantity (hrun : checkQuantity c k q = .ok k') : Extends [q] k k' := by
  rw [checkQuantity] at hrun
  split at hrun
  · exact absurd hrun (by simp [refuse])
  · next hnew =>
    obtain rfl := Except.ok.inj hrun
    constructor
    · rfl
    · intro hk
      rw [List.map_append, List.map_singleton]
      apply hk.append (List.nodup_singleton _)
      rw [List.disjoint_singleton]
      intro hmem
      obtain ⟨p, hp, hsymbol⟩ := List.mem_map.mp hmem
      apply hnew
      exact List.lookup_isSome_iff.mpr ⟨p, hp, by simp [hsymbol]⟩

theorem extends_checkQuantities (hrun : qs.foldlM (checkQuantity c) k = .ok k') :
    Extends qs k k' := by
  induction qs generalizing k with
  | nil =>
    obtain rfl : k = k' := Except.ok.inj hrun
    exact extends_nil k
  | cons q qs ih =>
    rw [List.foldlM_cons] at hrun
    rcases hfirst : checkQuantity c k q with e | k₁ <;> rw [hfirst] at hrun
    · exact absurd hrun (by simp [bind, Except.bind])
    · exact (extends_checkQuantity hfirst).trans (ih hrun)

theorem extends_checkComponent (hrun : checkComponent l k c = .ok k') :
    Extends c.quantities k k' := by
  rw [checkComponent] at hrun
  split at hrun
  · exact absurd hrun (by simp [refuse, bind, Except.bind])
  · rcases hfind : k.components.find? (fun b => b.name == c.name) with _ | b
    · simp only [hfind] at hrun
      rcases hvalid : c.validate with e | ⟨⟨⟩⟩ <;> rw [hvalid] at hrun
      · exact absurd hrun (by simp [bind, Except.bind])
      · have h := extends_checkQuantities (k := { k with components := k.components ++ [c] }) hrun
        exact ⟨h.quantities, h.nodup⟩
    · simp only [hfind] at hrun
      exact absurd hrun (by simp [refuse])

theorem extends_checkComponents (hrun : cs.foldlM (checkComponent l) k = .ok k') :
    Extends (cs.flatMap Component.quantities) k k' := by
  induction cs generalizing k with
  | nil =>
    obtain rfl : k = k' := Except.ok.inj hrun
    exact extends_nil k
  | cons c cs ih =>
    rw [List.foldlM_cons] at hrun
    rcases hfirst : checkComponent l k c with e | k₁ <;> rw [hfirst] at hrun
    · exact absurd hrun (by simp [bind, Except.bind])
    · rw [List.flatMap_cons]
      exact (extends_checkComponent hfirst).trans (ih hrun)

/-- No two quantities of a checked diagram share a symbol. -/
theorem nodup_symbols (hrun : check l cs = .ok k) :
    ((cs.flatMap Component.quantities).map Quantity.symbol).Nodup := by
  obtain ⟨k₀, hfold, -⟩ := exists_of_check hrun
  have h := extends_checkComponents hfold
  have hnodup := h.nodup .nil
  rwa [h.quantities, List.nil_append, List.map_map] at hnodup

end Assembly

/-! ### Variables of the components -/

namespace Component

variable {c : Component}

/-- The equations of a valid component contain functions of its own only. -/
theorem declares_of_validate (h : c.validate = .ok ()) :
    ∀ e ∈ c.equations, ∀ s ∈ e.equation.symbols, c.declares s := by
  have hfault : c.fault? = none := by
    rw [validate] at h
    split at h
    · exact absurd h (by simp)
    · assumption
  rw [fault?] at hfault
  split at hfault
  · exact absurd hfault (by simp)
  · split at hfault
    · exact absurd hfault (by simp)
    · split at hfault
      · exact absurd hfault (by simp)
      · split at hfault
        · exact absurd hfault (by simp)
        · next hfind =>
          intro e he s hs
          have hnone : c.undeclared e.equation = [] := by
            simpa using List.find?_eq_none.mp hfind e he
          by_contra hnot
          have hmem : s ∈ c.undeclared e.equation := by
            rw [undeclared, mem_sortSymbols, List.mem_filter]
            exact ⟨hs, by simpa using hnot⟩
          rw [hnone] at hmem
          exact absurd hmem List.not_mem_nil

theorem exists_quantity_of_declares {f : Var} (h : c.declares (.var f)) :
    ∃ q ∈ c.quantities, q.symbol = .var f := by
  simpa [declares] using h

/-- The symbols of the equations of a valid component are declared. -/
theorem within_of_validate (h : c.validate = .ok ()) :
    ∀ e ∈ c.equations, e.residual.Within fun s => c.declares s.base := by
  intro e he
  have hsymbols := declares_of_validate h e he
  apply Expr.within_sub
  · intro s hs
    apply hsymbols
    simpa [Equation.symbols, Expr.symbols] using Or.inl ⟨s, hs, rfl⟩
  · intro s hs
    apply hsymbols
    simpa [Equation.symbols, Expr.symbols] using Or.inr ⟨s, hs, rfl⟩

theorem exists_quantity_of_mentions (h : c.validate = .ok ()) {m : String}
    (hm : Mentions (c.equations.map Eqn.equation) m) :
    ∃ q ∈ c.quantities, q.symbol = .var ⟨m, 0⟩ := by
  obtain ⟨q, hq, hf⟩ := hm
  obtain ⟨e, he, rfl⟩ := List.mem_map.mp hq
  obtain ⟨v, hv, hbase⟩ := Expr.mem_functions.mp hf
  exact exists_quantity_of_declares (hbase ▸ within_of_validate h e he _ (Expr.mem_vars.mp hv))

end Component

theorem Quantity.Plain.symbol_eq {q : Quantity} (h : q.Plain) (hkind : q.kind ≠ .param) :
    q.symbol = .var ⟨q.name, 0⟩ := by
  rw [h.symbol]
  cases hk : q.kind <;> simp_all [symbolFor]

namespace Assembly

variable {d : Diagram} {k : Checked} {eqs : List Eqn}

/-! ### Equations -/

/-- The system of a diagram that is not refused has, in some order, the equations of a graph with a
record for each port, whose classes are joined by the groups, and those of the components. -/
theorem exists_graph_of_assemble {verbose : Bool} {s : EquationSystem}
    (hports : ∀ c ∈ d.components, c.PortsDiffer)
    (hterms : ∀ ts ∈ d.connections, ∀ t ∈ ts, t.component ∈ d.components)
    (hs : (assemble l d verbose).outcome = .ok s) :
    ∃ root rank g k eqs, check l d.components = .ok k ∧
      g.records = (d.components.flatMap fun c => c.ports.map c.record) ∧
      ConnectionGraph.Tracks root rank ⟨g, d.connections.reverse⟩ ∧ s = systemOf d k eqs ∧
      eqs.Perm (g.equations.1 ++ d.components.flatMap Component.equations) := by
  obtain ⟨k, nodes, hk, hnodes, rfl⟩ := assemble_ok hs
  obtain ⟨hnames, -⟩ := check_ok hk
  have hkind := kind_of_mem_nodes hnodes
  obtain ⟨g, root, rank, rfl, hrecords, htracks⟩ :=
    exists_graph_of_identifyNodes hports hnames hterms hnodes
  refine ⟨root, rank, g, k, _, hk, hrecords, htracks, rfl, ?_⟩
  -- every equation of a connection is of exactly one of the two kinds
  have hflows : (g.equations.1.filter fun e => e.kind == .flow) =
      g.equations.1.filter fun e => !(e.kind == .pot) := by
    apply List.filter_congr
    intro e he
    rcases hkind e he with h | h <;> rw [h] <;> rfl
  rw [hflows]
  exact (List.filter_append_perm _ _).append_right _

theorem length_equations_eq {g : ConnectionGraph} {root rank : Nat → Nat}
    (hrecords : g.records = d.components.flatMap fun c => c.ports.map c.record)
    (h : ConnectionGraph.Sound root rank g) :
    (g.equations.1 ++ d.components.flatMap Component.equations).length =
      (d.components.map fun c => c.ports.length + c.equations.length).sum := by
  rw [List.length_append, h.length_equations, ConnectionGraph.size, hrecords, List.length_flatMap,
    List.length_flatMap, ← List.sum_map_add]
  simp

/-! ### Counting -/

theorem mem_used_iff {m : String} :
    (((eqs.map Eqn.residual).flatMap Expr.functions).eraseDups.contains ⟨m, 0⟩) = true ↔
      Mentions (eqs.map Eqn.equation) m := by
  simp [Mentions, Eqn.residual]

/-- The unknowns are the variables that some equation contains. -/
theorem length_unknowns (hplain : ∀ c ∈ d.components, c.Plain) :
    (systemOf d k eqs).unknowns.length =
      ((d.components.flatMap Component.variables).map Quantity.name).countP
        fun m => Mentions (eqs.map Eqn.equation) m := by
  have hfilter : d.components.flatMap Component.variables =
      (d.components.flatMap Component.quantities).filter
        fun q => q.kind != .param && q.kind != .inp := by
    rw [List.filter_flatMap]
    rfl
  rw [hfilter, systemOf, List.length_filterMap_eq_countP, List.countP_filter, liveQuantities,
    List.countP_filter, List.countP_map, List.countP_filter]
  apply List.countP_congr
  intro q hq
  obtain ⟨c, hc, hqc⟩ := List.mem_flatMap.mp hq
  by_cases hkind : q.kind = .param
  · simp [hkind]
  · have hused : (((eqs.map Eqn.residual).flatMap Expr.functions).eraseDups.contains
        ⟨q.name, 0⟩) = true ↔ Mentions (eqs.map Eqn.equation) q.name := mem_used_iff
    rw [(hplain c hc q hqc).symbol_eq hkind, Symbol.var?]
    simp only [Function.comp_apply, Option.isSome_some, Option.map_some, Option.getD_some,
      Bool.true_and, Bool.and_eq_true, decide_eq_true_eq, hused]
    tauto

/-- Where all inner variables and flows occur, only potentials may be missing. -/
theorem countP_variableNames {M : String → Bool} {n t : String} {ps : List Port}
    (hinner : ∀ key ∈ Rotational.innerKeys t, M (n ++ "_" ++ key))
    (hflow : ∀ p ∈ ps, M p.flow.name) :
    (Rotational.variableNames n t ps).countP M + ps.countP (fun p => !M p.potential.name) =
      2 * ps.length + (Rotational.innerKeys t).length := by
  have hkeys : ((Rotational.innerKeys t).map fun key => n ++ "_" ++ key).countP M =
      (Rotational.innerKeys t).length := by
    rw [List.countP_map, List.countP_eq_length]
    exact hinner
  have hports : (ps.flatMap fun p => [p.potential.name, p.flow.name]).countP M +
      ps.countP (fun p => !M p.potential.name) = 2 * ps.length := by
    induction ps with
    | nil => rfl
    | cons p ps ih =>
      obtain ⟨hp, hps⟩ := List.forall_mem_cons.mp hflow
      have ih := ih hps
      rw [List.flatMap_cons, List.countP_append, List.countP_cons, List.countP_cons,
        List.countP_cons, List.countP_nil, if_pos hp, List.length_cons]
      cases M p.potential.name <;> simp <;> omega
  rw [Rotational.variableNames, List.countP_append, hkeys]
  omega

end Assembly

namespace Rotational

open Assembly ConnectionGraph

variable {l : Library} {d : Diagram} {verbose : Bool} {s : EquationSystem} {g : ConnectionGraph}
  {root rank : Nat → Nat} {c : Component} {p : Port} {eqs : List Eqn}

/-! ### Diagrams -/

/-- The ports of sources of torque that no group joins with another connector. -/
def freePorts (d : Diagram) : List Port :=
  d.components.flatMap fun c => c.ports.filter fun p =>
    c.interface.template ∈ driveTemplates ∧ ¬ d.Joins (c.name, p.name)

/-- The components of the diagram have passed all checks, and the graph `g` has their ports in the
classes that the groups make. -/
structure Wired (root rank : Nat → Nat) (g : ConnectionGraph) (d : Diagram) : Prop where
  shaped : ∀ c ∈ d.components, Shaped c
  valid : ∀ c ∈ d.components, c.validate = .ok ()
  symbols : ((d.components.flatMap Component.quantities).map Quantity.symbol).Nodup
  records : g.records = d.components.flatMap fun c => c.ports.map c.record
  tracks : Tracks root rank ⟨g, d.connections.reverse⟩

theorem wired_of_assemble (hbuilt : ∀ c ∈ d.components, Built c)
    (hterms : ∀ ts ∈ d.connections, ∀ t ∈ ts, t.component ∈ d.components)
    (hs : (assemble l d verbose).outcome = .ok s) : ∃ root rank g k eqs, Wired root rank g d ∧
      s = systemOf d k eqs ∧
      eqs.Perm (g.equations.1 ++ d.components.flatMap Component.equations) := by
  have hshaped : ∀ c ∈ d.components, Shaped c := fun c hc => (hbuilt c hc).shaped
  obtain ⟨root, rank, g, k, eqs, hk, hrecords, htracks, rfl, hperm⟩ := exists_graph_of_assemble
    (fun c hc => (hshaped c hc).shape.ports.1) hterms hs
  obtain ⟨-, hvalid, -⟩ := check_ok hk
  exact ⟨root, rank, g, k, eqs, ⟨hshaped, hvalid, nodup_symbols hk, hrecords, htracks⟩, rfl, hperm⟩

namespace Wired

theorem symbol_of_variable (h : Wired root rank g d) (hc : c ∈ d.components) {q : Quantity}
    (hq : q ∈ c.variables) : q.symbol = .var ⟨q.name, 0⟩ := by
  obtain ⟨hqc, hkind⟩ := List.mem_filter.mp hq
  apply ((h.shaped c hc).plain q hqc).symbol_eq
  rintro hparam
  simp [hparam] at hkind

theorem nodup_variables (h : Wired root rank g d) :
    ((d.components.flatMap Component.variables).map Quantity.name).Nodup := by
  have hsub : (d.components.flatMap Component.variables).Sublist
      (d.components.flatMap Component.quantities) :=
    List.Sublist.flatMap_right _ fun c _ => List.filter_sublist
  have hsymbols := h.symbols.sublist (hsub.map Quantity.symbol)
  have hnames : (d.components.flatMap Component.variables).map Quantity.symbol =
      ((d.components.flatMap Component.variables).map Quantity.name).map fun n => .var ⟨n, 0⟩ := by
    rw [List.map_map]
    apply List.map_congr_left
    intro q hq
    obtain ⟨c, hc, hqc⟩ := List.mem_flatMap.mp hq
    exact h.symbol_of_variable hc hqc
  exact (hnames ▸ hsymbols).of_map

theorem named (h : Wired root rank g d) : ∀ r ∈ g.records, r.Named := by
  rw [h.records]
  intro r hr
  obtain ⟨c, hc, hr⟩ := List.mem_flatMap.mp hr
  obtain ⟨p, hp, rfl⟩ := List.mem_map.mp hr
  obtain ⟨port, o, rfl⟩ := (h.shaped c hc).shape.exists_flange p hp
  exact ⟨rfl, rfl⟩

theorem unshared (h : Wired root rank g d) : Unshared g.records where
  named := h.named
  nodup := by
    have hvariables := h.nodup_variables
    rw [List.map_flatMap] at hvariables
    refine List.Nodup.sublist ?_ hvariables
    rw [h.records, List.flatMap_assoc]
    apply List.Sublist.flatMap_right
    intro c hc
    rw [(h.shaped c hc).named, variableNames, List.flatMap_map]
    exact List.sublist_append_left _ _

theorem record_mem (h : Wired root rank g d) (hc : c ∈ d.components) (hp : p ∈ c.ports) :
    c.record p ∈ g.records := by
  rw [h.records]
  exact List.mem_flatMap.mpr ⟨c, hc, List.mem_map_of_mem hp⟩

theorem mentions_flow (h : Wired root rank g d) (hc : c ∈ d.components) (hp : p ∈ c.ports) :
    Mentions (g.equations.1.map Eqn.equation) p.flow.name := by
  obtain ⟨i, hi⟩ := List.mem_iff_getElem?.mp (h.record_mem hc hp)
  exact h.tracks.sound.mentions_flow h.unshared p.flowSign_ne_zero hi

theorem mentions_joined (h : Wired root rank g d) (hc : c ∈ d.components) (hp : p ∈ c.ports) :
    Mentions (g.equations.1.map Eqn.equation) p.potential.name ↔ d.Joins (c.name, p.name) := by
  obtain ⟨i, hi⟩ := List.mem_iff_getElem?.mp (h.record_mem hc hp)
  have hiff := h.tracks.sound.mentions_potential_iff h.unshared hi
  rw [joins_iff]
  exact hiff.trans (h.tracks.exists_other_iff hi)

/-- The angle of a port occurs in the equations of no other component. -/
theorem eq_of_mentions (h : Wired root rank g d) {b : Component} (hb : b ∈ d.components)
    (hc : c ∈ d.components) (hp : p ∈ c.ports)
    (hm : Mentions (b.equations.map Eqn.equation) p.potential.name) : b = c := by
  obtain ⟨q, hq, hsymbol⟩ := Component.exists_quantity_of_mentions (h.valid b hb) hm
  have hname : p.potential.name ∈ c.variables.map Quantity.name := by
    rw [(h.shaped c hc).named, variableNames]
    apply List.mem_append_left
    exact List.mem_flatMap.mpr ⟨p, hp, List.mem_cons_self⟩
  obtain ⟨u, hu, hname⟩ := List.mem_map.mp hname
  have hshared : q.symbol = u.symbol := by rw [hsymbol, h.symbol_of_variable hc hu, hname]
  by_contra hne
  have hsymbols := h.symbols
  rw [List.map_flatMap, List.nodup_flatMap] at hsymbols
  have hsymm : Std.Symm (Function.onFun List.Disjoint
      fun c : Component => c.quantities.map Quantity.symbol) := ⟨fun _ _ h => h.symm⟩
  apply hsymbols.2.forall hb hc hne (List.mem_map_of_mem hq)
  exact List.mem_map.mpr ⟨u, (List.mem_filter.mp hu).1, hshared.symm⟩

/-- The angle of a port is missing from all equations just when the port is one of a source of torque
that nothing is joined with. -/
theorem mentions_potential_iff (h : Wired root rank g d) (hc : c ∈ d.components)
    (hp : p ∈ c.ports) :
    Mentions ((g.equations.1 ++ d.components.flatMap Component.equations).map Eqn.equation)
        p.potential.name ↔
      ¬ (c.interface.template ∈ driveTemplates ∧ ¬ d.Joins (c.name, p.name)) := by
  rw [List.map_append, mentions_append, h.mentions_joined hc hp, List.map_flatMap, mentions_flatMap]
  have hshape := (h.shaped c hc).shape
  have hown : (∃ b ∈ d.components, Mentions (b.equations.map Eqn.equation) p.potential.name) ↔
      c.interface.template ∉ driveTemplates := by
    constructor
    · rintro ⟨b, hb, hm⟩ hdrive
      obtain rfl := h.eq_of_mentions hb hc hp hm
      exact hshape.not_mentions_angles hdrive p hp hm
    · exact fun hdrive => ⟨c, hc, hshape.mentions_angles hdrive p hp⟩
  rw [hown]
  tauto

end Wired

theorem freePorts_eq_nil (h : ∀ c ∈ d.components, c.interface.template ∈ driveTemplates →
    ∀ p ∈ c.ports, d.Joins (c.name, p.name)) : freePorts d = [] := by
  apply List.flatMap_eq_nil_iff.mpr
  intro c hc
  apply List.filter_eq_nil_iff.mpr
  intro p hp
  simpa using fun hdrive => h c hc hdrive p hp

theorem Wired.length_unknowns (h : Wired root rank g d) {k : Checked}
    (hperm : eqs.Perm (g.equations.1 ++ d.components.flatMap Component.equations)) :
    (systemOf d k eqs).unknowns.length + (freePorts d).length =
      (d.components.map fun c => c.ports.length + c.equations.length).sum := by
  have hmentions : ∀ m, Mentions (eqs.map Eqn.equation) m ↔
      Mentions ((g.equations.1 ++ d.components.flatMap Component.equations).map Eqn.equation) m :=
    fun m => by simp only [Mentions, (hperm.map Eqn.equation).mem_iff]
  rw [Assembly.length_unknowns fun c hc => (h.shaped c hc).plain, List.map_flatMap,
    List.countP_flatMap, freePorts, List.length_flatMap, ← List.sum_map_add]
  congr 1
  apply List.map_congr_left
  intro c hc
  have hshape := (h.shaped c hc).shape
  have hlength := hshape.length
  rw [List.length_map] at hlength
  have hfree : (c.ports.filter fun p =>
      c.interface.template ∈ driveTemplates ∧ ¬ d.Joins (c.name, p.name)).length =
        c.ports.countP fun p => !decide (Mentions (eqs.map Eqn.equation) p.potential.name) := by
    rw [← List.countP_eq_length_filter]
    apply List.countP_congr
    intro p hp
    simp only [Bool.not_eq_true', decide_eq_false_iff_not, decide_eq_true_eq, hmentions,
      h.mentions_potential_iff hc hp, not_not]
  rw [Function.comp_apply, (h.shaped c hc).named, hfree, countP_variableNames]
  · omega
  · intro key hkey
    rw [decide_eq_true_eq, hmentions, List.map_append, mentions_append, List.map_flatMap,
      mentions_flatMap]
    exact Or.inr ⟨c, hc, hshape.mentions_inner key hkey⟩
  · intro p hp
    rw [decide_eq_true_eq, hmentions, List.map_append, mentions_append]
    exact Or.inl (h.mentions_flow hc hp)

/-- A diagram of components of the library has as many equations as unknowns, and one more for each
port of a source of torque that no group joins with another connector. -/
theorem length_exprs_eq (hbuilt : ∀ c ∈ d.components, Built c)
    (hterms : ∀ ts ∈ d.connections, ∀ t ∈ ts, t.component ∈ d.components)
    (hs : (assemble l d verbose).outcome = .ok s) :
    s.exprs.length = s.unknowns.length + (freePorts d).length ∧
      ((∀ c ∈ d.components, c.interface.template ∈ driveTemplates →
        ∀ p ∈ c.ports, d.Joins (c.name, p.name)) → s.exprs.length = s.unknowns.length) := by
  obtain ⟨root, rank, g, k, eqs, h, rfl, hperm⟩ := wired_of_assemble hbuilt hterms hs
  have hexprs : (systemOf d k eqs).exprs.length = eqs.length := List.length_map ..
  have hlength : (systemOf d k eqs).exprs.length =
      (systemOf d k eqs).unknowns.length + (freePorts d).length := by
    rw [h.length_unknowns hperm, hexprs, hperm.length_eq,
      length_equations_eq h.records h.tracks.sound]
  constructor
  · exact hlength
  · intro hjoined
    rw [hlength, freePorts_eq_nil hjoined, List.length_nil, Nat.add_zero]

/-! ### A rotor with a source that pushes against nothing -/

namespace Driven

/-- What the template makes of the arguments. -/
def part (t : Template) (id : Nat) (name : String) (a : Arguments) : Component :=
  ((t.build a).runOn (t.blank id (some name))).2

def drive : Component := part constantTorque 0 "drive" [("use_support", .flag true)]

def rotor : Component := part inertia 1 "rotor" []

def spare : Component := part torque 2 "spare" []

/-- A rotor and a source of torque with a loose support, beside a source that drives nothing. -/
def diagram : Diagram where
  components := [drive, rotor, spare]
  connections := [[⟨drive, "flange"⟩, ⟨rotor, "flange_a"⟩]]

theorem length_exprs_eq_driven :
    (∀ c ∈ diagram.components, Built c) ∧
      (∀ ts ∈ diagram.connections, ∀ t ∈ ts, t.component ∈ diagram.components) ∧
      (freePorts diagram).map (fun p => p.potential.name) =
        ["drive_support_phi", "spare_flange_phi"] ∧
      ∃ s, (assemble .standard diagram).outcome = .ok s ∧ s.exprs.length = 12 ∧
        s.unknowns.length = 10 := by
  have hbuilt : ∀ c ∈ diagram.components, Built c := by
    have hdrive : Built drive :=
      built_of_isOk (List.mem_of_getElem? (i := 8) rfl) (by decide +kernel)
    have hrotor : Built rotor :=
      built_of_isOk (List.mem_of_getElem? (i := 0) rfl) (by decide +kernel)
    have hspare : Built spare :=
      built_of_isOk (List.mem_of_getElem? (i := 7) rfl) (by decide +kernel)
    simp [diagram, hdrive, hrotor, hspare]
  have hterms : ∀ ts ∈ diagram.connections, ∀ t ∈ ts, t.component ∈ diagram.components := by
    simp [diagram]
  have hfree : (freePorts diagram).map (fun p => p.potential.name) =
      ["drive_support_phi", "spare_flange_phi"] := by decide +kernel
  have hrun : (assemble .standard diagram).outcome.toOption.map (fun s => s.exprs.length) =
      some 12 := by decide +kernel
  obtain ⟨s, hs, hrun⟩ := Option.map_eq_some_iff.mp hrun
  have hs := ok_of_toOption hs
  obtain ⟨hlength, -⟩ := length_exprs_eq hbuilt hterms hs
  have hcount := congrArg List.length hfree
  rw [List.length_map] at hcount
  refine ⟨hbuilt, hterms, hfree, s, hs, hrun, ?_⟩
  simp only [List.length_cons, List.length_nil] at hcount
  omega

end Driven

end Rotational

end Flange

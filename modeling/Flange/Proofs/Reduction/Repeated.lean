import Flange.Proofs.Reduction.Restored
import Flange.Proofs.Reduction.Triangular

/-! # Repeated reduction

A reduced system comes out of another reduction as it is, but for the form of its rates and the
order and sign of its constraints, when no constraint is an alias and among those that have to be
solved together one bends. Otherwise a constraint that is linear in a variable may be kept at first,
as part of a block, and be solved only when what was substituted into it has broken the block up.
-/

namespace Flange

open Flange.Expr SemiExplicit

namespace ReducedSystem

/-- The same variables and the same observed expressions; rates of the same values, and the same
constraints up to order and sign. -/
structure Agrees (r r' : ReducedSystem) : Prop where
  states : r'.states = r.states
  algebraic : r'.algebraic = r.algebraic
  observed : r'.observed = r.observed
  rates : List.Forall₂ SameValue r.rates r'.rates
  constraints : ∃ gs, gs.Perm r.constraints ∧ List.Forall₂ OppositeValue gs r'.constraints

/-- The variables are different, and the constraints can be paired with algebraic variables. However
they are paired, one of those that have to be solved together bends in the variable of one. None
with at most two unknowns is linear in these. -/
structure Irreducible (r : ReducedSystem) : Prop where
  distinct : (r.states ++ r.algebraic).Nodup
  apart : ∀ z ∈ r.algebraic, z ∉ r.inputs
  paired : ∃ ps, Rule.Pairing r.algebraic r.constraints ps
  bent : ∀ {ps}, Rule.Pairing r.algebraic r.constraints ps → Rule.Bent ps
  unaliased : ∀ g ∈ r.constraints, (∃ v ∈ r.states ++ r.algebraic, g.Bends v) ∨
    2 < (EquationSystem.unknownsIn (r.states ++ r.algebraic) (Rule.constraint g).residual).length

/-- How a reduction leaves a system: over its unknowns and inputs, without derivatives, and by
text. -/
structure Formed (r : ReducedSystem) : Prop where
  length_rates : r.states.length = r.rates.length
  order_input : ∀ u ∈ r.inputs, u.order = 0
  order_unknown : ∀ v ∈ r.states ++ r.algebraic, v.order = 0
  apart : ∀ x ∈ r.states, x ∉ r.inputs
  closed : ∀ e ∈ r.rates ++ r.constraints, e.Within (Symbol.Only fun v =>
    v.order = 0 ∧ (v ∈ r.states ++ r.algebraic ∨ v ∈ r.inputs))
  undifferentiated : ∀ q ∈ r.observed, q.2.Within (Symbol.Only fun v => v.order = 0)
  states : r.states.Pairwise fun v w => v.display ≤ w.display
  algebraic : r.algebraic.Pairwise fun v w => v.display ≤ w.display
  observed : r.observed.Pairwise fun p q => p.1.display ≤ q.1.display

theorem formed_of_reduce {s : EquationSystem} {o : ReductionOptions} {r : ReducedSystem}
    (horder : ∀ v ∈ s.inputs, v.order = 0) (hr : (reduce s o).outcome = .ok r) : r.Formed := by
  obtain ⟨a, t, d, x, y, h, rfl⟩ := Reduction.reduce_ok.mp hr
  have hlength := h.length_rates
  obtain ⟨-, -, hleft, -⟩ := h.progress
  have hy := h.pairing_eq.2.2
  have hrates : (ofSemiExplicit y s a.strong a.weak).rates.Perm y.rates := rates_perm hlength
  have hmem : ∀ v ∈ (ofSemiExplicit y s a.strong a.weak).states,
      v ∈ (Structure.ofExprs s.inputs x.exprs).states := fun v hv => by
    rw [mem_states_ofSemiExplicit hlength, hy] at hv
    exact hv
  constructor
  · exact (states_perm hlength).length_eq.trans (hlength.trans hrates.length_eq.symm)
  · exact horder
  · intro v hv
    rcases List.mem_append.mp hv with hv | hv
    · exact Structure.order_of_mem_functions (List.mem_append_left _ (hmem v hv))
    · rw [mem_algebraic_ofSemiExplicit, hy] at hv
      obtain ⟨w, -, rfl⟩ := List.mem_map.mp hv
      exact SemiExplicit.order_renamed w
  · intro v hv
    have hfun := List.mem_append_left (Structure.ofExprs s.inputs x.exprs).algebraic (hmem v hv)
    exact ((Structure.mem_functions_ofExprs horder).mp hfun).1
  · intro e he
    have he' := (hrates.append_right _).mem_iff.mp he
    refine within_only.mpr fun v hv => ?_
    rw [List.mem_append, mem_states_ofSemiExplicit hlength, mem_algebraic_ofSemiExplicit, or_assoc]
    exact ⟨SemiExplicit.order_of_leftover hleft (List.mem_append_left _ he') hv,
      h.closed horder e he' v hv⟩
  · intro q hq
    rw [mem_observed_ofSemiExplicit] at hq
    exact within_only.mpr fun v hv => SemiExplicit.order_of_leftover hleft
      (List.mem_append_right _ (List.mem_map_of_mem hq)) hv
  · exact List.pairwise_map.mpr (sortedByText_pairwise _ _)
  · exact sortedByText_pairwise _ _
  · exact sortedByText_pairwise _ _

/-- Without algebraic variables there is nothing that could be reduced further. -/
theorem irreducible_of_isOde {s : EquationSystem} {o : ReductionOptions} {r : ReducedSystem}
    (horder : ∀ v ∈ s.inputs, v.order = 0) (hr : (reduce s o).outcome = .ok r)
    (hode : r.isOde = true) : r.Irreducible := by
  have hnone : r.algebraic = [] := List.isEmpty_iff.mp hode
  obtain ⟨a, t, d, x, y, h, rfl⟩ := Reduction.reduce_ok.mp hr
  have hlength := h.length_constraints horder
  rw [← (algebraic_perm (y := y) (s := s)).length_eq, hnone, List.length_nil,
    List.length_eq_zero_iff] at hlength
  have hconstraints : (ofSemiExplicit y s a.strong a.weak).constraints = [] := hlength
  constructor
  · rw [hnone, List.append_nil, (states_perm h.length_rates).nodup_iff, h.pairing_eq.2.2]
    exact nodup_sortVars _
  · simp [hnone]
  · rw [hnone, hconstraints]
    exact ⟨[], .nil, .nil, List.forall_mem_nil _⟩
  · intro ps hps
    obtain rfl : ps = [] := by simpa [hconstraints] using hps.constraints
    exact List.forall_mem_nil _
  · simp [hconstraints]

variable {r : ReducedSystem}

theorem constraints_rules : r.rules.filterMap Rule.constraint? = r.constraints := by
  simp [rules, List.filterMap_append, Function.comp_def, Rule.constraint?]

/-- Constraints that bend in each algebraic variable they contain. -/
theorem irreducible_of_bends (hdistinct : (r.states ++ r.algebraic).Nodup)
    (hapart : ∀ z ∈ r.algebraic, z ∉ r.inputs)
    (hpaired : ∃ ps, Rule.Pairing r.algebraic r.constraints ps)
    (hbends : ∀ g ∈ r.constraints, ∀ z ∈ r.algebraic,
      z ∈ (Rule.constraint g).residual.functions → g.Bends z) : r.Irreducible := by
  have hall : ∀ {ps}, Rule.Pairing r.algebraic r.constraints ps → ∀ p ∈ ps, p.1.Bends p.2 :=
    fun hps p hp => hbends _ (hps.constraints.subset (List.mem_map_of_mem hp)) _
      (hps.unknowns.subset (List.mem_map_of_mem hp)) (hps.occurs p hp)
  refine ⟨hdistinct, hapart, hpaired, fun hps p hp => ?_, fun g hg => Or.inl ?_⟩
  · exact ⟨p, hp, p, hp, ⟨.refl, .refl⟩, ⟨.refl, .refl⟩, hall hps p hp⟩
  · obtain ⟨ps, hps⟩ := hpaired
    obtain ⟨p, hp, rfl⟩ := List.mem_map.mp (hps.constraints.symm.subset hg)
    exact ⟨p.2, List.mem_append_right _ (hps.unknowns.subset (List.mem_map_of_mem hp)),
      hall hps p hp⟩

variable (h : r.Formed) (hi : r.Irreducible)

include h hi

/-- The equations of an irreducible system are rates and constraints with a variable each. -/
theorem Irreducible.rules : Rules r.inputs r.states r.algebraic r.rules := by
  have hrate : ∀ {x f}, Rule.rate x f ∈ r.rules → (x, f) ∈ r.states.zip r.rates := by
    intro x f hq
    rcases List.mem_append.mp hq with hq | hq
    · obtain ⟨p, hp, heq⟩ := List.mem_map.mp hq
      obtain ⟨rfl, rfl⟩ := Rule.rate.inj heq
      exact hp
    · simp at hq
  have hconstraint : ∀ {g}, Rule.constraint g ∈ r.rules → g ∈ r.constraints := by
    intro g hq
    rcases List.mem_append.mp hq with hq | hq
    · simp at hq
    · simpa using hq
  obtain ⟨ps, hps⟩ := hi.paired
  obtain ⟨zs, hmatched, hzs⟩ := List.perm_comp_forall₂ hps.constraints.symm
    (List.forall₂_map_left_iff.mpr (List.forall₂_map_right_iff.mpr
      (List.forall₂_same.mpr hps.occurs)) :
        List.Forall₂ (fun g z => z ∈ (Rule.constraint g).residual.functions)
          (ps.map Prod.fst) (ps.map Prod.snd))
  constructor
  · exact hi.distinct
  · exact h.order_unknown
  · exact h.order_input
  · intro v hv
    exact (List.mem_append.mp hv).elim (h.apart v) (hi.apart v)
  · intro x f hq
    obtain ⟨hx, hf⟩ := List.of_mem_zip (hrate hq)
    exact ⟨hx, h.closed f (List.mem_append_left _ hf)⟩
  · exact fun hq => h.closed _ (List.mem_append_right _ (hconstraint hq))
  · exact fun hps => hi.bent (constraints_rules ▸ hps)
  · have hzs := hzs.trans hps.unknowns
    refine ⟨r.states.map (fun x => x.der) ++ zs, hzs.append_left _, List.rel_append ?_ ?_⟩
    · have hfst : (r.states.zip r.rates).map Prod.fst = r.states :=
        List.map_fst_zip h.length_rates.le
      rw [← hfst, List.map_map, List.forall₂_map_left_iff, List.forall₂_map_right_iff, hfst,
        List.forall₂_same]
      exact fun p _ => rfl
    · rw [List.forall₂_map_left_iff]
      exact forall₂_of_mem hmatched fun g z hz hgz => ⟨hzs.subset hz, hgz⟩

/-! ### The stages of another reduction -/

theorem Irreducible.eliminateAliases (o : ReductionOptions) :
    Reduction.eliminateAliases r.toEquationSystem o = .ok (Aliases.ofSystem r.toEquationSystem) := by
  have hrules := hi.rules h
  unfold Reduction.eliminateAliases
  split
  · refine Aliases.run_of_scan (AliasContext.scan_of_action? fun e he => ?_)
    have hexprs : (Aliases.ofSystem r.toEquationSystem).exprs = r.rules.map Rule.residual :=
      r.exprs_toEquationSystem
    rw [hexprs] at he
    obtain ⟨q, hq, rfl⟩ := List.mem_map.mp he
    obtain ⟨vs, hvs, hgiven⟩ := hrules.given
    obtain ⟨v, -, hv⟩ := exists_of_forall₂ hgiven q hq
    have hvars := hrules.mem_vars_of_gives hq hv
    cases q with
    | rate x f =>
      obtain rfl := hv
      have hx := (hrules.rate hq).1
      have hfun : x ∈ (Rule.rate x f).residual.functions := mem_functions.mpr ⟨x.der, hvars, by
        rw [Var.base_der, Var.base_of_order (h.order_unknown x (List.mem_append_left _ hx))]⟩
      refine AliasContext.action?_of_match? (List.mem_append_left _ hx) hfun
        (AliasContext.match?_of_hasDerivative ?_)
      exact List.any_eq_true.mpr ⟨.var x.der, mem_vars.mp hvars, by simp [Var.isDerivative]⟩
    | constraint g =>
      refine AliasContext.action?_of_match? (List.mem_append_right r.states hv.1) hv.2 ?_
      have hg : g ∈ r.constraints := constraints_rules ▸ List.mem_filterMap.mpr ⟨_, hq, rfl⟩
      rcases hi.unaliased g hg with ⟨w, hw, hbends⟩ | htwo
      · have hhas := hbends.has (neg_ne_zero.mpr one_ne_zero) fun _ hreg =>
          (Rule.oppositeValue_constraint g _ _ _ hreg.denotes).congr (neg_one_mul _).symm
        refine AliasContext.match?_of_linearCoeff? hw
          (mem_functions_of_has hhas (h.order_unknown w hw)) ?_
        simp [linearCoeff?, hhas]
      · exact AliasContext.match?_of_length htwo
  · rfl

theorem Irreducible.lower : Reduction.lower r.toEquationSystem
    (Aliases.ofSystem r.toEquationSystem) = ⟨r.rules.map Rule.residual, [], []⟩ := by
  have heq : (Aliases.ofSystem r.toEquationSystem).exprs = r.rules.map Rule.residual :=
    r.exprs_toEquationSystem
  rw [Reduction.lower, heq]
  exact lowerOrder_of_firstOrder h.order_input (hi.rules h).firstOrder

theorem Irreducible.check : Reduction.check r.toEquationSystem (r.rules.map Rule.residual) =
    .ok (.ofExprs r.inputs (r.rules.map Rule.residual)) := by
  have hrules := hi.rules h
  have hfault : (Structure.ofExprs r.inputs (r.rules.map Rule.residual)).fault?
      (r.rules.map Rule.residual) = none := hrules.explicit.fault?_eq_none hrules.firstOrder
  unfold Reduction.check
  dsimp only
  rw [show r.toEquationSystem.inputs = r.inputs from rfl, hfault]

/-- Without differentiation there are no dummies either, and the equations come out in another
order. -/
theorem Irreducible.dummies {steps : Nat} (hsteps : 0 < steps) (ctx : DummyContext)
    (taken : List String) : ∃ (d : Differentiation) (qs : List Rule), (Structure.ofExprs r.inputs
      (r.rules.map Rule.residual)).differentiate (r.rules.map Rule.residual) steps = .ok d ∧
      qs.Perm r.rules ∧ d.dummies ctx d.blocks r.inputs taken =
        .ok ⟨[], qs.map Rule.residual, ⟨qs.map Rule.residual, [], []⟩,
          .ofExprs r.inputs (qs.map Rule.residual)⟩ := by
  have hrules := hi.rules h
  obtain ⟨n, rfl⟩ := Nat.exists_eq_add_one.mpr hsteps
  obtain ⟨d, hd, hexprs, hunderived⟩ := Structure.differentiate_unchanged n
    hrules.firstOrder (hrules.explicit.matchable hrules.firstOrder)
  have hperm : (d.blockOrder.filterMap fun i => r.rules[i]?).Perm r.rules := by
    have hrange := (hunderived.blockOrder_perm).filterMap fun i => (r.rules[i]?).bind some
    rw [hexprs, List.length_map, filterMap_range_getElem?] at hrange
    simpa using hrange
  have hqs := hrules.perm hperm
  refine ⟨d, _, hd, hperm, hunderived.dummies h.order_input ?_ hqs.firstOrder
    (hqs.explicit.length_targets hqs.firstOrder)⟩
  rw [hexprs, List.map_filterMap]
  simp

omit h hi in
theorem sortedPairs_of_pairwise {α : Type} {ps : List (Var × α)}
    (hps : (ps.map Prod.fst).Pairwise fun v w => v.display ≤ w.display) : sortedPairs ps = ps := by
  rw [List.pairwise_map] at hps
  exact sortedByText_of_pairwise hps

/-- What is solved from the rules is the system again. -/
theorem Irreducible.agrees {qs : List Rule} (hqs : qs.Perm r.rules) {y : SemiExplicit}
    {solveBlocks : Bool} {s : EquationSystem} {strong weak : InitialValues}
    (hy : (Structure.ofExprs r.inputs (qs.map Rule.residual)).semiExplicit (qs.map Rule.residual)
      r.observed solveBlocks = .ok y) : r.Agrees (ofSemiExplicit y s strong weak) := by
  have hrules := (hi.rules h).perm hqs
  obtain ⟨y', hy', hobserved, halgebraic, hstates, ⟨rate, hrates, hvalues⟩, gs, hgs, hconstraints⟩ :=
    hrules.semiExplicit solveBlocks h.undifferentiated
  obtain rfl := Except.ok.inj (hy.symm.trans hy')
  obtain ⟨hnodup, -, -⟩ := List.nodup_append.mp hi.distinct
  have hsame : y.states = r.states := by
    rw [hstates]
    refine sortVars_eq (fun v => ?_) hnodup
      (fun v hv => h.order_unknown v (List.mem_append_left _ hv)) h.states
    exact (mem_sortVars (v := v)).symm.trans hrules.mem_states
  have hzip : sortedPairs (y.states.zip y.rates) = y.states.zip y.rates := by
    refine sortedPairs_of_pairwise ?_
    rw [List.map_fst_zip (by simp [hrates]), hsame]
    exact h.states
  constructor
  · change (sortedPairs (y.states.zip y.rates)).map Prod.fst = r.states
    rw [hzip, List.map_fst_zip (by simp [hrates]), hsame]
  · refine sortedByText_eq halgebraic h.algebraic fun v hv w hw =>
      Var.eq_of_display (h.order_unknown v ?_) (h.order_unknown w ?_)
    · exact List.mem_append_right _ hv
    · exact List.mem_append_right _ hw
  · change sortedPairs y.observed = r.observed
    rw [hobserved]
    exact sortedPairs_of_pairwise (List.pairwise_map.mpr h.observed)
  · change List.Forall₂ SameValue r.rates ((sortedPairs (y.states.zip y.rates)).map Prod.snd)
    have hfst : (r.states.zip r.rates).map Prod.fst = r.states :=
      List.map_fst_zip h.length_rates.le
    have hsnd : (r.states.zip r.rates).map Prod.snd = r.rates :=
      List.map_snd_zip h.length_rates.ge
    have hrate : ((r.states.zip r.rates).map Prod.fst).map rate = r.states.map rate := by rw [hfst]
    rw [hzip, List.map_snd_zip (by simp [hrates]), hrates, hsame, ← hrate, List.map_map, ← hsnd,
      List.forall₂_map_left_iff, hsnd, List.forall₂_map_right_iff, List.forall₂_same]
    exact fun p hp => hvalues p.1 p.2
      (hqs.symm.subset (List.mem_append_left _ (List.mem_map_of_mem hp)))
  · exact ⟨gs, hgs.trans ((hqs.filterMap _).trans (.of_eq constraints_rules)), hconstraints⟩

end ReducedSystem

open ReducedSystem in
/-- A reduced system without algebraic variables, or one with constraints that are no aliases and of
which one bends wherever some have to be solved together, is reduced to itself: to the same states,
algebraic variables and observed expressions, to rates of the same values and to the same
constraints up to order and sign. -/
theorem EquationSystem.reduce_again {s : EquationSystem} {o o' : ReductionOptions}
    {r : ReducedSystem} (horder : ∀ v ∈ s.inputs, v.order = 0)
    (hr : (reduce s o).outcome = .ok r) (hi : r.isOde = true ∨ r.Irreducible)
    (hsteps : 0 < o'.maxSearches) :
    ∃ r', (reduce r.toEquationSystem o').outcome = .ok r' ∧ r.Agrees r' := by
  have h := formed_of_reduce horder hr
  have hi : r.Irreducible := hi.elim (irreducible_of_isOde horder hr) id
  let a := Aliases.ofSystem r.toEquationSystem
  obtain ⟨d, qs, hd, hqs, hx⟩ := hi.dummies h hsteps
    (Reduction.dummyContext r.toEquationSystem a)
    (Reduction.takenAfter r.toEquationSystem (Reduction.lower r.toEquationSystem a))
  obtain ⟨y, hy, -⟩ := ((hi.rules h).perm hqs).semiExplicit o'.solveBlocks h.undifferentiated
  refine ⟨ofSemiExplicit y r.toEquationSystem a.strong a.weak, Reduction.reduce_ok.mpr
    ⟨a, .ofExprs r.inputs (r.rules.map Rule.residual), d, _, y,
      ⟨hi.eliminateAliases h o', ?_, ?_, hx, hy⟩, rfl⟩, hi.agrees h hqs hy⟩
  · rw [hi.lower h]
    exact hi.check h
  · rw [hi.lower h]
    exact hd

/-! ### A cubic constraint -/

/-- `x' = z` where `z³ + z = x`. -/
def cubic : EquationSystem :=
  let x : Var := ⟨"x", 0⟩
  let z : Var := ⟨"z", 0⟩
  let eqs : List Eqn := [⟨⟨.var x.der, .var z⟩, .comp, .nobody⟩,
    ⟨⟨(Expr.var z).pow 3 + .var z, .var x⟩, .comp, .nobody⟩]
  { equations := eqs, exprs := eqs.map Eqn.residual, unknowns := [x, z] }

namespace cubic

/-- The equation `z³ + z = x`, solved for zero. -/
def constraint : Expr :=
  .sum (.prod (.num (-1)) (.var ⟨"x", 0⟩)) (.sum (.var ⟨"z", 0⟩) (.power (.var ⟨"z", 0⟩) 3))

/-- The constraint is a cubic polynomial in `z`. -/
theorem bends : constraint.Bends ⟨"z", 0⟩ := by
  let ρ : Valuation ℝ := { time := 0, par := fun _ => 0, var := fun _ => 0 }
  have hvalue : ∀ t : ℝ, constraint.Denotes True (ρ.shift ⟨"z", 0⟩ t) (t + t ^ 3) := by
    intro t
    have hz : (Expr.var ⟨"z", 0⟩).Denotes True (ρ.shift ⟨"z", 0⟩ t) _ := denotes_var _
    have hpower := denotes_power hz (PowerDefined.of_den (q := 3) rfl (Or.inl (by norm_num)))
      (by norm_num)
    refine (denotes_sum (denotes_prod (denotes_num (-1)) (denotes_var ⟨"x", 0⟩))
      (denotes_sum hz hpower)).congr ?_
    rw [realPower_of_den rfl]
    simp [ρ, Valuation.shift]
  refine ⟨ρ, -1, 1, fun t _ => (hvalue t).regular, fun m c => ?_⟩
  by_contra! hline
  have h₀ := hline 0 ⟨by norm_num, by norm_num⟩
  have h₁ := hline (1 / 2) ⟨by norm_num, by norm_num⟩
  have h₂ := hline (1 / 4) ⟨by norm_num, by norm_num⟩
  rw [(hvalue _).eval] at h₀ h₁ h₂
  linarith

end cubic

/-- The cubic constraint stays as it is, but for its sign. -/
theorem EquationSystem.reduce_again_cubic : ∃ r, (reduce cubic).outcome = .ok r ∧
    r.constraints = [cubic.constraint] ∧
      ∃ r', (reduce r.toEquationSystem).outcome = .ok r' ∧ r.Agrees r' := by
  have hparts : (reduce cubic).outcome.toOption.map
      (fun r => (r.states, r.algebraic, r.constraints, r.inputs)) =
        some ([⟨"x", 0⟩], [⟨"z", 0⟩], [cubic.constraint], []) := by decide +kernel
  obtain ⟨r, hr, hparts⟩ := Option.map_eq_some_iff.mp hparts
  have hr := ok_of_toOption hr
  simp only [Prod.mk.injEq] at hparts
  obtain ⟨hstates, halgebraic, hconstraints, hinputs⟩ := hparts
  have hi : r.Irreducible := by
    refine ReducedSystem.irreducible_of_bends ?_ (by simp [hinputs]) ⟨[(cubic.constraint, ⟨"z", 0⟩)], ?_⟩ ?_
    · rw [hstates, halgebraic]
      decide
    · rw [halgebraic, hconstraints]
      exact ⟨.refl _, .refl _, by decide +kernel⟩
    · rw [hconstraints, halgebraic]
      simpa using fun _ => cubic.bends
  exact ⟨r, hr, hconstraints,
    EquationSystem.reduce_again (by simp [cubic]) hr (Or.inr hi) (by decide)⟩

end Flange

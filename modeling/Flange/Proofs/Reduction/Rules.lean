import Flange.Proofs.Expr.Bend
import Flange.Proofs.Expr.Isolated
import Flange.Proofs.Reduction.Undifferentiated
import Flange.Proofs.Solution.Blocks

/-! # Rules of a reduced system

The rates and constraints of a reduced system are equations again. However they are matched, each
rate is matched to the derivative of its state and forms a block of its own, and each constraint is
matched to an algebraic variable in it.
-/

namespace Flange

open Flange.Expr

/-- A rate or a constraint of a reduced system. -/
inductive Rule
  | rate (x : Var) (f : Expr)
  | constraint (g : Expr)

namespace Rule

/-- The rule as an expression that is zero. -/
def residual : Rule → Expr
  | rate x f => .var x.der - f
  | constraint g => .zero - g

def constraint? : Rule → Option Expr
  | rate _ _ => none
  | constraint g => some g

/-- The rule may be solved for the derivative of its state or is matched to a variable in it. -/
def Gives (algebraic : List Var) : Rule → Var → Prop
  | rate x _, v => v = x.der
  | constraint g, v => v ∈ algebraic ∧ v ∈ (constraint g).residual.functions

/-- The constraints, each with an algebraic variable in it, and all of these variables. -/
structure Pairing (algebraic : List Var) (gs : List Expr) (ps : List (Expr × Var)) : Prop where
  constraints : (ps.map Prod.fst).Perm gs
  unknowns : (ps.map Prod.snd).Perm algebraic
  occurs : ∀ p ∈ ps, p.2 ∈ (constraint p.1).residual.functions

/-- The constraint of `w` contains `z`. -/
def Needs (ps : List (Expr × Var)) (z w : Var) : Prop :=
  ∃ g, (g, w) ∈ ps ∧ z ∈ (constraint g).residual.functions

/-- Neither variable can be found before the other. -/
def Tied (ps : List (Expr × Var)) (z w : Var) : Prop :=
  Relation.ReflTransGen (Needs ps) z w ∧ Relation.ReflTransGen (Needs ps) w z

/-- Wherever some constraints have to be solved together, one bends in the variable of one. -/
def Bent (ps : List (Expr × Var)) : Prop :=
  ∀ r ∈ ps, ∃ p ∈ ps, ∃ q ∈ ps, Tied ps r.2 p.2 ∧ Tied ps r.2 q.2 ∧ p.1.Bends q.2

/-- A rule leads to those in which the variable that it is solved for occurs. -/
abbrev graph (known : List Var) (qs : List Rule) (m : Matching Var) : Digraph :=
  SemiExplicit.dependencies (SemiExplicit.candidates (.ofExprs known (qs.map residual))) m

/-- The constraints with the variables that they are matched to. -/
def pairs (qs : List Rule) (m : Matching Var) : List (Expr × Var) :=
  (List.range qs.length).filterMap fun i =>
    ((qs[i]?).bind constraint?).bind fun g => (m.matched? i).map fun z => (g, z)

theorem eq_constraint {q : Rule} {g : Expr} (h : q.constraint? = some g) : q = .constraint g := by
  cases q with
  | rate x f => cases h
  | constraint g' => exact congrArg _ (Option.some.inj h)

end Rule

namespace ReducedSystem

def rules (r : ReducedSystem) : List Rule :=
  (r.states.zip r.rates).map (fun p => .rate p.1 p.2) ++ r.constraints.map .constraint

theorem exprs_toEquationSystem (r : ReducedSystem) :
    r.toEquationSystem.exprs = r.rules.map Rule.residual := by
  simp [toEquationSystem, rules, Function.comp_def, Eqn.residual, Equation.residual, Rule.residual,
    List.zip, List.map_zipWith]

end ReducedSystem

/-- Rates of the states and constraints on the algebraic variables, one for each, in any order. -/
structure Rules (known states algebraic : List Var) (qs : List Rule) : Prop where
  nodup : (states ++ algebraic).Nodup
  order_unknown : ∀ v ∈ states ++ algebraic, v.order = 0
  order_known : ∀ v ∈ known, v.order = 0
  apart : ∀ v ∈ states ++ algebraic, v ∉ known
  rate : ∀ {x f}, .rate x f ∈ qs → x ∈ states ∧
    f.Within (Symbol.Only fun v => v.order = 0 ∧ (v ∈ states ++ algebraic ∨ v ∈ known))
  constraint : ∀ {g}, .constraint g ∈ qs →
    g.Within (Symbol.Only fun v => v.order = 0 ∧ (v ∈ states ++ algebraic ∨ v ∈ known))
  bent : ∀ {ps}, Rule.Pairing algebraic (qs.filterMap Rule.constraint?) ps → Rule.Bent ps
  given : ∃ vs, vs.Perm (states.map (fun x => x.der) ++ algebraic) ∧
    List.Forall₂ (Rule.Gives algebraic) qs vs

namespace Rules

variable {known states algebraic : List Var} {qs ps : List Rule} {q : Rule} {x v : Var}
  {f g : Expr} {i j : Nat}

theorem perm (h : Rules known states algebraic qs) (hp : ps.Perm qs) :
    Rules known states algebraic ps := by
  obtain ⟨vs, hvs, hgiven⟩ := h.given
  obtain ⟨ws, hws, hperm⟩ := List.perm_comp_forall₂ hp hgiven
  exact { h with
    rate := fun hq => h.rate (hp.subset hq)
    constraint := fun hq => h.constraint (hp.subset hq)
    bent := fun hps =>
      h.bent { hps with constraints := hps.constraints.trans (hp.filterMap _) }
    given := ⟨ws, hperm.trans hvs, hws⟩ }

section Residuals

variable (h : Rules known states algebraic qs)

include h

theorem free_rate (hq : .rate x f ∈ qs) : Free (.var x.der) f := by
  intro u hu heq
  subst heq
  simpa using ((h.rate hq).2 _ hu).1

theorem isolates (hq : .rate x f ∈ qs) : (Rule.rate x f).residual.Isolates (.var x.der) :=
  Isolates.self.add_free (within_neg (h.free_rate hq))

/-- What a rule is about. -/
theorem within_residual (hq : q ∈ qs) : q.residual.Within (Symbol.Only fun v =>
    v.order = 0 ∧ (v ∈ states ++ algebraic ∨ v ∈ known) ∨ ∃ x f, q = .rate x f ∧ v = x.der) := by
  cases q with
  | rate x f =>
    refine within_sub (within_var.mpr (Or.inr ⟨x, f, rfl, rfl⟩)) ?_
    exact (h.rate hq).2.mono fun u hu => hu.imp fun _ => Or.inl
  | constraint g =>
    refine within_sub within_zero ?_
    exact (h.constraint hq).mono fun u hu => hu.imp fun _ => Or.inl

/-- A derivative in a rule is that of its state. -/
theorem eq_rate (hq : q ∈ qs) (hv : v ∈ q.residual.vars) (ho : v.order ≠ 0) :
    ∃ x f, q = .rate x f ∧ v = x.der :=
  (h.within_residual hq _ (mem_vars.mp hv)).resolve_left fun hv => ho hv.1

theorem firstOrder : FirstOrder known (qs.map Rule.residual) := by
  rintro _ he v hv
  obtain ⟨q, hq, rfl⟩ := List.mem_map.mp he
  obtain ⟨hv, ho, -⟩ := Structure.mem_unknownDerivatives.mp hv
  obtain ⟨x, f, rfl, rfl⟩ := h.eq_rate hq hv ho
  rw [Var.order_der, h.order_unknown x (List.mem_append_left _ (h.rate hq).1)]

/-- What a rule gives occurs in it. -/
theorem mem_vars_of_gives (hq : q ∈ qs) (hv : q.Gives algebraic v) : v ∈ q.residual.vars := by
  cases q with
  | rate x f =>
    obtain rfl := hv
    exact mem_vars.mpr (h.isolates hq).mem
  | constraint g =>
    obtain ⟨w, hw, rfl⟩ := mem_functions.mp hv.2
    by_cases hwo : w.order = 0
    · rwa [Var.base_of_order hwo]
    · obtain ⟨x, f, heq, -⟩ := h.eq_rate hq hw hwo
      cases heq

/-! ### What the rules are solved for -/

/-- Each state has a rate, and each algebraic variable is in a constraint. -/
theorem exists_gives (hv : v ∈ states.map (fun x => x.der) ++ algebraic) :
    ∃ q ∈ qs, q.Gives algebraic v := by
  obtain ⟨vs, hvs, hgiven⟩ := h.given
  exact exists_of_forall₂ hgiven.flip v (hvs.symm.subset hv)

theorem mem_derivatives : v ∈ (Structure.ofExprs known (qs.map Rule.residual)).derivatives ↔
    ∃ x ∈ states, v = x.der := by
  rw [Structure.mem_derivatives_ofExprs]
  constructor
  · rintro ⟨_, he, hv⟩
    obtain ⟨q, hq, rfl⟩ := List.mem_map.mp he
    obtain ⟨hv, ho, -⟩ := Structure.mem_unknownDerivatives.mp hv
    obtain ⟨x, f, rfl, rfl⟩ := h.eq_rate hq hv ho
    exact ⟨x, (h.rate hq).1, rfl⟩
  · rintro ⟨x, hx, rfl⟩
    have hxo := h.order_unknown x (List.mem_append_left _ hx)
    obtain ⟨q, hq, hv⟩ := h.exists_gives (List.mem_append_left _ (List.mem_map_of_mem hx))
    refine ⟨q.residual, List.mem_map_of_mem hq, Structure.mem_unknownDerivatives.mpr
      ⟨h.mem_vars_of_gives hq hv, by simp, fun hk => ?_, fun hk => ?_⟩⟩
    · simpa using h.order_known _ hk
    · rw [Var.base_der, Var.base_of_order hxo] at hk
      exact h.apart x (List.mem_append_left _ hx) hk

theorem mem_states : v ∈ (Structure.ofExprs known (qs.map Rule.residual)).states ↔ v ∈ states := by
  rw [Structure.mem_states_ofExprs]
  constructor
  · rintro ⟨w, hw, rfl⟩
    obtain ⟨x, hx, rfl⟩ := h.mem_derivatives.mp hw
    rwa [Var.base_der, Var.base_of_order (h.order_unknown x (List.mem_append_left _ hx))]
  · intro hv
    refine ⟨v.der, h.mem_derivatives.mpr ⟨v, hv, rfl⟩, ?_⟩
    rw [Var.base_der, Var.base_of_order (h.order_unknown v (List.mem_append_left _ hv))]

theorem mem_algebraic :
    v ∈ (Structure.ofExprs known (qs.map Rule.residual)).algebraic ↔ v ∈ algebraic := by
  rw [Structure.mem_algebraic_ofExprs, h.mem_states]
  constructor
  · rintro ⟨⟨_, he, hv⟩, hs⟩
    obtain ⟨q, hq, rfl⟩ := List.mem_map.mp he
    obtain ⟨hv, ho, hk⟩ := Structure.mem_unknownFunctions.mp hv
    rcases h.within_residual hq _ (mem_vars.mp hv) with ⟨-, hu | hk'⟩ | ⟨x, f, -, rfl⟩
    · exact (List.mem_append.mp hu).resolve_left hs
    · exact absurd hk' hk
    · simp at ho
  · intro hv
    have hmem := List.mem_append_right states hv
    obtain ⟨q, hq, hgives⟩ := h.exists_gives (List.mem_append_right _ hv)
    refine ⟨⟨q.residual, List.mem_map_of_mem hq, Structure.mem_unknownFunctions.mpr
      ⟨h.mem_vars_of_gives hq hgives, h.order_unknown v hmem, h.apart v hmem⟩⟩, fun hs => ?_⟩
    exact (List.nodup_append.mp h.nodup).2.2 v hs v hv rfl

theorem mem_candidates (hq : qs[i]? = some q) (hv : q.Gives algebraic v) :
    v ∈ (SemiExplicit.candidates (.ofExprs known (qs.map Rule.residual))).getD i [] := by
  have hmem := List.mem_of_getElem? hq
  have hvars := h.mem_vars_of_gives hmem hv
  refine SemiExplicit.mem_candidates.mpr ⟨q.residual, by simp [hq], ?_, ?_⟩
  · cases q with
    | rate x f =>
      obtain rfl := hv
      have hx := (h.rate hmem).1
      refine Or.inl (Structure.mem_unknownDerivatives.mpr ⟨hvars, by simp, fun hk => ?_, fun hk => ?_⟩)
      · simpa using h.order_known _ hk
      · rw [Var.base_der, Var.base_of_order (h.order_unknown x (List.mem_append_left _ hx))] at hk
        exact h.apart x (List.mem_append_left _ hx) hk
    | constraint g =>
      have hz := List.mem_append_right states hv.1
      exact Or.inr (Structure.mem_unknownFunctions.mpr
        ⟨hvars, h.order_unknown v hz, h.apart v hz⟩)
  · rw [h.mem_states]
    intro hs
    cases q with
    | rate x f =>
      have ho := h.order_unknown v (List.mem_append_left _ hs)
      simp [show v = x.der from hv] at ho
    | constraint g => exact (List.nodup_append.mp h.nodup).2.2 v hs v hv.1 rfl

theorem nodup_targets : (states.map (fun x => x.der) ++ algebraic).Nodup := by
  obtain ⟨hs, ha, -⟩ := List.nodup_append.mp h.nodup
  refine List.nodup_append.mpr ⟨hs.map fun v w hvw => Var.der_injective hvw, ha, ?_⟩
  rintro _ hd z hz rfl
  obtain ⟨x, -, rfl⟩ := List.mem_map.mp hd
  simpa using h.order_unknown _ (List.mem_append_right _ hz)

/-- The rules can be solved for derivatives of states and algebraic variables. -/
theorem explicit : (Structure.ofExprs known (qs.map Rule.residual)).Explicit := by
  obtain ⟨vs, hvs, hgiven⟩ := h.given
  have hnodup : vs.Nodup := hvs.nodup_iff.mpr h.nodup_targets
  have hlen := hgiven.length_eq
  have hlt : ∀ i < (SemiExplicit.candidates (.ofExprs known (qs.map Rule.residual))).length,
      i < vs.length := fun i hi => by
    rwa [SemiExplicit.length_candidates, List.length_map, hlen] at hi
  refine ⟨fun i => vs.getD i default, fun i hi => ?_, fun i hi j hj hij => ?_, fun v hv => ?_⟩
  · have hi := hlt i hi
    dsimp only
    rw [List.getD_eq_getElem _ _ hi]
    exact h.mem_candidates (List.getElem?_eq_getElem (hlen ▸ hi))
      ((List.forall₂_iff_get.mp hgiven).2 i _ hi)
  · dsimp only at hij
    rw [List.getD_eq_getElem _ _ (hlt i hi), List.getD_eq_getElem _ _ (hlt j hj)] at hij
    exact (List.Nodup.getElem_inj_iff hnodup).mp hij
  · have hmem : v ∈ vs := by
      refine hvs.symm.subset (List.mem_append.mpr ((List.mem_append.mp hv).imp ?_ h.mem_algebraic.mp))
      intro hd
      obtain ⟨x, hx, rfl⟩ := h.mem_derivatives.mp hd
      exact List.mem_map_of_mem hx
    obtain ⟨i, hi, rfl⟩ := List.mem_iff_getElem.mp hmem
    refine ⟨i, ?_, List.getD_eq_getElem _ _ hi⟩
    rwa [SemiExplicit.length_candidates, List.length_map, hlen]

/-! ### Blocks -/

/-- No two rates are those of one state. -/
theorem rate_unique {f' : Expr} (hi : qs[i]? = some (.rate x f)) (hj : qs[j]? = some (.rate x f')) :
    i = j := by
  obtain ⟨vs, hvs, hgiven⟩ := h.given
  have hnodup : vs.Nodup := hvs.nodup_iff.mpr h.nodup_targets
  have hgives : ∀ {i : Nat} {f}, qs[i]? = some (Rule.rate x f) → vs[i]? = some x.der := by
    intro i f hi
    rcases forall₂_getElem? hgiven i with ⟨q, v, hq, hv, hqv⟩ | ⟨hnone, -⟩
    · obtain rfl := Option.some.inj (hi.symm.trans hq)
      exact hv.trans (congrArg some hqv)
    · simp [hi] at hnone
  exact (List.getElem?_inj (lt_of_getElem? (hgives hi)) hnodup).mp ((hgives hi).trans (hgives hj).symm)

/-- The derivative of a state is in one rule only. -/
theorem eq_of_der_mem (hi : qs[i]? = some (.rate x f)) (hj : qs[j]? = some q)
    (hv : x.der ∈ q.residual.vars) : j = i := by
  obtain ⟨y, f', rfl, hxy⟩ := h.eq_rate (List.mem_of_getElem? hj) hv (by simp)
  obtain rfl := Var.der_injective hxy
  exact h.rate_unique hj hi

variable {m : Matching Var} (hm : SemiExplicit.Paired known (qs.map Rule.residual) m)

include hm

theorem mem_vars_of_matched (hi : qs[i]? = some q) (hv : m.matched? i = some v) :
    v ∈ q.residual.vars ∧ v ∉ states ∧ (v.order = 0 → v ∉ known) := by
  obtain ⟨e, he, hv, hs⟩ := SemiExplicit.mem_candidates.mp (hm.valid.adjacent hv)
  obtain rfl : q.residual = e := by simpa [hi] using he
  rw [h.mem_states] at hs
  rcases hv with hv | hv
  · obtain ⟨hv, ho, -⟩ := Structure.mem_unknownDerivatives.mp hv
    exact ⟨hv, hs, fun ho' => absurd ho' ho⟩
  · obtain ⟨hv, -, hk⟩ := Structure.mem_unknownFunctions.mp hv
    exact ⟨hv, hs, fun _ => hk⟩

/-- A rate is solved for the derivative of its state. -/
theorem matched_rate (hi : qs[i]? = some (.rate x f)) : m.matched? i = some x.der := by
  have hx := (h.rate (List.mem_of_getElem? hi)).1
  obtain ⟨j, hj⟩ := hm.onto x.der (List.mem_append_left _ (h.mem_derivatives.mpr ⟨x, hx, rfl⟩))
  have hlt : j < qs.length := by
    have := hm.valid.lt hj
    rwa [SemiExplicit.length_candidates, List.length_map] at this
  have hq := List.getElem?_eq_getElem hlt
  obtain rfl := h.eq_of_der_mem hi hq (h.mem_vars_of_matched hm hq hj).1
  exact hj

/-- A constraint is matched to an algebraic variable in it. -/
theorem matched_constraint (hi : qs[i]? = some (.constraint g)) :
    ∃ z, (Rule.constraint g).Gives algebraic z ∧ m.matched? i = some z := by
  obtain ⟨v, hv⟩ := hm.total i (by simpa using lt_of_getElem? hi)
  obtain ⟨hmem, hs, hk⟩ := h.mem_vars_of_matched hm hi hv
  obtain ⟨ho, hv'⟩ : v.order = 0 ∧ (v ∈ states ++ algebraic ∨ v ∈ known) := by
    refine (h.within_residual (List.mem_of_getElem? hi) _ (mem_vars.mp hmem)).resolve_right ?_
    rintro ⟨x, f, heq, -⟩
    cases heq
  have hz : v ∈ algebraic :=
    (List.mem_append.mp (hv'.resolve_right (hk ho))).resolve_left hs
  exact ⟨v, ⟨hz, mem_functions.mpr ⟨v, hmem, Var.base_of_order ho⟩⟩, hv⟩

/-- Nothing depends on a rate. -/
theorem not_edge (hi : qs[i]? = some (.rate x f)) : ¬ (Rule.graph known qs m).Edge i j := by
  intro hedge
  obtain ⟨v, hv, -, hne, hmem⟩ := SemiExplicit.edge_dependencies.mp hedge
  obtain rfl := Option.some.inj ((h.matched_rate hm hi).symm.trans hv)
  obtain ⟨e, he, hmem, -⟩ := SemiExplicit.mem_candidates.mp hmem
  obtain ⟨q, hq, rfl⟩ : ∃ q, qs[j]? = some q ∧ q.residual = e := by simpa using he
  have hvars : x.der ∈ q.residual.vars := hmem.elim
    (fun hd => (Structure.mem_unknownDerivatives.mp hd).1)
    fun hf => (Structure.mem_unknownFunctions.mp hf).1
  exact hne (h.eq_of_der_mem hi hq hvars)

/-- A block is a single rate or some constraints. -/
theorem block_cases {b : List Nat} (hb : b ∈ (Rule.graph known qs m).blocks) :
    (∃ i x f, b = [i] ∧ qs[i]? = some (.rate x f)) ∨
      ∀ i ∈ b, ∃ g, qs[i]? = some (.constraint g) := by
  have hg : (Rule.graph known qs m).Closed := SemiExplicit.closed_dependencies hm.valid
  obtain ⟨u, hu, rfl⟩ := (Digraph.mem_blocks hg).mp hb
  have hrule : ∀ i ∈ (Rule.graph known qs m).nodes,
      ∃ q, qs[i]? = some q := by
    intro i hi
    have hlt : i < qs.length := by
      simpa [Rule.graph, SemiExplicit.dependencies, SemiExplicit.length_candidates] using hi
    exact ⟨_, List.getElem?_eq_getElem hlt⟩
  -- from a rate one gets nowhere
  have hstay : ∀ {i j : Nat} {x f}, qs[i]? = some (Rule.rate x f) →
      (Rule.graph known qs m).Reaches i j → j = i := by
    intro i j x f hi hreach
    rcases hreach.cases_head with heq | ⟨k, hk, -⟩
    · exact heq.symm
    · exact absurd hk (h.not_edge hm hi)
  obtain ⟨q, hq⟩ := hrule u hu
  cases q with
  | rate x f =>
    refine Or.inl ⟨u, x, f, List.perm_singleton.mp ?_, hq⟩
    refine (List.perm_ext_iff_of_nodup (Digraph.nodup_component hg hu) (List.nodup_singleton u)).mpr
      fun v => ?_
    rw [List.mem_singleton]
    constructor
    · exact fun hv => hstay hq ((Digraph.mem_component hg hu).mp hv).1
    · rintro rfl
      exact Digraph.self_mem_component hg hu
  | constraint g =>
    refine Or.inr fun i hi => ?_
    obtain ⟨hto, hback⟩ := (Digraph.mem_component hg hu).mp hi
    obtain ⟨p, hp⟩ := hrule i (hto.mem_nodes hg hu)
    cases p with
    | rate x f =>
      obtain rfl := hstay hp hback
      simp [hq] at hp
    | constraint g' => exact ⟨g', hp⟩

/-! ### Constraints in their blocks -/

omit h hm in
theorem mem_pairs {z : Var} :
    (g, z) ∈ Rule.pairs qs m ↔ ∃ i, qs[i]? = some (.constraint g) ∧ m.matched? i = some z := by
  simp only [Rule.pairs, List.mem_filterMap, List.mem_range, Option.bind_eq_some_iff,
    Option.map_eq_some_iff, Prod.mk.injEq]
  constructor
  · rintro ⟨i, -, q, ⟨q', hq, hc⟩, v, hv, rfl, rfl⟩
    exact ⟨i, hq.trans (congrArg some (Rule.eq_constraint hc)), hv⟩
  · rintro ⟨i, hi, hz⟩
    exact ⟨i, lt_of_getElem? hi, g, ⟨_, hi, rfl⟩, z, hz, rfl, rfl⟩

theorem constraint_of_matched {z : Var} (hi : m.matched? i = some z) (hz : z ∈ algebraic) :
    ∃ g, qs[i]? = some (.constraint g) := by
  have hlt : i < qs.length := by
    simpa [SemiExplicit.length_candidates] using hm.valid.lt hi
  have hq := List.getElem?_eq_getElem hlt
  generalize qs[i] = q at hq
  cases q with
  | rate x f =>
    obtain rfl := Option.some.inj ((h.matched_rate hm hq).symm.trans hi)
    simpa using h.order_unknown _ (List.mem_append_right _ hz)
  | constraint g => exact ⟨g, hq⟩

theorem pairing : Rule.Pairing algebraic (qs.filterMap Rule.constraint?) (Rule.pairs qs m) := by
  constructor
  · rw [← filterMap_range_getElem? Rule.constraint? qs, Rule.pairs, List.map_filterMap]
    refine List.Perm.of_eq (List.filterMap_congr fun i _ => ?_)
    rcases hg : (qs[i]?).bind Rule.constraint? with _ | g
    · rfl
    · obtain ⟨q, hq, hc⟩ := Option.bind_eq_some_iff.mp hg
      obtain ⟨z, -, hz⟩ := h.matched_constraint hm
        (hq.trans (congrArg some (Rule.eq_constraint hc)))
      simp [hz]
  · refine (List.perm_ext_iff_of_nodup ?_ (List.nodup_append.mp h.nodup).2.1).mpr fun z => ?_
    · rw [Rule.pairs, List.map_filterMap]
      refine List.nodup_range.filterMap fun i j z hi hj => ?_
      simp only [Option.mem_def, Option.map_eq_some_iff, Option.bind_eq_some_iff] at hi hj
      obtain ⟨_, ⟨_, -, _, hi, rfl⟩, rfl⟩ := hi
      obtain ⟨_, ⟨_, -, _, hj, rfl⟩, rfl⟩ := hj
      exact hm.valid.eq_of_matched hi hj
    · constructor
      · rw [List.mem_map]
        rintro ⟨⟨g, z⟩, hp, rfl⟩
        obtain ⟨i, hi, hz⟩ := mem_pairs.mp hp
        obtain ⟨w, hw, hw'⟩ := h.matched_constraint hm hi
        exact Option.some.inj (hw'.symm.trans hz) ▸ hw.1
      · intro hz
        obtain ⟨i, hi⟩ := hm.onto z (List.mem_append_right _ (h.mem_algebraic.mpr hz))
        obtain ⟨g, hg⟩ := h.constraint_of_matched hm hi hz
        exact List.mem_map_of_mem (mem_pairs.mpr ⟨i, hg, hi⟩)
  · rintro ⟨g, z⟩ hp
    obtain ⟨i, hi, hz⟩ := mem_pairs.mp hp
    obtain ⟨w, hw, hw'⟩ := h.matched_constraint hm hi
    obtain rfl := Option.some.inj (hz.symm.trans hw')
    exact hw.2

/-- What is needed before a constraint leads to it. -/
theorem reaches_of_needs {z w : Var} (hi : m.matched? i = some z) (hz : z ∈ algebraic)
    (hneeds : Relation.ReflTransGen (Rule.Needs (Rule.pairs qs m)) z w) :
    w ∈ algebraic ∧ ∃ j, m.matched? j = some w ∧ (Rule.graph known qs m).Reaches i j := by
  induction hneeds with
  | refl => exact ⟨hz, i, hi, .refl⟩
  | @tail v w _ hneeds ih =>
    obtain ⟨hv, j, hj, hreach⟩ := ih
    obtain ⟨g, hp, hoccurs⟩ := hneeds
    obtain ⟨k, hk, hw⟩ := mem_pairs.mp hp
    obtain ⟨w', hw', hkw⟩ := h.matched_constraint hm hk
    obtain rfl := Option.some.inj (hkw.symm.trans hw)
    refine ⟨hw'.1, k, hw, ?_⟩
    by_cases hkj : k = j
    · exact hkj ▸ hreach
    · refine hreach.tail (SemiExplicit.edge_dependencies.mpr ⟨v, hj, ?_, hkj, ?_⟩)
      · simpa [SemiExplicit.length_candidates] using lt_of_getElem? hk
      · exact h.mem_candidates hk ⟨hv, hoccurs⟩

/-- Some constraint of a block bends in a variable of the block. -/
theorem bends_in_block {b : List Nat} (hb : b ∈ (Rule.graph known qs m).blocks)
    (hcon : ∀ i ∈ b, ∃ g, qs[i]? = some (.constraint g)) : ∃ i ∈ b, ∃ j ∈ b, ∃ g z,
      qs[i]? = some (.constraint g) ∧ m.matched? j = some z ∧ g.Bends z := by
  have hg : (Rule.graph known qs m).Closed := SemiExplicit.closed_dependencies hm.valid
  obtain ⟨u, hu, rfl⟩ := (Digraph.mem_blocks hg).mp hb
  obtain ⟨g, hgu⟩ := hcon u (Digraph.self_mem_component hg hu)
  obtain ⟨z, hz, hzu⟩ := h.matched_constraint hm hgu
  have hblock : ∀ {w : Var}, Rule.Tied (Rule.pairs qs m) z w →
      ∀ {j}, m.matched? j = some w → j ∈ (Rule.graph known qs m).component u := by
    intro w ⟨hto, hback⟩ j hj
    obtain ⟨hw, k, hk, hreach⟩ := h.reaches_of_needs hm hzu hz.1 hto
    obtain ⟨-, l, hl, hreach'⟩ := h.reaches_of_needs hm hj hw hback
    obtain rfl := hm.valid.eq_of_matched hj hk
    obtain rfl := hm.valid.eq_of_matched hzu hl
    exact (Digraph.mem_component hg hu).mpr ⟨hreach, hreach'⟩
  obtain ⟨⟨e, v⟩, hp, ⟨e', w⟩, hq, hv, hw, hbends⟩ :=
    h.bent (h.pairing hm) _ (mem_pairs.mpr ⟨u, hgu, hzu⟩)
  obtain ⟨i, hi, hiv⟩ := mem_pairs.mp hp
  obtain ⟨j, -, hjw⟩ := mem_pairs.mp hq
  exact ⟨i, hblock hv hiv, j, hblock hw hjw, e, w, hi, hjw, hbends⟩

end Residuals

end Rules

end Flange

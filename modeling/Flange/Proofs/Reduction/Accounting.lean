import Flange.Proofs.Reduction.Alias
import Flange.Proofs.Reduction.Stages

/-! # Accounting for unknowns

A reduced system accounts for every unknown that is in an equation after the elimination of
aliases. An unknown that is in none is not missed by the structural check, which counts the
unknowns of the equations.
-/

namespace Flange

/-- Unknowns and inputs are different functions, and what is observed is given by them. -/
structure EquationSystem.WellFormed (s : EquationSystem) : Prop where
  order_unknown : ∀ u ∈ s.unknowns, u.order = 0
  order_input : ∀ u ∈ s.inputs, u.order = 0
  disjoint : ∀ u ∈ s.unknowns, u ∉ s.inputs
  observed : ∀ q ∈ s.observed, q.2.Over fun f => f ∈ s.unknowns ∨ f ∈ s.inputs

/-- The unknowns are not observed and have no name that is made for a chosen or kept derivative. -/
structure EquationSystem.Unshadowed (s : EquationSystem) : Prop where
  unobserved : ∀ u ∈ s.unknowns, u ∉ s.observed.map Prod.fst
  dummy : ∀ u ∈ s.unknowns, ∀ v, u.name ≠ DummySystem.dummyName v
  derivative : ∀ u ∈ s.unknowns, ∀ v, u.name ≠ SemiExplicit.derivativeName v

/-- One letter is no name that is made. -/
theorem EquationSystem.unshadowed_of_length {s : EquationSystem} (hobs : s.observed = [])
    (hs : ∀ u ∈ s.unknowns, u.name.length = 1) : s.Unshadowed := by
  refine ⟨by simp [hobs], fun u hu v hv => ?_, fun u hu v hv => ?_⟩
  · have htwo : "d_".length = 2 := by decide
    have := hs u hu
    rw [hv, DummySystem.dummyName, String.length_append] at this
    omega
  · have hfour : "der_".length = 4 := by decide
    have := hs u hu
    rw [hv, SemiExplicit.derivativeName, String.length_append] at this
    omega

/-- Apart from `lost`, every unknown of `s` is a state, algebraic or observed, and what is
observed is given by states, algebraic variables and inputs. -/
structure ReducedSystem.Accounts (r : ReducedSystem) (s : EquationSystem) (lost : List Var) :
    Prop where
  unknowns : ∀ u ∈ s.unknowns,
    u ∈ r.states ∨ u ∈ r.algebraic ∨ u ∈ r.observed.map Prod.fst ∨ u ∈ lost
  observed : ∀ q ∈ r.observed, ∀ v ∈ q.2.vars,
    v ∈ r.states ∨ v ∈ r.algebraic ∨ v ∈ s.inputs ∨ v ∈ lost

namespace Reduction

/-- The unknowns left by the elimination of aliases that are in no equation. -/
def unused (s : EquationSystem) (a : Aliases) : List Var :=
  a.unknowns.filter fun u => !(lower s a).exprs.any fun e => e.functions.contains u

variable {s : EquationSystem} {o : ReductionOptions} {a : Aliases} {t : Structure}
  {d : Differentiation} {x : DummySystem} {y : SemiExplicit} {u v : Var}

theorem mem_unused : u ∈ unused s a ↔
    u ∈ a.unknowns ∧ ∀ e ∈ (lower s a).exprs, u ∉ e.functions := by
  simp [unused]

theorem eliminateAliases_keeps {P : Aliases → Prop} (ha : eliminateAliases s o = .ok a)
    (hstep : ∀ {x b c}, Aliases.Step (Aliases.contextOf s) b x c → P b → P c)
    (hs : P (Aliases.ofSystem s)) : P a := by
  unfold eliminateAliases at ha
  split at ha
  · exact (Aliases.steps_ok ha).keeps hstep hs
  · exact Except.ok.inj ha ▸ hs

theorem tracks (hs : s.WellFormed) (ha : eliminateAliases s o = .ok a) :
    a.Tracks s.unknowns s.inputs :=
  eliminateAliases_keeps ha (fun hstep h => h.step hs.order_unknown hstep)
    ⟨List.Subset.refl _, fun _ => Or.inl, hs.observed⟩

theorem name_mem_takenNames (horder : ∀ u ∈ s.unknowns, u.order = 0) (hu : u ∈ s.unknowns) :
    u.name ∈ takenNames s :=
  List.mem_append_left _ (List.mem_map.mpr ⟨u, hu, by simp [Var.flatName, horder u hu]⟩)

/-- An unknown in an equation is a function of its structure. -/
theorem mem_functions_or_unused (hs : s.WellFormed) (ha : eliminateAliases s o = .ok a)
    (hu : u ∈ a.unknowns) :
    u ∈ (Structure.ofExprs s.inputs (lower s a).exprs).functions ∨ u ∈ unused s a := by
  by_cases h : ∃ e ∈ (lower s a).exprs, u ∈ e.functions
  · exact Or.inl ((Structure.mem_functions_ofExprs hs.order_input).mpr
      ⟨hs.disjoint u ((tracks hs ha).subset hu), h⟩)
  · exact Or.inr (mem_unused.mpr ⟨hu, fun e he hf => h ⟨e, he, hf⟩⟩)

namespace Passed

variable (h : Passed s o a t d x y)

include h

theorem mem_functions (hs : s.WellFormed)
    (hu : u ∈ (Structure.ofExprs s.inputs (lower s a).exprs).functions) :
    u ∈ (Structure.ofExprs s.inputs x.exprs).functions := by
  obtain ⟨ys, hx⟩ := h.chosen
  have hperm := h.functions_perm hs.order_input
  rw [h.structure_eq, hx.structure_] at hperm
  exact hperm.mem_iff.mpr (List.mem_append_left _ hu)

theorem accounts (hs : s.WellFormed) :
    (ReducedSystem.ofSemiExplicit y s a.strong a.weak).Accounts s (unused s a) := by
  have ht := tracks hs h.aliases
  obtain ⟨p, hp, hleft, rfl⟩ := h.complete hs.order_input
  have hlen := SemiExplicit.length_rates_ofProgress (.ofExprs s.inputs x.exprs) a.observed p
  constructor
  · intro u hu
    rw [ReducedSystem.mem_states_ofSemiExplicit hlen, ReducedSystem.mem_algebraic_ofSemiExplicit,
      ReducedSystem.mem_keys_ofSemiExplicit]
    rcases ht.accounted u hu with hu | hu
    · rcases mem_functions_or_unused hs h.aliases hu with hu | hu
      · rcases hp.mem_ofProgress (h.mem_functions hs hu) a.observed with hu | hu | hu
        · exact Or.inl hu
        · exact Or.inr (Or.inl hu)
        · exact Or.inr (Or.inr (Or.inl hu))
      · exact Or.inr (Or.inr (Or.inr hu))
    · exact Or.inr (Or.inr (Or.inl (SemiExplicit.mem_keys_ofProgress.mpr (Or.inr hu))))
  · intro q hq v hv
    rw [ReducedSystem.mem_observed_ofSemiExplicit] at hq
    rw [ReducedSystem.mem_states_ofSemiExplicit hlen, ReducedSystem.mem_algebraic_ofSemiExplicit]
    have hobs : ∀ r ∈ a.observed, r.2.Over fun f =>
        f ∈ (Structure.ofExprs s.inputs x.exprs).functions ∨ f ∈ s.inputs ∨ f ∈ unused s a :=
      fun r hr => (ht.givenBy r hr).imp fun f hf => by
        rcases hf with hf | hf
        · exact (mem_functions_or_unused hs h.aliases hf).imp (h.mem_functions hs) Or.inr
        · exact Or.inr (Or.inl hf)
    have hover := hp.over_observed hobs q hq _ (Expr.mem_vars.mp hv)
    have ho := SemiExplicit.order_of_leftover hleft
      (List.mem_append_right _ (List.mem_map_of_mem hq)) hv
    rw [Symbol.Only, Var.base_of_order ho] at hover
    rcases hover with (hs | hk | hr) | hl
    · exact Or.inl hs
    · exact Or.inr (Or.inr (Or.inl hk))
    · exact Or.inr (Or.inl hr)
    · exact Or.inr (Or.inr (Or.inr hl))

/-- An unknown that no equation contains comes into none, unless its name is made again. -/
theorem not_mem_functions (hs : s.WellFormed) (hn : s.Unshadowed) (hu : u ∈ s.unknowns)
    (hun : ∀ e ∈ (lower s a).exprs, u ∉ e.functions) :
    u ∉ (Structure.ofExprs s.inputs x.exprs).functions := by
  obtain ⟨ys, hx⟩ := h.chosen
  have hperm := h.functions_perm hs.order_input
  rw [h.structure_eq, hx.structure_] at hperm
  rw [hperm.mem_iff, List.mem_append, List.mem_append,
    Structure.mem_functions_ofExprs hs.order_input]
  rintro (⟨-, e, he, hf⟩ | hd | hnew)
  · exact hun e he hf
  · rw [hx.dummies, List.map_map] at hd
    obtain ⟨q, -, rfl⟩ := List.mem_map.mp hd
    exact hn.dummy _ hu _ rfl
  · rw [hx.lowered] at hnew
    exact newVars_lowerOrder.free u hnew
      (List.mem_append_left _ (name_mem_takenNames hs.order_unknown hu))

/-- An unused unknown is not accounted for, unless its name is made again. -/
theorem not_accounted (hs : s.WellFormed) (hn : s.Unshadowed) (hu : u ∈ unused s a) :
    let r := ReducedSystem.ofSemiExplicit y s a.strong a.weak
    u ∉ r.states ∧ u ∉ r.algebraic ∧ u ∉ r.observed.map Prod.fst := by
  intro r
  obtain ⟨hua, hun⟩ := mem_unused.mp hu
  have hus := (tracks hs h.aliases).subset hua
  have huo := hs.order_unknown u hus
  have hfun := h.not_mem_functions hs hn hus hun
  obtain ⟨p, hp, hleft, rfl⟩ := h.complete hs.order_input
  have hlen := SemiExplicit.length_rates_ofProgress (.ofExprs s.inputs x.exprs) a.observed p
  have htarget : u ∉ SemiExplicit.targets (.ofExprs s.inputs x.exprs) := fun h =>
    hfun (SemiExplicit.mem_targets_of_order huo h)
  refine ⟨?_, ?_, ?_⟩
  · rw [ReducedSystem.mem_states_ofSemiExplicit hlen]
    exact fun h => hfun (List.mem_append_left _ h)
  · rw [ReducedSystem.mem_algebraic_ofSemiExplicit]
    intro halg
    obtain ⟨v, hv, rfl⟩ := List.mem_map.mp halg
    by_cases ho : v.order = 0
    · rw [SemiExplicit.renamed_of_order ho] at htarget
      exact htarget (hp.covers.mp (Or.inr hv))
    · have hder : v.isDerivative = true := by simpa [Var.isDerivative] using ho
      exact hn.derivative _ hus v (by simp [SemiExplicit.renamed, hder])
  · rw [ReducedSystem.mem_keys_ofSemiExplicit, SemiExplicit.mem_keys_ofProgress]
    rintro (hsolved | hobs)
    · obtain ⟨r, hr, rfl⟩ := List.mem_map.mp hsolved
      obtain ⟨q, hq, rfl⟩ := List.mem_map.mp (List.mem_of_mem_filter hr)
      exact htarget (hp.covers.mp (Or.inl (List.mem_map.mpr ⟨q, hq, rfl⟩)))
    · exact eliminateAliases_keeps (P := fun a => ∀ u ∈ a.unknowns, u ∉ a.observed.map Prod.fst)
        h.aliases Aliases.unobserved_step hn.unobserved u hua hobs

end Passed

end Reduction

namespace ReducedSystem

open Reduction

variable {s : EquationSystem} {o : ReductionOptions} {r : ReducedSystem}

/-- The reduced system accounts for all unknowns exactly when each unknown that the elimination
of aliases leaves is in an equation; in any case it accounts for the others. -/
theorem accounts_iff_unused_eq_nil (hs : s.WellFormed) (hr : (reduce s o).outcome = .ok r) :
    ∃ a, eliminateAliases s o = .ok a ∧ r.Accounts s (unused s a) ∧
      (s.Unshadowed → (r.Accounts s [] ↔ unused s a = [])) := by
  obtain ⟨a, t, d, x, y, h, rfl⟩ := reduce_ok.mp hr
  refine ⟨a, h.aliases, h.accounts hs, fun hn => ⟨fun hacc => ?_, fun hnil => ?_⟩⟩
  · refine List.eq_nil_iff_forall_not_mem.mpr fun u hu => ?_
    obtain ⟨hstate, halg, hobs⟩ := h.not_accounted hs hn hu
    have hus := (tracks hs h.aliases).subset (mem_unused.mp hu).1
    rcases hacc.unknowns u hus with hu | hu | hu | hu
    · exact hstate hu
    · exact halg hu
    · exact hobs hu
    · exact List.not_mem_nil hu
  · exact hnil ▸ h.accounts hs

/-- In `x = y` the unknown `y` is lost: `x` is observed as `y`, which is nowhere else. -/
theorem accounts_iff_lone_alias :
    let x : Var := ⟨"x", 0⟩
    let y : Var := ⟨"y", 0⟩
    let eqs : List Eqn := [⟨⟨.var x, .var y⟩, .comp, .nobody⟩]
    let s : EquationSystem :=
      { equations := eqs, exprs := eqs.map Eqn.residual, unknowns := [x, y] }
    s.WellFormed ∧ ∃ r, (reduce s).outcome = .ok r ∧ ¬ r.Accounts s [] := by
  intro x y eqs s
  have hs : s.WellFormed := by
    refine ⟨?_, ?_, ?_, ?_⟩ <;> simp [s, x, y]
  have hn : s.Unshadowed := EquationSystem.unshadowed_of_length rfl (by decide)
  have hok : (reduce s).outcome.isOk = true := by decide +kernel
  obtain ⟨r, hr⟩ : ∃ r, (reduce s).outcome = .ok r := by
    cases h : (reduce s).outcome with
    | ok r => exact ⟨r, rfl⟩
    | error e => simp [h, Except.isOk, Except.toBool] at hok
  refine ⟨hs, r, hr, fun hacc => ?_⟩
  obtain ⟨a, ha, -, hiff⟩ := accounts_iff_unused_eq_nil hs hr
  have hunused : (eliminateAliases s {}).toOption.map (unused s) = some [y] := by decide +kernel
  rw [ha] at hunused
  simp [Except.toOption, (hiff hn).mp hacc] at hunused

end ReducedSystem

end Flange

import Flange.Proofs.Reduction.Leaves
import Flange.Proofs.Reduction.SemiExplicit
import Flange.Proofs.Run
import Flange.Reduction.Stages

/-! # Stages of a reduction

What the stages give one after another when the reduction is not refused.
-/

namespace Flange

namespace Reduction

/-- The results of the stages. -/
structure Passed (s : EquationSystem) (o : ReductionOptions) (a : Aliases) (t : Structure)
    (d : Differentiation) (x : DummySystem) (y : SemiExplicit) : Prop where
  aliases : eliminateAliases s o = .ok a
  checked : check s (lower s a).exprs = .ok t
  differentiated : t.differentiate (lower s a).exprs o.maxSearches = .ok d
  dummies : d.dummies (dummyContext s a) d.blocks s.inputs (takenAfter s (lower s a)) = .ok x
  solved : x.structure_.semiExplicit x.exprs a.observed o.solveBlocks = .ok y

variable {s : EquationSystem} {o : ReductionOptions} {a : Aliases} {t : Structure}
  {d : Differentiation} {x : DummySystem} {y : SemiExplicit} {es : List Expr}

/-- The results of the stages before the last one, when none of them is refused. -/
def results? (s : EquationSystem) (o : ReductionOptions) :
    Option (Aliases × Structure × Differentiation × DummySystem) := do
  let a ← (eliminateAliases s o).toOption
  let t ← (check s (lower s a).exprs).toOption
  let d ← (t.differentiate (lower s a).exprs o.maxSearches).toOption
  let x ← (d.dummies (dummyContext s a) d.blocks s.inputs (takenAfter s (lower s a))).toOption
  return (a, t, d, x)

theorem Passed.results?_eq (h : Passed s o a t d x y) : results? s o = some (a, t, d, x) := by
  simp [results?, h.aliases, h.checked, h.differentiated, h.dummies, Except.toOption]

theorem outcome_aliasStage : (aliasStage s o).outcome = .ok a ↔ eliminateAliases s o = .ok a := by
  unfold aliasStage
  split
  · rw [Run.outcome_stage, aliasRun]
    split
    · next h => simp [h]
    · next h => simp [h]
  · next h => simp [eliminateAliases, h]

theorem outcome_checkStage {verbose : Bool} :
    (checkStage s es verbose).outcome = .ok t ↔ check s es = .ok t := by
  simp [checkStage, Run.outcome_stage, Run.bind_ok, Run.outcome_ofExcept]

theorem outcome_differentiationStage : (differentiationStage t es o).outcome = .ok d ↔
    t.differentiate es o.maxSearches = .ok d := by
  simp [differentiationStage, Run.outcome_stage, Run.bind_ok, Run.outcome_ofExcept]

theorem outcome_dummyStage {l : Lowered} {blocks : List (List Nat)} {verbose : Bool} :
    (dummyStage s a l d blocks verbose).outcome = .ok x ↔
      d.dummies (dummyContext s a) blocks s.inputs (takenAfter s l) = .ok x := by
  simp [dummyStage, Run.outcome_stage, Run.bind_ok, Run.outcome_ofExcept]

theorem reduce_ok {r : ReducedSystem} : (reduce s o).outcome = .ok r ↔
    ∃ a t d x y, Passed s o a t d x y ∧ ReducedSystem.ofSemiExplicit y s a.strong a.weak = r := by
  simp only [reduce, Run.bind_ok, outcome_aliasStage, lowerStage, Run.outcome_stage,
    outcome_checkStage, outcome_differentiationStage, blockStage, outcome_dummyStage,
    semiExplicitStage, Run.outcome_ofExcept, Run.outcome_pure, Run.outcome_line,
    Except.ok.injEq, exists_eq_left', exists_const, true_and]
  constructor
  · rintro ⟨a, ha, t, ht, d, hd, x, hx, y, hy, hr⟩
    exact ⟨a, t, d, x, y, ⟨ha, ht, hd, hx, hy⟩, hr⟩
  · rintro ⟨a, t, d, x, y, h, hr⟩
    exact ⟨a, h.aliases, t, h.checked, d, h.differentiated, x, h.dummies, y, h.solved, hr⟩

/-! ### What the stages establish -/

theorem check_ok (h : check s es = .ok t) :
    t = .ofExprs s.inputs es ∧ t.size = es.length := by
  unfold check at h
  dsimp only at h
  split at h
  · simp at h
  · next hfault =>
    obtain rfl := Except.ok.inj h
    refine ⟨rfl, not_not.mp fun hsize => ?_⟩
    simp [Structure.fault?, hsize] at hfault

/-- The equations that are checked. -/
theorem firstOrder_lower (s : EquationSystem) (a : Aliases) :
    FirstOrder s.inputs (lower s a).exprs := firstOrder_lowerOrder

section Differentiated

variable {steps : Nat} (hcheck : check s (lower s a).exprs = .ok t)
  (hd : t.differentiate (lower s a).exprs steps = .ok d)

include hcheck

theorem ofFirstOrder_of_check : t.OfFirstOrder :=
  (check_ok hcheck).1 ▸ Structure.ofFirstOrder_ofExprs (firstOrder_lower s a)

theorem length_perEquation_of_check : t.perEquation.length = (lower s a).exprs.length := by
  rw [(check_ok hcheck).1]
  simp [Structure.ofExprs]

include hd

/-- All equations that passed the check are matched. -/
theorem covered_of_differentiate : Differentiation.Covered (.start t (lower s a).exprs)
    (lower s a).exprs.length (lower s a).exprs.length (lower s a).exprs.length d :=
  (ofFirstOrder_of_check hcheck).covered_of_differentiate (length_perEquation_of_check hcheck)
    (check_ok hcheck).2 hd

theorem kept_of_differentiate {P : Differentiation → Prop}
    (hP : Differentiation.Kept (.start t (lower s a).exprs) (lower s a).exprs.length P)
    (hstart : P (.start t (lower s a).exprs)) : P d :=
  hP.of_differentiate (ofFirstOrder_of_check hcheck) (length_perEquation_of_check hcheck)
    (check_ok hcheck).2 hstart hd

theorem finished_of_differentiate (hinputs : ∀ v ∈ s.inputs, v.order = 0) :
    d.Finished s.inputs (lower s a).exprs where
  firstOrder := firstOrder_lower s a
  order_known := hinputs
  covered := (check_ok hcheck).1 ▸ covered_of_differentiate hcheck hd
  leavesHighest := kept_of_differentiate hcheck hd Differentiation.kept_leavesHighest
    (Differentiation.leavesHighest_start _ _)

/-- The variables of the equations with dummies: the functions of the checked equations, dummies
and new variables. -/
theorem functions_perm_of_dummies {ctx : DummyContext} {taken : List String}
    {ys : List DummyBlock} (hinputs : ∀ v ∈ s.inputs, v.order = 0)
    (hx : DummySystem.Chosen d ctx s.inputs taken ys x) : x.structure_.functions.Perm
      (t.functions ++ (x.dummies.map Prod.snd ++ x.lowered.newVars)) := by
  obtain ⟨heq, hsize⟩ := check_ok hcheck
  refine hx.functions_perm (covered_of_differentiate hcheck hd) rfl hinputs
    (Structure.length_functions.trans hsize) ?_
  intro e he
  rw [heq]
  refine Expr.over_iff.mpr fun f hf => ?_
  by_cases hk : f ∈ s.inputs
  · exact Or.inr hk
  · exact Or.inl ((Structure.mem_functions_ofExprs hinputs).mpr ⟨hk, e, he, hf⟩)

end Differentiated

namespace Passed

variable (h : Passed s o a t d x y)

include h

theorem structure_eq : t = .ofExprs s.inputs (lower s a).exprs := (check_ok h.checked).1

theorem covered : Differentiation.Covered (.start t (lower s a).exprs) (lower s a).exprs.length
    (lower s a).exprs.length (lower s a).exprs.length d :=
  covered_of_differentiate h.checked h.differentiated

theorem chosen : ∃ ys, DummySystem.Chosen d (dummyContext s a) s.inputs (takenAfter s (lower s a))
    ys x := DummySystem.dummies_ok h.dummies

theorem firstOrder : FirstOrder s.inputs x.exprs := by
  obtain ⟨ys, hx⟩ := h.chosen
  rw [hx.exprs, hx.lowered]
  exact firstOrder_lowerOrder

theorem functions_perm (hinputs : ∀ v ∈ s.inputs, v.order = 0) : x.structure_.functions.Perm
    (t.functions ++ (x.dummies.map Prod.snd ++ x.lowered.newVars)) := by
  obtain ⟨ys, hx⟩ := h.chosen
  exact functions_perm_of_dummies h.checked h.differentiated hinputs hx

theorem progress : ∃ m, SemiExplicit.Paired s.inputs x.exprs m ∧ y.leftover = [] ∧
    y = .ofProgress (.ofExprs s.inputs x.exprs) a.observed (SemiExplicit.solveBlocks o.solveBlocks
      x.exprs (SemiExplicit.candidates (.ofExprs s.inputs x.exprs)) m) := by
  obtain ⟨ys, hx⟩ := h.chosen
  have hs := h.solved
  have hcount := hx.count
  rw [hx.structure_] at hs hcount
  obtain ⟨m, -, hm, hleft, hy⟩ :=
    Structure.semiExplicit_ok hs (by simpa [SemiExplicit.targets] using hcount)
  exact ⟨m, hm, hleft, hy⟩

theorem complete (hinputs : ∀ v ∈ s.inputs, v.order = 0) :
    ∃ p, SemiExplicit.Complete s.inputs x.exprs p ∧ y.leftover = [] ∧
      y = .ofProgress (.ofExprs s.inputs x.exprs) a.observed p := by
  obtain ⟨m, hm, hleft, hy⟩ := h.progress
  exact ⟨_, hm.complete hinputs, hleft, hy⟩

end Passed

end Reduction

namespace ReducedSystem

open SemiExplicit

variable {s : EquationSystem} {strong weak : InitialValues} {y : SemiExplicit} {v : Var}

theorem states_perm (h : y.states.length = y.rates.length) :
    (ofSemiExplicit y s strong weak).states.Perm y.states := by
  have hperm : (ofSemiExplicit y s strong weak).states.Perm ((y.states.zip y.rates).map Prod.fst) :=
    (sortedByText_perm _ _).map _
  rwa [List.map_fst_zip h.le] at hperm

theorem rates_perm (h : y.states.length = y.rates.length) :
    (ofSemiExplicit y s strong weak).rates.Perm y.rates := by
  have hperm : (ofSemiExplicit y s strong weak).rates.Perm ((y.states.zip y.rates).map Prod.snd) :=
    (sortedByText_perm _ _).map _
  rwa [List.map_snd_zip h.ge] at hperm

theorem mem_states_ofSemiExplicit (h : y.states.length = y.rates.length) :
    v ∈ (ofSemiExplicit y s strong weak).states ↔ v ∈ y.states := (states_perm h).mem_iff

@[simp] theorem mem_algebraic_ofSemiExplicit :
    v ∈ (ofSemiExplicit y s strong weak).algebraic ↔ v ∈ y.algebraic := by
  simp [ofSemiExplicit]

theorem algebraic_perm : (ofSemiExplicit y s strong weak).algebraic.Perm y.algebraic :=
  sortedByText_perm _ _

theorem observed_perm : (ofSemiExplicit y s strong weak).observed.Perm y.observed :=
  sortedByText_perm _ _

@[simp] theorem mem_observed_ofSemiExplicit {q : Var × Expr} :
    q ∈ (ofSemiExplicit y s strong weak).observed ↔ q ∈ y.observed := by
  simp [ofSemiExplicit, sortedPairs]

theorem mem_keys_ofSemiExplicit :
    v ∈ (ofSemiExplicit y s strong weak).observed.map Prod.fst ↔ v ∈ y.observed.map Prod.fst := by
  simp only [List.mem_map, mem_observed_ofSemiExplicit]

end ReducedSystem

end Flange

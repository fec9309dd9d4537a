import Flange.Proofs.Reduction.Stages

/-! # Refusals

At which stage a reduction is refused, and that derivatives of inputs are asked for by the last
stage only, which names them.
-/

namespace Flange

namespace Run

variable {α β : Type} {f : Failure}

theorem bind_error {r : Run α} {k : α → Run β} : (r >>= k).outcome = .error f ↔
    r.outcome = .error f ∨ ∃ a, r.outcome = .ok a ∧ (k a).outcome = .error f := by
  rw [outcome_bind]
  cases r.outcome with
  | error e => simp [bind, Except.bind]
  | ok a => simp [bind, Except.bind]

theorem ofExcept_error {x : Except ModelError α} :
    (ofExcept x).outcome = .error f ↔ ∃ e, x = .error e ∧ f = .model e := by
  cases x with
  | error e => simp [ofExcept, fail, eq_comm]
  | ok b => simp [ofExcept, Run.pure]

theorem stage_error {name : String} {r : Run α} :
    (stage name r).outcome = .error f ↔ r.outcome = .error f := by
  simp [stage, bind_error]

end Run

namespace Reduction

variable {s : EquationSystem} {o : ReductionOptions} {f : Failure}

/-- The stage that refuses, after those before it passed. -/
inductive Refused (s : EquationSystem) (o : ReductionOptions) : Failure → Prop
  | aliases {f : Failure} {a : Aliases} : eliminateAliases s o = .error (f, a) → Refused s o f
  | checked {a : Aliases} {e : ModelError} : eliminateAliases s o = .ok a →
      check s (lower s a).exprs = .error e → Refused s o (.model e)
  | differentiated {a : Aliases} {t : Structure} {e : ModelError} :
      eliminateAliases s o = .ok a → check s (lower s a).exprs = .ok t →
      t.differentiate (lower s a).exprs o.maxSearches = .error e → Refused s o (.model e)
  | dummies {a : Aliases} {t : Structure} {d : Differentiation} {e : ModelError} :
      eliminateAliases s o = .ok a → check s (lower s a).exprs = .ok t →
      t.differentiate (lower s a).exprs o.maxSearches = .ok d →
      d.dummies (dummyContext s a) d.blocks s.inputs (takenAfter s (lower s a)) = .error e →
      Refused s o (.model e)
  | solved {a : Aliases} {t : Structure} {d : Differentiation} {x : DummySystem}
      {e : ModelError} : eliminateAliases s o = .ok a → check s (lower s a).exprs = .ok t →
      t.differentiate (lower s a).exprs o.maxSearches = .ok d →
      d.dummies (dummyContext s a) d.blocks s.inputs (takenAfter s (lower s a)) = .ok x →
      x.structure_.semiExplicit x.exprs a.observed o.solveBlocks = .error e →
      Refused s o (.model e)

theorem aliasStage_error : (aliasStage s o).outcome = .error f ↔
    ∃ a, eliminateAliases s o = .error (f, a) := by
  unfold aliasStage
  split
  · rw [Run.stage_error, aliasRun]
    split
    · next h => simp [h]
    · next h => simp [h]
  · next h => simp [eliminateAliases, h]

theorem reduce_error (h : (reduce s o).outcome = .error f) : Refused s o f := by
  simp only [reduce, Run.bind_error, aliasStage_error, outcome_aliasStage, lowerStage,
    Run.stage_error, Run.outcome_stage, checkStage, Run.bind_ok, differentiationStage, blockStage, dummyStage, semiExplicitStage, Run.ofExcept_error,
    Run.outcome_ofExcept, Run.outcome_pure, Run.outcome_line, Except.ok.injEq, exists_eq_left',
    exists_eq_right, exists_const, true_and, reduceCtorEq, false_or, or_false, exists_false, and_false] at h
  rcases h with ⟨a, ha⟩ | ⟨a, ha, ⟨e, he, rfl⟩ | ⟨t, ht, ⟨e, he, rfl⟩ | ⟨d, hd, h⟩⟩⟩
  · exact .aliases ha
  · exact .checked ha he
  · exact .differentiated ha ht he
  · rcases h with ⟨e, he, rfl⟩ | ⟨x, hx, e, he, rfl⟩
    · exact .dummies ha ht hd he
    · exact .solved ha ht hd hx he

end Reduction

/-! ### Causes -/

namespace Aliases

variable {ctx : AliasContext} {a b : Aliases} {v w : Var} {sub : Expr} {e : ModelError}

/-- What aliases can be refused for. -/
def Refuses (f : Failure) : Prop := ∀ e, f = .model e → e.cause ≠ .reduction .inputDerivatives

theorem refuses_refuse {c : ReductionCause} {es : List Expr} {ss : List Symbol}
    (h : c ≠ .inputDerivatives) : Refuses (AliasContext.refuse c es ss) := by
  rintro e he heq
  obtain rfl := Failure.model.inj he
  exact h (Cause.reduction.inj heq)

theorem refuses_notReal : Refuses .notReal := by
  rintro e ⟨⟩

theorem trivialFault?_refuses {e : Expr} {f : Failure} (h : ctx.trivialFault? e = some f) :
    Refuses f := by
  unfold AliasContext.trivialFault? at h
  split at h
  · simp at h
  split at h
  · exact Option.some.inj h ▸ refuses_refuse (by simp)
  split at h
  · exact Option.some.inj h ▸ refuses_refuse (by simp)
  split at h
  · exact Option.some.inj h ▸ refuses_notReal
  split at h
  · simp at h
  · rw [Option.ite_none_right_eq_some] at h
    exact Option.some.inj h.2 ▸ refuses_refuse (by simp)

theorem scan_refuses {us ds : List Var} {f : Failure} : ∀ {es : List Expr} {i : Nat},
    ctx.scan us ds es i = .error f → Refuses f
  | [], _, h => by simp [AliasContext.scan] at h
  | e :: es, i, h => by
    rw [AliasContext.scan] at h
    split at h
    · next g hg =>
      obtain rfl := Except.error.inj h
      unfold AliasContext.action? at hg
      split at hg
      · split at hg
        · simp at hg
        · split at hg
          · next k hk => exact Except.error.inj hg ▸ trivialFault?_refuses hk
          · simp at hg
      · simp at hg
    · simp at h
    · exact scan_refuses h

theorem carry_refuses {f : Failure} (h : carry ctx a v sub = .error (f, b)) : Refuses f := by
  unfold carry at h
  dsimp only at h
  split at h
  · simp at h
  split at h
  · unfold checkConstant at h
    split at h
    · exact (Prod.mk.inj (Except.error.inj h)).1 ▸ refuses_notReal
    split at h
    · exact (Prod.mk.inj (Except.error.inj h)).1 ▸ refuses_refuse (by simp)
    split at h <;> simp at h
  · split at h
    · exact (Prod.mk.inj (Except.error.inj h)).1 ▸ refuses_notReal
    · unfold carryStrong at h
      split at h
      · simp [Except.map] at h
      split at h
      · split at h
        · simp [Except.map] at h
        · exact (Prod.mk.inj (Except.error.inj h)).1 ▸ refuses_refuse (by simp)
      · simp [Except.map] at h

theorem steps_refuses {f : Failure} : ∀ {fuel : Nat} {a : Aliases},
    steps ctx fuel a = .error (f, b) → Refuses f
  | 0, _, h => by simp [steps] at h
  | fuel + 1, a, h => by
    rw [steps] at h
    split at h
    · next g hg =>
      obtain rfl := Except.error.inj h
      unfold step at hg
      split at hg
      · next hscan =>
        obtain ⟨rfl, -⟩ := Prod.mk.inj (Except.error.inj hg)
        exact scan_refuses hscan
      · simp at hg
      · simp at hg
      · exact carry_refuses (error_of_map hg)
    · simp at h
    · exact steps_refuses h

end Aliases

namespace Reduction

variable {s : EquationSystem} {o : ReductionOptions} {e : ModelError}

theorem eliminateAliases_refuses {f : Failure} {a : Aliases}
    (h : eliminateAliases s o = .error (f, a)) : Aliases.Refuses f := by
  unfold eliminateAliases at h
  split at h
  · exact Aliases.steps_refuses h
  · simp at h

theorem cause_of_check {es : List Expr} (h : check s es = .error e) :
    e.cause ≠ .reduction .inputDerivatives := by
  unfold check at h
  dsimp only at h
  split at h
  · next hfault =>
    obtain rfl := Except.error.inj h
    unfold Structure.fault? at hfault
    dsimp only at hfault
    split at hfault
    · exact Option.some.inj hfault ▸ by simp
    · rw [Option.ite_none_right_eq_some] at hfault
      exact Option.some.inj hfault.2 ▸ by simp
  · simp at h

theorem cause_of_matchAll {steps : Nat} : ∀ {ks : List Nat} {d : Differentiation},
    Differentiation.matchAll steps ks d = .error e → e.cause ≠ .reduction .inputDerivatives
  | [], d, h => by simp [Differentiation.matchAll] at h
  | k :: ks, d, h => by
    rw [Differentiation.matchAll] at h
    split at h
    · exact cause_of_matchAll h
    · exact Except.error.inj h ▸ by simp

theorem cause_of_levels {d : Differentiation} {ctx : DummyContext} : ∀ {fuel : Nat}
    {l : DummyLevel}, DummyLevel.levels d ctx fuel l = .error e →
      e.cause ≠ .reduction .inputDerivatives
  | 0, l, h => by simp [DummyLevel.levels] at h
  | fuel + 1, l, h => by
    rw [DummyLevel.levels] at h
    split at h
    · simp at h
    · rcases hd : DummyLevel.descend d ctx l with f | ⟨chosen, below⟩
      · rw [hd] at h
        obtain rfl := Except.error.inj h
        unfold DummyLevel.descend at hd
        dsimp only at hd
        split at hd
        · exact Except.error.inj hd ▸ by simp
        · simp at hd
      · rw [hd] at h
        rcases hr : DummyLevel.levels d ctx fuel below with f | rest
        · simp only [bind, Except.bind, hr] at h
          rw [Except.error.inj h] at hr
          exact cause_of_levels hr
        · simp [bind, Except.bind, pure, Except.pure, hr] at h

theorem cause_of_dummies {d : Differentiation} {ctx : DummyContext} {known : List Var}
    {taken : List String} (h : d.dummies ctx d.blocks known taken = .error e) :
    e.cause ≠ .reduction .inputDerivatives := by
  unfold Differentiation.dummies at h
  rcases hb : d.blocks.mapM (DummySystem.block d ctx) with f | ys
  · simp only [bind, Except.bind, hb] at h
    obtain rfl := Except.error.inj h
    obtain ⟨is, -, his⟩ := exists_of_mapM_error hb
    exact cause_of_levels his
  · simp only [bind, Except.bind, hb] at h
    split at h
    · exact Except.error.inj h ▸ by simp
    · simp [pure, Except.pure] at h

/-- Derivatives of inputs are asked for when the equations are solved, after all other stages. -/
theorem Refused.solved_of_cause (h : Refused s o (.model e))
    (hc : e.cause = .reduction .inputDerivatives) :
    ∃ a t d x, eliminateAliases s o = .ok a ∧ check s (lower s a).exprs = .ok t ∧
      t.differentiate (lower s a).exprs o.maxSearches = .ok d ∧
      d.dummies (dummyContext s a) d.blocks s.inputs (takenAfter s (lower s a)) = .ok x ∧
      x.structure_.semiExplicit x.exprs a.observed o.solveBlocks = .error e := by
  cases h with
  | aliases ha => exact absurd hc (eliminateAliases_refuses ha e rfl)
  | checked _ he => exact absurd hc (cause_of_check he)
  | differentiated _ _ he => exact absurd hc (cause_of_matchAll he)
  | dummies _ _ _ he => exact absurd hc (cause_of_dummies he)
  | solved ha ht hd hx he => exact ⟨_, _, _, _, ha, ht, hd, hx, he⟩

end Reduction

end Flange

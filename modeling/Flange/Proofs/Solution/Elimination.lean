import Flange.Proofs.Lists
import Flange.Proofs.Solution.Kept

/-! # The elimination of aliases is exact

The elimination takes one equation at a time, so that it ends. Where the equations that it solves are
their linear forms, nothing that it divides by vanishes and what it drops is zero, the equations hold
just when those that are left hold and each eliminated unknown has the value that is observed for it.
-/

namespace Flange

namespace Aliases

variable {ctx : AliasContext} {a b : Aliases} {x : Event} {xs : List Event}

/-! ### The end -/

theorem Step.length_exprs (hstep : Step ctx a x b) : b.exprs.length + 1 = a.exprs.length := by
  cases hstep with
  | drop i e he hact => exact List.length_eraseIdx_add_one (lt_of_getElem? he)
  | eliminate i e v sub b he hmatch hb =>
    rw [(eliminate_ok hb).1, List.length_map]
    exact List.length_eraseIdx_add_one (lt_of_getElem? he)

theorem Steps.length_exprs (hsteps : Steps ctx xs a b) :
    xs.length + b.exprs.length = a.exprs.length := by
  induction hsteps with
  | nil => simp
  | cons hstep _ ih =>
    have := hstep.length_exprs
    rw [List.length_cons]
    omega

/-- With a step for each equation and one more, the elimination has come to its end. -/
theorem steps_eq_of_lt : ∀ {m n : Nat} {a : Aliases}, a.exprs.length < m → a.exprs.length < n →
    steps ctx m a = steps ctx n a
  | m + 1, n + 1, a, hm, hn => by
    rw [steps, steps]
    cases hstep : step ctx a with
    | error f => rfl
    | ok b? =>
      cases b? with
      | none => rfl
      | some b =>
        obtain ⟨x, -, hb⟩ := step_ok hstep
        have := hb.length_exprs
        exact steps_eq_of_lt (by omega) (by omega)

theorem step_of_steps : ∀ {n : Nat} {a : Aliases}, a.exprs.length < n → steps ctx n a = .ok b →
    step ctx b = .ok none
  | n + 1, a, hn, h => by
    rw [steps] at h
    split at h
    · cases h
    · next hstep =>
      obtain rfl := Except.ok.inj h
      exact hstep
    · next c hstep =>
      obtain ⟨x, -, hc⟩ := step_ok hstep
      have := hc.length_exprs
      exact step_of_steps (by omega) h

/-! ### Solutions -/

variable {us : List Var} {T : Trajectory} {smooth : Prop}

/-- The equations hold just when those that are left and the aliases do. -/
theorem satisfies_iff (horder : ∀ u ∈ us, u.order = 0) (hsteps : Steps ctx xs a b)
    (ha : a.Separate us) (hregular : ∀ e ∈ a.exprs, T.RegularAlong smooth e)
    (hobserved : ∀ q ∈ a.observed, T.RegularAlong smooth q.2) (hx : SolvableAlong T xs)
    (hd : DroppedZero T xs) : a.Satisfies smooth T ↔ b.Satisfies smooth T := by
  refine ⟨fun h => h.steps hsteps hx, fun h => ?_⟩
  -- going back, an equation is restored where it is defined, and here all of them are
  have hb : b.SatisfiesDefined smooth T :=
    ⟨fun e he _ => h.exprs e he, fun q hq _ => h.observed q hq⟩
  have hback := hb.of_steps horder hsteps ha hx hd
  exact ⟨fun e he => hback.exprs e he (hregular e he),
    fun q hq => hback.observed q hq (hobserved q hq)⟩

theorem separate_of_nil (hobs : a.observed = []) : a.Separate a.unknowns :=
  ⟨List.Subset.refl _, by simp [hobs], by simp [hobs], fun _ _ => Expr.over_iff.mpr (by simp [hobs])⟩

theorem tracks_of_nil (hobs : a.observed = []) : a.Tracks a.unknowns [] :=
  ⟨List.Subset.refl _, fun _ => Or.inl, by simp [hobs]⟩

/-- The elimination ends after finitely many steps, however many more it is given. What it leaves has
no alias any more; along every trajectory on which the equations are defined, those that are solved
can be solved and those that are dropped are zero, the equations vanish just when those that are left
vanish and each eliminated variable has its observed value. Only unknowns are eliminated, and none of
them occurs in what is left or observed. -/
theorem solutions_iff_of_run (horder : ∀ u ∈ a.unknowns, u.order = 0) (hobs : a.observed = []) :
    (∀ n, a.exprs.length < n → steps ctx n a = run ctx a) ∧
    ∀ b, run ctx a = .ok b →
      step ctx b = .ok none ∧
      (∀ T : Trajectory, (∀ e ∈ a.exprs, T.RegularAlong False e) →
        SolvableAlong T (events ctx (a.exprs.length + 1) a) →
        DroppedZero T (events ctx (a.exprs.length + 1) a) →
        ((∀ e ∈ a.exprs, T.Takes False e fun _ => 0) ↔
          (∀ e ∈ b.exprs, T.Takes False e fun _ => 0) ∧
            ∀ q ∈ b.observed, T.Takes False q.2 (T.var q.1))) ∧
      (∀ q ∈ b.observed, q.1 ∈ a.unknowns) ∧
      ∀ e ∈ b.exprs ++ b.observed.map Prod.snd, e.Over fun f => f ∉ b.observed.map Prod.fst := by
  refine ⟨fun n hn => steps_eq_of_lt hn (Nat.lt_succ_self _), fun b hb => ?_⟩
  have hsteps := steps_ok hb
  have hseparate : b.Separate a.unknowns := hsteps.keeps (fun hstep h => h.step horder hstep)
    (separate_of_nil hobs)
  have htracks : b.Tracks a.unknowns [] := hsteps.keeps (fun hstep h => h.step horder hstep)
    (tracks_of_nil hobs)
  refine ⟨step_of_steps (Nat.lt_succ_self _) hb, fun T hregular hx hd => ?_,
    fun q hq => hseparate.observed _ (List.mem_map_of_mem hq), fun e he => ?_⟩
  · have hiff := satisfies_iff horder hsteps (separate_of_nil hobs) hregular (by simp [hobs]) hx hd
    exact ⟨fun h => have hb := hiff.mp ⟨h, by simp [hobs]⟩; ⟨hb.exprs, hb.observed⟩,
      fun h => (hiff.mpr ⟨h.1, h.2⟩).exprs⟩
  · rcases List.mem_append.mp he with he | he
    · exact hseparate.exprs e he
    · obtain ⟨q, hq, rfl⟩ := List.mem_map.mp he
      refine (htracks.givenBy q hq).imp fun f hf => ?_
      exact hseparate.disjoint f (hf.resolve_right List.not_mem_nil)

/-! ### Growth under two names -/

/-- `x = y` and `x' = y`. -/
def growth : Aliases where
  exprs := [.var ⟨"x", 0⟩ - .var ⟨"y", 0⟩, .var ⟨"x", 1⟩ - .var ⟨"y", 0⟩]
  unknowns := [⟨"x", 0⟩, ⟨"y", 0⟩]

namespace growth

def context : AliasContext := { knowns := [], kind? := fun _ => none }

/-- The first equation. -/
def same : Expr := .var ⟨"x", 0⟩ - .var ⟨"y", 0⟩

theorem events_eq : events context 3 growth =
    [.solved same [⟨"x", 0⟩, ⟨"y", 0⟩] ⟨"y", 0⟩ (.var ⟨"x", 0⟩)] := by
  decide +kernel

theorem run_eq : (run context growth).toOption.map (fun b => (b.exprs, b.observed)) =
    some ([.var ⟨"x", 1⟩ - .var ⟨"x", 0⟩], [(⟨"y", 0⟩, .var ⟨"x", 0⟩)]) := by
  decide +kernel

theorem takes_difference (v w : Var) {t : ℝ} :
    (Expr.var v - Expr.var w).Denotes True (prescribed.motion.valuation t) 0 :=
  (Expr.denotes_sub (Expr.denotes_var v) (Expr.denotes_var w)).congr (sub_self (Real.exp t))

theorem solvable_same : prescribed.motion.Solvable same [⟨"x", 0⟩, ⟨"y", 0⟩] := by
  have hx : same.partialDerivative (.var ⟨"x", 0⟩) = .num 1 := by decide +kernel
  have hy : same.partialDerivative (.var ⟨"y", 0⟩) = .num (-1) := by decide +kernel
  have hrest : same.substitute (Expr.zeros [⟨"x", 0⟩, ⟨"y", 0⟩]) = .num 0 := by decide +kernel
  intro t _
  refine ⟨⟨?_, hrest ▸ trivial, ?_⟩, ?_⟩
  · simp [hx, hy, Expr.Regular]
  · rw [hrest, same, (takes_difference _ _).eval]
    change _ = ([_ * Real.exp t, _ * Real.exp t] : List ℝ).sum + _
    rw [← same, hx, hy]
    simp
  · simp [hx, hy]

end growth

/-- Along `exp t` all equations vanish, so that the one that is left does and `y` is `x`. -/
theorem solutions_iff_of_run_growth :
    ((∀ u ∈ growth.unknowns, u.order = 0) ∧ growth.observed = []) ∧
    ∃ b, run growth.context growth = .ok b ∧
      (∀ e ∈ growth.exprs, prescribed.motion.Takes False e fun _ => 0) ∧
      (∀ e ∈ b.exprs, prescribed.motion.Takes False e fun _ => 0) ∧
      ∀ q ∈ b.observed, prescribed.motion.Takes False q.2 (prescribed.motion.var q.1) := by
  have horder : ∀ u ∈ growth.unknowns, u.order = 0 := by decide
  obtain ⟨b, hb, -⟩ := Option.map_eq_some_iff.mp growth.run_eq
  have hb := ok_of_toOption hb
  have hall : ∀ e ∈ growth.exprs, prescribed.motion.Takes False e fun _ => 0 :=
    List.forall_mem_cons.mpr ⟨fun t _ => (growth.takes_difference _ _).of_smooth,
      List.forall_mem_singleton.mpr fun t _ => (growth.takes_difference _ _).of_smooth⟩
  obtain ⟨-, hiff, -⟩ := (solutions_iff_of_run horder rfl).2 b hb
  refine ⟨⟨horder, rfl⟩, b, hb, hall, (hiff prescribed.motion ?_ ?_ ?_).mp hall⟩
  · exact fun e he t ht => (hall e he t ht).regular
  · intro e vs v sub hmem
    rw [show growth.exprs.length + 1 = 3 from rfl, growth.events_eq, List.mem_singleton] at hmem
    cases hmem
    exact growth.solvable_same
  · intro e hmem
    rw [show growth.exprs.length + 1 = 3 from rfl, growth.events_eq] at hmem
    simp at hmem

end Aliases

end Flange

import Flange.Proofs.Expr.Occurrence
import Flange.Proofs.Expr.Substitution
import Flange.Proofs.Initial.Requests

/-! # The point that is found

Whatever the solver is, a point is taken when no equation is found to be off by more than the
tolerance there. An expression in which everything known has been put in has the value that it had
before, as long as it is defined there.
-/

namespace Flange

theorem Expr.timeDerivatives_num (q : Rat) : ∀ k, k ≠ 0 → (num q).timeDerivatives k = zero
  | 1, _ => rfl
  | k + 2, _ => by
    rw [timeDerivatives, timeDerivatives_num q (k + 1) (Nat.succ_ne_zero k)]
    rfl

namespace ReducedSystem

variable (r : ReducedSystem)

/-- What the symbols stand for at the time `t` where the unknowns have the values `x`. An input counts
as constant. -/
noncomputable def pointAt (t : Rat) (inputs : InputFunctions) (x : Vec ℝ) : Valuation ℝ where
  time := (t : ℝ)
  par n := ((r.knowns.lookup n).map fun d => (d.toRat : ℝ)).getD 0
  var v :=
    match inputs.lookup v with
    | some f => (f t : ℝ)
    | none =>
      if v.order ≠ 0 ∧ (inputs.lookup v.base).isSome then 0
      else ((r.unknowns.zip x).lookup v).getD 0

variable {r} {t : Rat} {inputs : InputFunctions} {x : Vec ℝ} {smooth : Prop}

theorem lookup_known_par (n : String) : (r.knownAt t inputs).lookup (.par n) =
    (r.knowns.lookup n).map fun d => .num d.toRat := by
  have hne : (Symbol.par n == .time) = false := beq_false_of_ne nofun
  have hinputs : (inputs.map fun p => (Symbol.var p.1, Expr.num (p.2 t))).lookup (.par n) = none :=
    lookup_eq_none (List.forall_mem_map.mpr fun _ _ => nofun)
  have hpars := lookup_map (γ := Symbol) (fun h => Symbol.par.inj h)
    (fun d : Decimal => Expr.num d.toRat) r.knowns n
  rw [knownAt, List.cons_append, List.lookup_cons, hne, lookup_append,
    hinputs]
  exact (Option.or_none).trans hpars

theorem lookup_known_var (v : Var) : (r.knownAt t inputs).lookup (.var v) =
    (inputs.lookup v).map fun f => .num (f t) := by
  have hne : (Symbol.var v == .time) = false := beq_false_of_ne nofun
  have hpars : (r.knowns.map fun p => (Symbol.par p.1, Expr.num p.2.toRat)).lookup (.var v) =
      none :=
    lookup_eq_none (List.forall_mem_map.mpr fun _ _ => nofun)
  have hinputs := lookup_map (γ := Symbol) (fun h => Symbol.var.inj h)
    (fun f : Rat → Rat => Expr.num (f t)) inputs v
  rw [knownAt, List.cons_append, List.lookup_cons, hne, lookup_append,
    hpars]
  exact (Option.none_or).trans hinputs

theorem denotes_known (s : Symbol) :
    (Expr.replaceSymbol (r.knownAt t inputs) s).Denotes smooth
      (Initialization.pointValuation r.unknowns x) ((r.pointAt t inputs x).symbol s) := by
  rcases Expr.replaceSymbol_cases (r.knownAt t inputs) s with
    ⟨e, he, heq⟩ | ⟨v, e, rfl, horder, hnone, he, heq⟩ | ⟨hnone, hbase, heq⟩
  · rw [heq]
    cases s with
    | time =>
      obtain rfl : Expr.num t = e := Option.some.inj he
      exact Expr.denotes_num t
    | par n =>
      rw [lookup_known_par] at he
      obtain ⟨d, hd, rfl⟩ := Option.map_eq_some_iff.mp he
      exact (Expr.denotes_num _).congr (by simp [Valuation.symbol, pointAt, hd])
    | var v =>
      rw [lookup_known_var] at he
      obtain ⟨f, hf, rfl⟩ := Option.map_eq_some_iff.mp he
      exact (Expr.denotes_num _).congr (by simp [Valuation.symbol, pointAt, hf])
  · rw [lookup_known_var, Option.map_eq_none_iff] at hnone
    rw [lookup_known_var] at he
    obtain ⟨f, hf, rfl⟩ := Option.map_eq_some_iff.mp he
    rw [heq, Expr.timeDerivatives_num _ _ horder]
    exact Expr.denotes_zero.congr (by simp [Valuation.symbol, pointAt, hnone, horder, hf])
  · rw [heq]
    apply (Expr.denotes_sym s).congr
    cases s with
    | time => simp [knownAt] at hnone
    | par n =>
      rw [lookup_known_par, Option.map_eq_none_iff] at hnone
      simp [Valuation.symbol, pointAt, hnone, Initialization.pointValuation, Vec.zero, Scalar.ofRat]
    | var v =>
      have hbase := hbase v rfl
      rw [lookup_known_var, Option.map_eq_none_iff] at hnone hbase
      simp [Valuation.symbol, pointAt, hnone, hbase, Initialization.pointValuation, Vec.zero,
        Scalar.ofRat]

/-- What is put in for what is known does not change the value. -/
theorem denotes_settle {e : Expr} (h : e.Regular smooth (r.pointAt t inputs x)) :
    (Initialization.settle (r.knownAt t inputs) e).Denotes smooth
      (Initialization.pointValuation r.unknowns x) (e.eval (r.pointAt t inputs x)) := by
  have hknown := Expr.denotes_substitute h fun s _ => denotes_known s
  rwa [Initialization.settle, hknown.regular.collapse]

end ReducedSystem

namespace Initialization

/-! ### Runs -/

section Runs

variable {α : Type} [Scalar α] {r : ReducedSystem} {s : Solver α} {o : InitialOptions}
  {given : List Request} {t : Rat} {inputs : InputFunctions} {c : InitialConditions α}

theorem outcome_lift {β : Type} {y : Except Failure β} {b : β} :
    (lift y).outcome = .ok b ↔ y = .ok b := by
  cases y with
  | error e => simp [lift, Run.fail]
  | ok a => simp [lift]

/-- The stages of a search for initial conditions that is not refused. -/
structure Found (r : ReducedSystem) (s : Solver α) (o : InitialOptions) (given : List Request)
    (t : Rat) (inputs : InputFunctions) (strong cs : List Expr) (x : Vec α)
    (ps : List (Var × α)) : Prop where
  imposed : (strongEquations r (r.knownAt t inputs) α o given).outcome = .ok strong
  filled : candidates r (r.knownAt t inputs) given = .ok cs
  matched : ¬ (matching r (fill r cs strong)).size < r.unknowns.length
  solved : solve r s o (fill r cs strong) given = .ok x
  observed : r.observed.mapM (observedValue r (r.knownAt t inputs) x) = .ok ps

/-- The initial conditions that the values of the unknowns and of the eliminated variables make. -/
def conditionsOf (r : ReducedSystem) (x : Vec α) (ps : List (Var × α)) : InitialConditions α where
  states := x.take r.states.length
  algebraic := x.drop r.states.length
  values := allValues (r.unknowns.zip x) ps

theorem initialConditions_ok : (r.initialConditions s o given t inputs).outcome = .ok c ↔
    ∃ us strong cs x ps, r.inputFunctions inputs = .ok us ∧
      Found r s o given t us strong cs x ps ∧ conditionsOf r x ps = c := by
  simp only [ReducedSystem.initialConditions, Run.bind_ok, outcome_lift]
  constructor
  · rintro ⟨us, hus, strong, hstrong, cs, hcs, h⟩
    split at h
    · exact absurd h (by simp [Run.fail])
    · next hmatched =>
      simp only [Run.bind_ok, outcome_lift] at h
      obtain ⟨x, hx, ps, hps, -, -, h⟩ := h
      exact ⟨us, strong, cs, x, ps, hus, ⟨hstrong, hcs, hmatched, hx, hps⟩, Except.ok.inj h⟩
  · rintro ⟨us, strong, cs, x, ps, hus, h, rfl⟩
    refine ⟨us, hus, strong, h.imposed, cs, h.filled, ?_⟩
    rw [if_neg h.matched]
    simp only [Run.bind_ok, outcome_lift]
    exact ⟨x, h.solved, ps, h.observed, (), rfl, rfl⟩

end Runs

/-! ### Residuals -/

section Residuals

variable {α : Type} [Scalar α] {r : ReducedSystem} {s : Solver α} {o : InitialOptions}
  {given : List Request} {es : List Expr} {x : Vec α} {known : Replacement} {q : Request}
  {e f : Expr} {v : Var}

/-- Not found to be larger than the tolerance. -/
def Tolerated (o : InitialOptions) (y : α) : Prop :=
  Scalar.lt (Scalar.ofRat o.tolerance) (Scalar.abs y) = false

/-- Without symbols the value is the same at every point. -/
theorem constant?_eq_some {y : α} (h : constant? e = some y) :
    e.symbols = [] ∧ ∀ ρ, e.number? ρ = some y := by
  unfold constant? at h
  split at h
  · next hclosed =>
    have hnil := List.isEmpty_iff.mp hclosed
    refine ⟨hnil, fun ρ => ?_⟩
    rw [← h, Expr.number?, Expr.number?]
    congr 1
    apply Expr.eval_congr
    intro u hu
    have hmem : u ∈ e.symbols := List.mem_eraseDups.mpr hu
    rw [hnil] at hmem
    exact absurd hmem List.not_mem_nil
  · simp at h

theorem express_ok (h : express r known q = .ok f) :
    ∃ e, r.expressionFor q.1 = .ok e ∧ f = settle known (e - .num q.2) := by
  obtain ⟨g, hg, rfl⟩ := exists_of_map_ok h
  unfold request at hg
  split at hg
  · simp at hg
  · next e he =>
    dsimp only at hg
    split at hg
    · simp at hg
    · exact ⟨e, he, by rw [Except.ok.inj hg]⟩

theorem filter_large_eq_nil (es : List Expr) (y : Expr → α) : ((es.zip (es.map y)).filter fun q =>
    Scalar.lt (Scalar.ofRat o.tolerance) (Scalar.abs q.2)) = [] ↔
      ∀ e ∈ es, Tolerated o (y e) := by
  rw [← List.map_prod_left_eq_zip, List.filter_eq_nil_iff, List.forall_mem_map]
  simp only [Tolerated, Bool.not_eq_true]

theorem fault?_eq_none : fault? r s o es (leastSquares r es given) x = none ↔
    (∀ e ∈ es, Tolerated o (e.eval (pointValuation r.unknowns x))) ∧
      Scalar.lt (s.condition (matchedSquare r es ((leastSquares r es given).jacobian x)))
        (Scalar.ofRat o.singularCondition) = true := by
  have hlarge := filter_large_eq_nil (o := o) es
    fun e => e.eval (pointValuation r.unknowns x)
  unfold fault?
  dsimp only [leastSquares]
  rw [← hlarge]
  split
  · next hbad =>
    rw [Bool.not_eq_true', List.isEmpty_eq_false_iff] at hbad
    exact iff_of_false (by simp) fun h => hbad h.1
  · next hbad =>
    rw [Bool.not_eq_true', Bool.not_eq_false, List.isEmpty_iff] at hbad
    rw [hbad]
    split
    · next hsingular =>
      rw [Bool.not_eq_true'] at hsingular
      exact iff_of_false (by simp) fun h => Bool.false_ne_true (hsingular.symm.trans h.2)
    · next hregular =>
      rw [Bool.not_eq_true', Bool.not_eq_false] at hregular
      exact iff_of_true rfl ⟨rfl, hregular⟩

/-- A point that the solver finds is taken just when no equation is found to be off by more than the
tolerance and the matched part of the Jacobian is not singular. -/
theorem solve_ok (hne : r.unknowns ≠ []) : solve r s o es given = .ok x ↔
    ((leastSquares r es given).residuals (leastSquares (α := α) r es given).start).all
        Scalar.isFinite = true ∧
      s.minimize o.maxEvaluations (leastSquares r es given) = some x ∧
      (∀ e ∈ es, Tolerated o (e.eval (pointValuation r.unknowns x))) ∧
      Scalar.lt (s.condition (matchedSquare r es ((leastSquares r es given).jacobian x)))
        (Scalar.ofRat o.singularCondition) = true := by
  unfold solve
  rw [if_neg (by simpa using hne)]
  dsimp only
  split
  · next hstart =>
    rw [Bool.not_eq_true'] at hstart
    exact iff_of_false (by simp) fun h => Bool.false_ne_true (hstart.symm.trans h.1)
  · next hstart =>
    rw [Bool.not_eq_true', Bool.not_eq_false] at hstart
    rw [and_iff_right hstart]
    cases hmin : s.minimize o.maxEvaluations (leastSquares r es given) with
    | none => simp
    | some y =>
      dsimp only
      cases hfault : fault? r s o es (leastSquares r es given) y with
      | some e =>
        simp only [reduceCtorEq, Option.some.injEq, false_iff, not_and]
        rintro rfl hsmall hcondition
        simp [fault?_eq_none.mpr ⟨hsmall, hcondition⟩] at hfault
      | none =>
        have hpassed := fault?_eq_none.mp hfault
        simp only [Except.ok.injEq, Option.some.injEq]
        constructor
        · rintro rfl
          exact ⟨rfl, hpassed⟩
        · exact And.left

theorem observedValue_ok {p : Var × Expr} {b : Var × α} (h : observedValue r known x p = .ok b) :
    b.1 = p.1 ∧ (settle known p.2).number? (pointValuation r.unknowns x) = some b.2 := by
  unfold observedValue at h
  dsimp only at h
  split at h
  · split at h
    · next y hy =>
      obtain rfl := Except.ok.inj h
      exact ⟨rfl, hy⟩
    · simp at h
  · simp at h

theorem lookup_allValues {us ps : List (Var × α)}
    (hps : r.observed.mapM (observedValue r known x) = .ok ps) (hv : r.observed.lookup v = some e) :
    ∃ y, (allValues us ps).lookup v = some y ∧
      (settle known e).number? (pointValuation r.unknowns x) = some y := by
  obtain ⟨y, hy, hvalue⟩ := lookup_of_forall₂
    (R := fun e y => (settle known e).number? (pointValuation r.unknowns x) = some y)
    (forall₂_of_mem (mapM_ok hps) fun p _ _ hp => observedValue_ok hp) hv
  have hfree : (us.filter fun p => (ps.lookup p.1).isNone).lookup v = none := by
    apply lookup_eq_none
    rintro p hp rfl
    have hnone := (List.mem_filter.mp hp).2
    rw [hy] at hnone
    exact absurd hnone (by simp)
  refine ⟨y, ?_, hvalue⟩
  rw [allValues, lookup_append, hfree, Option.none_or, hy]

end Residuals

end Initialization

end Flange

import Flange.Proofs.Solution.Reduced

/-! # No solution is lost

A trajectory that solves a system solves the reduced system too, when the variables that the
reduction introduces are read as the derivatives they stand for and the equations that it solves
can be solved along the trajectory.
-/

namespace Flange

namespace Differentiation

variable {s d : Differentiation} {N k b : Nat} {T : Trajectory}

/-- Equations hold together with all their derivatives. -/
theorem Covered.solves (h : Covered s N k b d) (hs : s.exprs.length = N)
    (hes : ∀ e ∈ s.exprs, T.Solves e) : ∀ e ∈ d.exprs, T.Solves e := by
  intro e he
  obtain ⟨i, hi⟩ := List.mem_iff_getElem?.mp he
  obtain ⟨r, hr, c, hd⟩ := h.descends i (lt_of_getElem? hi)
  rw [← hs] at hr
  have hget := getElem?_of_extends h.exprs (List.getElem?_eq_getElem hr)
  rw [hd.expr h.sound, hget] at hi
  obtain rfl := Option.some.inj hi
  exact (hes _ (List.getElem_mem hr)).timeDerivatives c

end Differentiation

namespace Reduction

variable {s : EquationSystem} {o : ReductionOptions} {a : Aliases} {t : Structure}
  {d : Differentiation} {x : DummySystem} {y : SemiExplicit} {T : Trajectory}

/-- What the elimination of aliases does. -/
def aliasEvents (s : EquationSystem) (o : ReductionOptions) : List Aliases.Event :=
  if o.eliminateAliases then
    Aliases.events (Aliases.contextOf s) (s.exprs.length + 1) (Aliases.ofSystem s)
  else []

theorem steps_aliasEvents (h : eliminateAliases s o = .ok a) :
    Aliases.Steps (Aliases.contextOf s) (aliasEvents s o) (Aliases.ofSystem s) a := by
  unfold eliminateAliases at h
  unfold aliasEvents
  split at h
  · next ho =>
    rw [if_pos ho]
    exact Aliases.steps_ok h
  · next ho =>
    rw [if_neg ho]
    exact Except.ok.inj h ▸ .nil _

/-- The equations matched to the variables that they are solved for. -/
def pairing (x : DummySystem) : Matching Var :=
  SemiExplicit.matching x.exprs (SemiExplicit.candidates x.structure_)

/-- The blocks in the order in which they are solved. -/
def order (x : DummySystem) : List (List Nat) :=
  (SemiExplicit.dependencies (SemiExplicit.candidates x.structure_) (pairing x)).blocks

/-- What solving the blocks gives. -/
def finalProgress (o : ReductionOptions) (x : DummySystem) : SemiExplicit.Progress :=
  SemiExplicit.solveBlocks o.solveBlocks x.exprs (SemiExplicit.candidates x.structure_) (pairing x)

/-- The blocks as they come up for solution, and what they are solved for. -/
def blockEquations (o : ReductionOptions) (x : DummySystem) : List (List Expr × List Var) :=
  SemiExplicit.blocksFrom o.solveBlocks x.exprs (pairing x) {} (order x)

/-- Along the trajectory every variable that the reduction introduces is the derivative that it
stands for. -/
structure Reading (T : Trajectory) (s : EquationSystem) (o : ReductionOptions) (a : Aliases)
    (x : DummySystem) : Prop where
  lowered : (lower s a).Reading T
  dummies : ∀ p ∈ x.dummies, T.Same p.1 p.2
  loweredAgain : x.lowered.Reading T
  kept : SemiExplicit.Reading T (finalProgress o x).retained

/-- Along the trajectory every equation that the reduction solves for variables can be solved for
them. -/
structure Solvable (T : Trajectory) (s : EquationSystem) (o : ReductionOptions)
    (x : DummySystem) : Prop where
  aliases : Aliases.SolvableAlong T (aliasEvents s o)
  blocks : ∀ b ∈ blockEquations o x, SemiExplicit.BlockSolvable T o.solveBlocks b.1 b.2

namespace Passed

variable (h : Passed s o a t d x y)

include h

theorem pairing_eq : SemiExplicit.Paired s.inputs x.exprs (pairing x) ∧
    x.structure_ = .ofExprs s.inputs x.exprs ∧
    y = .ofProgress (.ofExprs s.inputs x.exprs) a.observed (finalProgress o x) := by
  obtain ⟨ys, hx⟩ := h.chosen
  have hs := h.solved
  have hcount := hx.count
  unfold finalProgress pairing
  rw [hx.structure_] at hs hcount ⊢
  obtain ⟨m, rfl, hm, -, hy⟩ :=
    Structure.semiExplicit_ok hs (by simpa [SemiExplicit.targets] using hcount)
  exact ⟨hm, rfl, hy⟩

theorem complete_final (hinputs : ∀ v ∈ s.inputs, v.order = 0) :
    SemiExplicit.Complete s.inputs x.exprs (finalProgress o x) := by
  obtain ⟨hm, hst, -⟩ := h.pairing_eq
  rw [finalProgress, hst]
  exact hm.complete hinputs

theorem holds_aliases (hT : s.SolvedBy T) (hobs : s.observed = [])
    (hal : Aliases.SolvableAlong T (aliasEvents s o)) : a.Satisfies True T := by
  refine Aliases.Satisfies.steps (steps_aliasEvents h.aliases) hal ⟨hT, ?_⟩
  intro q hq
  have hq : q ∈ s.observed := hq
  rw [hobs] at hq
  exact absurd hq List.not_mem_nil

theorem solves_exprs (hlow : ∀ e ∈ (lower s a).exprs, T.Solves e)
    (hdum : ∀ p ∈ x.dummies, T.Same p.1 p.2) (hagain : x.lowered.Reading T) :
    ∀ e ∈ x.exprs, T.Solves e := by
  obtain ⟨ys, hx⟩ := h.chosen
  have hall := h.covered.solves rfl hlow
  rw [hx.lowered] at hagain
  rw [hx.exprs, hx.lowered]
  refine solves_lowerOrder (List.forall_mem_map.mpr fun e he => ?_) hagain
  obtain ⟨i, -, hi⟩ := List.mem_filterMap.mp he
  exact (hall e (List.mem_of_getElem? hi)).substitute (Trajectory.respects_replacement hdum)

end Passed

end Reduction

open Reduction

theorem Reduction.Passed.solvedBy {s : EquationSystem} {o : ReductionOptions} {a : Aliases}
    {t : Structure} {d : Differentiation} {x : DummySystem} {y : SemiExplicit} {T : Trajectory}
    (h : Passed s o a t d x y) (hobs : s.observed = []) (hinputs : ∀ v ∈ s.inputs, v.order = 0)
    (hT : s.SolvedBy T) (hread : Reading T s o a x) (hs : Solvable T s o x) :
    (ReducedSystem.ofSemiExplicit y s a.strong a.weak).SolvedBy T := by
  have ha := h.holds_aliases hT hobs hs.aliases
  have hes := h.solves_exprs (solves_lowerOrder ha.exprs hread.lowered) hread.dummies
    hread.loweredAgain
  obtain ⟨-, -, hy⟩ := h.pairing_eq
  have hp : (finalProgress o x).Holds T := SemiExplicit.Progress.Holds.blocks hes
    ⟨fun q hq => absurd hq List.not_mem_nil, fun g hg => absurd hg List.not_mem_nil⟩ hs.blocks
  rw [hy]
  exact SemiExplicit.solvedBy_ofProgress (h.complete_final hinputs) hp hread.kept ha.observed
    fun z hz => SemiExplicit.der_mem_targets h.firstOrder hz

/-- A trajectory that solves a system solves the system it is reduced to, when introduced variables
are read as the derivatives they stand for and what the reduction solves can be solved. -/
theorem ReducedSystem.solvedBy_of_system {s : EquationSystem} {o : ReductionOptions}
    {r : ReducedSystem} (hr : (reduce s o).outcome = .ok r) (hobs : s.observed = [])
    (hinputs : ∀ v ∈ s.inputs, v.order = 0) {T : Trajectory} (hT : s.SolvedBy T) :
    ∃ a t d x y, Passed s o a t d x y ∧
      (Reading T s o a x → Solvable T s o x → r.SolvedBy T) := by
  obtain ⟨a, t, d, x, y, h, rfl⟩ := reduce_ok.mp hr
  exact ⟨a, t, d, x, y, h, h.solvedBy hobs hinputs hT⟩

/-! ### A prescribed motion -/

/-- `y = x'` where `x = exp t`. -/
def prescribed : EquationSystem :=
  let x : Var := ⟨"x", 0⟩
  let y : Var := ⟨"y", 0⟩
  let eqs : List Eqn :=
    [⟨⟨.var y, .var x.der⟩, .comp, .nobody⟩, ⟨⟨.var x, .fn .exp .time⟩, .comp, .nobody⟩]
  { equations := eqs, exprs := eqs.map Eqn.residual, unknowns := [x, y] }

namespace prescribed

/-- The equation `v = exp t`, solved for zero. -/
def exponential (v : Var) : Expr := .sum (.var v) (.prod (.num (-1)) (.fn .exp .time))

theorem exprs_eq : prescribed.exprs =
    [.sum (.prod (.num (-1)) (.var ⟨"x", 1⟩)) (.var ⟨"y", 0⟩), exponential ⟨"x", 0⟩] := by
  decide +kernel

theorem reduced : ∃ r, (reduce prescribed).outcome = .ok r := by
  have hok : (reduce prescribed).outcome.isOk = true := by decide +kernel
  cases h : (reduce prescribed).outcome with
  | ok r => exact ⟨r, rfl⟩
  | error e => simp [h, Except.isOk, Except.toBool] at hok

/-- All variables are `exp t`. -/
noncomputable def motion : Trajectory where
  domain := Set.univ
  isOpen := isOpen_univ
  par := fun _ => 0
  var := fun _ => Real.exp
  hasDerivAt := fun _ t _ => Real.hasDerivAt_exp t

theorem same_motion (v w : Var) : motion.Same v w := fun _ _ => rfl

theorem solvedBy_motion : prescribed.SolvedBy motion := by
  unfold EquationSystem.SolvedBy
  rw [exprs_eq]
  refine List.forall_mem_cons.mpr ⟨fun t _ => ?_, List.forall_mem_singleton.mpr fun t _ => ?_⟩
  · constructor
    · simp [Expr.Regular, Expr.var]
    · simp [motion]
  · constructor
    · simp [exponential, Expr.Regular, Expr.var, Expr.time, Fn.Defined]
    · simp [exponential, motion, Expr.time, Fn.real, Trajectory.valuation, Valuation.symbol]

theorem aliasEvents_eq : aliasEvents prescribed {} = [] :=
  List.isEmpty_iff.mp (by decide +kernel)

/-- The dummy of `x'` takes the place of `x'`, and all equations become `v = exp t`. -/
theorem solvable_motion {a : Aliases} {t : Structure} {d : Differentiation} {x : DummySystem}
    {y : SemiExplicit} (h : Passed prescribed {} a t d x y) :
    Solvable motion prescribed {} x := by
  constructor
  · intro e vs v sub hmem
    rw [aliasEvents_eq] at hmem
    exact absurd hmem List.not_mem_nil
  · have hblocks : (results? prescribed {}).map (fun p => blockEquations {} p.2.2.2) =
        some ([⟨"x", 0⟩, ⟨"d_x_t", 0⟩, ⟨"y", 0⟩].map fun v => ([exponential v], [v])) := by
      decide +kernel
    rw [h.results?_eq] at hblocks
    rw [show blockEquations {} x = _ from Option.some.inj hblocks, List.forall_mem_map]
    intro v hv
    have hone : ∀ v ∈ [(⟨"x", 0⟩ : Var), ⟨"d_x_t", 0⟩, ⟨"y", 0⟩],
        (exponential v).partialDerivative (.var v) = .num 1 := by decide +kernel
    refine SemiExplicit.blockSolvable_single.mpr fun _ =>
      Trajectory.solvable_of_constant (fun ρ => ?_) (hone v hv) one_ne_zero ?_
    · simp [exponential, Expr.Regular, Expr.var, Expr.time, Fn.Defined]
    · simp [exponential, Expr.symbolList, Expr.var, Expr.time, Expr.Mentions]

theorem reading_motion (a : Aliases) (x : DummySystem) : Reading motion prescribed {} a x where
  lowered p _ := same_motion p.1 p.2
  dummies p _ := same_motion p.1 p.2
  loweredAgain p _ := same_motion p.1 p.2
  kept v _ _ := same_motion v _

end prescribed

theorem ReducedSystem.solvedBy_of_system_prescribed :
    ∃ r, (reduce prescribed).outcome = .ok r ∧ r.SolvedBy prescribed.motion := by
  obtain ⟨r, hr⟩ := prescribed.reduced
  obtain ⟨a, t, d, x, y, h, hsolved⟩ := ReducedSystem.solvedBy_of_system hr rfl
    (fun v hv => absurd hv List.not_mem_nil) prescribed.solvedBy_motion
  exact ⟨r, hr, hsolved (prescribed.reading_motion a x) (prescribed.solvable_motion h)⟩

end Flange

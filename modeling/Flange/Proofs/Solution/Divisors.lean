import Flange.Proofs.Expr.Determined
import Flange.Proofs.Solution.Kept
import Flange.Proofs.System

/-! # Divisors

An equation is solved for a variable by dividing by the coefficient of the variable. A coefficient
of numbers and parameters vanishes at the known values of the parameters just when the equation says
nothing about the variable there. The reduction does not look at these values.
-/

namespace Flange

/-- An equation, the unknowns that it is about, and the solution for one of them. -/
structure Division where
  equation : Expr
  unknowns : List Var
  var : Var
  solution : Expr
  deriving DecidableEq

namespace Division

/-- What is divided by. -/
def divisor (q : Division) : Expr := q.equation.partialDerivative (.var q.var)

/-- The solution is a quotient by the divisor, or a variable times such a quotient. -/
def Divides (q : Division) : Prop :=
  ∃ n, q.solution = n / q.divisor ∨ ∃ w, q.solution = n / q.divisor * .var w

/-- The equation is solved by a division. Where it is smooth in its unknowns and the divisor does
not vanish, the solution is defined, and it is the only one. -/
structure Isolates (q : Division) : Prop where
  divides : q.Divides
  mem : q.var ∈ q.unknowns
  free : q.divisor.has (.var q.var) = false
  solves : ∀ ρ : Valuation ℝ, q.equation.SmoothIn q.unknowns ρ → q.divisor.eval ρ ≠ 0 →
    q.solution.Regular True ρ ∧ (q.equation.eval ρ = 0 ↔ ρ.var q.var = q.solution.eval ρ)

variable {e sol : Expr} {v : Var}

/-- An equation in which no derivative of the variable occurs is solved by a division. -/
theorem isolates_single (h : e.solveLinear? (.var v) = some sol)
    (hders : ∀ u ∈ e.symbolList, Expr.Mentions (.var v) u → u = .var v) :
    Isolates ⟨e, [v], v, sol⟩ := by
  obtain ⟨c, hc, hsol⟩ := Option.map_eq_some_iff.mp h
  obtain ⟨rfl, -, hfree⟩ := Expr.linearCoeff_eq_some.mp hc
  constructor
  · exact ⟨_, Or.inl hsol.symm⟩
  · exact List.mem_singleton_self v
  · exact hfree
  · intro ρ hsmooth hne
    apply Expr.solveLinear_iff h _ hne
    apply Expr.linearAt_of_straight (List.nodup_singleton v) hsmooth.straight
    · simpa using hfree
    · simpa [Expr.MentionsAny] using hders

end Division

open Division

namespace AliasContext

variable {ctx : AliasContext} {unknowns differentiated : List Var} {e sub : Expr} {v w x : Var}

theorem has_of_isNumber {c : Expr} (h : c.isNumber = true) (s : Symbol) : c.has s = false := by
  simp [Expr.has, List.isEmpty_iff.mp h]

/-- One of a pair is a quotient by its coefficient times the other one. The coefficients are
numbers, and they are the same up to sign. -/
theorem matchPair_coefficients (h : ctx.matchPair differentiated e v w = some (x, sub)) :
    (∃ c y, sub = c / e.partialDerivative (.var x) * .var y) ∧ x ∈ [v, w] ∧
      (∀ u ∈ [v, w], (e.partialDerivative (.var u)).isNumber = true) ∧
      (e.partialDerivative (.var v) = e.partialDerivative (.var w) ∨
        e.partialDerivative (.var v) = -e.partialDerivative (.var w)) := by
  simp only [matchPair, Option.bind_eq_bind, Option.bind_eq_some_iff] at h
  obtain ⟨cv, hcv, cw, hcw, h⟩ := h
  obtain ⟨rfl, -⟩ := Expr.linearCoeff_eq_some.mp hcv
  obtain ⟨rfl, -⟩ := Expr.linearCoeff_eq_some.mp hcw
  split at h
  · next hnum =>
    simp only [Bool.and_eq_true, Bool.or_eq_true, beq_iff_eq] at hnum
    obtain ⟨⟨⟨hv, hw⟩, hsame⟩, -⟩ := hnum
    have hnumbers : ∀ u ∈ [v, w], (e.partialDerivative (.var u)).isNumber = true := by
      simp [hv, hw]
    split at h
    · obtain ⟨rfl, rfl⟩ := Prod.mk.inj (Option.some.inj h)
      exact ⟨⟨_, _, rfl⟩, by simp, hnumbers, hsame⟩
    · obtain ⟨rfl, rfl⟩ := Prod.mk.inj (Option.some.inj h)
      exact ⟨⟨_, _, rfl⟩, by simp, hnumbers, hsame⟩
  · simp at h

theorem isolates_pair (h : ctx.matchPair differentiated e v w = some (x, sub)) (hne : v ≠ w)
    (hders : ∀ u ∈ e.symbolList, Expr.MentionsAny [v, w] u → u ∈ [v, w].map Symbol.var) :
    Isolates ⟨e, [v, w], x, sub⟩ := by
  obtain ⟨⟨c, y, hsub⟩, hx, hnum, hsame⟩ := matchPair_coefficients h
  constructor
  · exact ⟨c, Or.inr ⟨y, hsub⟩⟩
  · exact hx
  · exact has_of_isNumber (hnum x hx) _
  · intro ρ hsmooth hx0
    have hlin : e.LinearAt True [v, w] ρ := by
      apply Expr.linearAt_of_straight (by simpa using hne) hsmooth.straight _ hders
      exact fun u hu y _ => has_of_isNumber (hnum u hu) _
    have hvalue : (e.partialDerivative (.var v)).eval ρ = (e.partialDerivative (.var w)).eval ρ ∨
        (e.partialDerivative (.var v)).eval ρ = -(e.partialDerivative (.var w)).eval ρ := by
      apply hsame.imp (congrArg (Expr.eval ρ))
      intro heq
      rw [heq]
      exact (Expr.denotes_neg (hlin.coeff w (by simp)).denotes).eval
    change (e.partialDerivative (.var x)).eval ρ ≠ 0 at hx0
    apply matchPair_solves h hlin
    · rcases List.mem_pair.mp hx with rfl | rfl
      · exact hx0
      · rcases hvalue with hvalue | hvalue <;> simpa [hvalue] using hx0
    · rcases List.mem_pair.mp hx with rfl | rfl
      · rcases hvalue with hvalue | hvalue <;> simpa [hvalue] using hx0
      · exact hx0

/-- What an equation is solved for as an alias is isolated in it. -/
theorem isolates_match? (h : ctx.match? unknowns differentiated e = some (v, sub)) :
    Isolates ⟨e, EquationSystem.unknownsIn unknowns e, v, sub⟩ := by
  unfold match? at h
  split at h
  · simp at h
  next hnone =>
  have hders : ∀ u ∈ e.symbolList, Expr.MentionsAny (EquationSystem.unknownsIn unknowns e) u →
      u ∈ (EquationSystem.unknownsIn unknowns e).map Symbol.var := by
    rintro u hu ⟨w, hw, hm⟩
    cases u with
    | var y =>
      have hy : y.order = 0 := by
        have := List.any_eq_false.mp (Bool.not_eq_true _ ▸ hnone) _ hu
        simpa [Var.isDerivative] using this
      rcases Expr.mentions_var.mp hm with rfl | ⟨-, hbase⟩
      · exact List.mem_map_of_mem hw
      · rw [Var.base_of_order hy] at hbase
        exact List.mem_map_of_mem (hbase ▸ hw)
    | _ => exact absurd hm (by simp [Expr.Mentions])
  split at h
  · next w heq =>
    rw [heq] at hders ⊢
    obtain ⟨rfl, hsol⟩ := matchConstant_solves h
    exact isolates_single hsol (by simpa [Expr.MentionsAny] using hders)
  · next u w heq =>
    have hnodup := nodup_sortVars (e.functions.filter unknowns.contains)
    rw [show sortVars (e.functions.filter unknowns.contains) = [u, w] from heq] at hnodup
    rw [heq] at hders ⊢
    exact isolates_pair h (by simpa using hnodup) hders
  · simp at h

end AliasContext

namespace Aliases

variable {ctx : AliasContext} {a b : Aliases} {xs : List Event}

theorem Steps.isolates (hsteps : Steps ctx xs a b) {e sub : Expr} {vs : List Var} {v : Var}
    (h : .solved e vs v sub ∈ xs) : Isolates ⟨e, vs, v, sub⟩ := by
  induction hsteps with
  | nil => exact absurd h List.not_mem_nil
  | cons hstep _ ih =>
    rcases List.mem_cons.mp h with rfl | h
    · cases hstep with
      | eliminate i e v sub b he hmatch hb => exact AliasContext.isolates_match? hmatch
    · exact ih h

/-- What is observed in the end was observed before, or an equation has been solved for it. -/
theorem Steps.solved_of_observed (hsteps : Steps ctx xs a b) {v : Var}
    (hv : v ∈ b.observed.map Prod.fst) :
    v ∈ a.observed.map Prod.fst ∨ ∃ e vs sub, .solved e vs v sub ∈ xs := by
  induction hsteps with
  | nil => exact Or.inl hv
  | cons hstep _ ih =>
    rcases ih hv with hv | ⟨e, vs, sub, hx⟩
    · cases hstep with
      | drop => exact Or.inl hv
      | eliminate i e w sub b he hmatch hb =>
        rw [(eliminate_ok hb).2.2, Observed.mem_keys_set, List.map_map] at hv
        rcases hv with rfl | hv
        · exact Or.inr ⟨e, _, sub, List.mem_cons_self⟩
        · exact Or.inl hv
    · exact Or.inr ⟨e, vs, sub, List.mem_cons_of_mem _ hx⟩

end Aliases

namespace SemiExplicit

variable {known : List Var} {es : List Expr} {m : Matching Var} {solveBlocks : Bool} {e : Expr}
  {v : Var} {i : Nat}

/-- A state, known, or matched. -/
def Placed (known : List Var) (es : List Expr) (m : Matching Var) (v : Var) : Prop :=
  v ∈ (Structure.ofExprs known es).states ∨ v.base ∈ known ∨ ∃ i, m.matched? i = some v

/-- Blocks come up for solution without what has been solved for. -/
theorem placed_blocksFrom (hk : ∀ v ∈ known, v.order = 0) (hp : Paired known es m) :
    ∀ {bs : List (List Nat)} {done : List Nat} {p : Progress}, Reached known es m done p →
      Ahead known es m done bs → ∀ b ∈ blocksFrom solveBlocks es m p bs,
        (∀ v ∈ b.2, ∃ i, m.matched? i = some v) ∧
          ∀ e ∈ b.1, e.Within (Symbol.Only (Placed known es m))
  | [], _, _, _, _, _, hb => absurd hb List.not_mem_nil
  | block :: bs, done, p, h, hahead, b, hb => by
    rcases List.mem_cons.mp hb with rfl | hb
    · constructor
      · intro v hv
        obtain ⟨i, -, hi⟩ := List.mem_filterMap.mp hv
        exact ⟨i, hi⟩
      · refine List.forall_mem_map.mpr fun e he => ?_
        obtain ⟨i, hi, hei⟩ := List.mem_filterMap.mp he
        refine (h.substituted hk hp.valid (hahead.matched hp) hi hei).mono ?_
        rintro u (hu | ⟨v, hv, rfl⟩)
        · exact hu.imp fun w hw => hw.imp_right fun hw => hw.imp_right fun hw =>
            (h.covers.mp (Or.inr hw)).imp fun _ hi => hi.2
        · obtain ⟨i, -, hi⟩ := List.mem_filterMap.mp hv
          exact Or.inr (Or.inr ⟨i, hi⟩)
    · have hmatched := hahead.matched hp
      exact placed_blocksFrom hk hp (h.addBlock hk hp hahead.lt hmatched) hahead.next b hb

/-- No derivative of a variable that is solved for occurs in its equation. -/
theorem eq_of_mentions (hm : m.Valid (candidates (.ofExprs known es)))
    (he : e.Within (Symbol.Only (Placed known es m))) (hv : m.matched? i = some v) :
    ∀ u ∈ e.symbolList, Expr.Mentions (.var v) u → u = .var v := by
  intro u hu hmention
  cases u with
  | var w =>
    rcases Expr.mentions_var.mp hmention with rfl | ⟨ho, hbase⟩
    · rfl
    obtain ⟨hstate, hknown⟩ := unsettled_of_matched hm hv
    by_cases hw : w.order = 0
    · rw [← hbase, Var.base_of_order hw]
    · -- a derivative would make `v` a state or known
      exfalso
      rcases he _ hu with hs | hkn | ⟨j, hj⟩
      · exact hw (Structure.order_of_mem_functions (List.mem_append_left _ hs))
      · exact hknown ho (hbase ▸ hkn)
      · obtain ⟨g, hg, hw', -⟩ := mem_candidates.mp (hm.adjacent hj)
        rcases hw' with hw' | hw'
        · apply hstate
          rw [← hbase]
          exact Structure.mem_states_ofExprs.mpr
            ⟨w, Structure.mem_derivatives_ofExprs.mpr ⟨g, List.mem_of_getElem? hg, hw'⟩, rfl⟩
        · exact hw (Structure.mem_unknownFunctions.mp hw').2.1
  | _ => exact absurd hmention (by simp [Expr.Mentions])

/-- What has been solved for is the solution of a block. -/
theorem solves_of_solved {bs : List (List Nat)} {p : Progress} {q : Var × Expr}
    (hq : q ∈ (bs.foldl (fun p b => p.addBlock solveBlocks (b.filterMap fun i => es[i]?)
      (b.filterMap m.matched?)) p).solved) :
    q ∈ p.solved ∨ ∃ b ∈ blocksFrom solveBlocks es m p bs, ∃ sols,
      Solves solveBlocks b.1 b.2 sols ∧ q ∈ b.2.zip sols := by
  induction bs generalizing p with
  | nil => exact Or.inl hq
  | cons block bs ih =>
    rw [List.foldl_cons] at hq
    rw [blocksFrom]
    rcases ih hq with hq | ⟨b, hb, hsols⟩
    · rcases Progress.addBlock_cases p solveBlocks (block.filterMap fun i => es[i]?)
        (block.filterMap m.matched?) with ⟨sols, hsols, heq⟩ | heq
      · rw [heq] at hq
        refine (List.mem_append.mp hq).imp_right fun hq => ?_
        exact ⟨_, List.mem_cons_self, sols, hsols, hq⟩
      · rw [heq] at hq
        exact Or.inl hq
    · exact Or.inr ⟨b, List.mem_cons_of_mem _ hb, hsols⟩

/-- The division by which a block of one equation is solved. -/
def division? : List Expr × List Var → Option Division
  | ([e], [v]) => (e.solveLinear? (.var v)).map fun sol => ⟨e, [v], v, sol⟩
  | _ => none

theorem isolates_block (hk : ∀ v ∈ known, v.order = 0) (hp : Paired known es m)
    {b : List Expr × List Var} (hb : b ∈ blocksFrom solveBlocks es m {}
      (dependencies (candidates (.ofExprs known es)) m).blocks) {q : Division}
    (hq : division? b = some q) : q.Isolates := by
  obtain ⟨hmatched, hwithin⟩ := placed_blocksFrom hk hp reached_start hp.ahead b hb
  unfold division? at hq
  split at hq
  · next e v =>
    obtain ⟨sol, hsol, rfl⟩ := Option.map_eq_some_iff.mp hq
    obtain ⟨i, hi⟩ := hmatched v (by simp)
    exact isolates_single hsol (eq_of_mentions hp.valid (hwithin e (by simp)) hi)
  · simp at hq

end SemiExplicit

namespace Reduction

variable {l : Library} {d : Diagram} {verbose : Bool} {s : EquationSystem} {o : ReductionOptions}
  {r : ReducedSystem} {q : Division}

/-- The divisions by which aliases are found. -/
def aliasDivisions (s : EquationSystem) (o : ReductionOptions) : List Division :=
  (aliasEvents s o).filterMap fun
    | .solved e vs v sub => some ⟨e, vs, v, sub⟩
    | .dropped _ => none

/-- The divisions by which single equations are solved in the reduction. -/
def divisions (s : EquationSystem) (o : ReductionOptions) : List Division :=
  aliasDivisions s o ++ ((results? s o).map fun p =>
    (blockEquations o p.2.2.2).filterMap SemiExplicit.division?).getD []

/-- What is solved for is solved for by a division, or with others in a block of equations. -/
theorem exists_division_of_solved {a : Aliases} {t : Structure} {x : DummySystem} {y : SemiExplicit}
    {δ : Differentiation} (h : Passed s o a t δ x y) {p : Var × Expr}
    (hp : p ∈ (finalProgress o x).solved) : (∃ q ∈ divisions s o, q.var = p.1 ∧ q.solution = p.2) ∨
      o.solveBlocks = true ∧ ∃ b ∈ blockEquations o x, ∃ sols,
        Expr.solveBlock? b.1 (b.2.map .var) = some sols ∧ p ∈ b.2.zip sols := by
  rcases SemiExplicit.solves_of_solved hp with hp | ⟨⟨es, vs⟩, hb, sols, hsols, hp⟩
  · exact absurd hp List.not_mem_nil
  cases hsols with
  | @single e sol v hsol =>
    obtain rfl : p = (v, sol) := by simpa using hp
    refine Or.inl ⟨⟨e, [v], v, sol⟩, ?_, rfl, rfl⟩
    rw [divisions, h.results?_eq]
    apply List.mem_append_right
    exact List.mem_filterMap.mpr ⟨_, hb, by simp [SemiExplicit.division?, hsol]⟩
  | joint hflag _ _ hsol => exact Or.inr ⟨hflag, _, hb, sols, hsol, hp⟩

/-- An alias is found by a division. -/
theorem exists_division_of_observed {a : Aliases} (h : eliminateAliases s o = .ok a) {v : Var}
    (hv : v ∈ a.observed.map Prod.fst) :
    v ∈ s.observed.map Prod.fst ∨ ∃ q ∈ divisions s o, q.var = v := by
  rcases (steps_aliasEvents h).solved_of_observed hv with hv | ⟨e, vs, sub, hx⟩
  · exact Or.inl hv
  · refine Or.inr ⟨⟨e, vs, v, sub⟩, List.mem_append_left _ ?_, rfl⟩
    exact List.mem_filterMap.mpr ⟨_, hx, rfl⟩

theorem isolates_of_reduce (hs : s.WellFormed) (hr : (reduce s o).outcome = .ok r)
    (hq : q ∈ divisions s o) : q.Isolates := by
  obtain ⟨a, t, d, x, y, h, -⟩ := reduce_ok.mp hr
  rw [divisions, h.results?_eq] at hq
  rcases List.mem_append.mp hq with hq | hq
  · obtain ⟨x, hx, hq⟩ := List.mem_filterMap.mp hq
    cases x with
    | dropped e => simp at hq
    | solved e vs v sub =>
      obtain rfl := Option.some.inj hq
      exact (steps_aliasEvents h.aliases).isolates hx
  · obtain ⟨b, hb, hq⟩ := List.mem_filterMap.mp hq
    obtain ⟨hp, hst, -⟩ := h.pairing_eq
    rw [blockEquations, order, hst] at hb
    exact SemiExplicit.isolates_block hs.order_input hp hb hq

/-- In the reduction of a diagram an equation is solved for a variable by a division. Let the divisor
be made of numbers and known parameters, and let the equation be smooth in its unknowns where the
parameters have their known values. Then the divisor does not vanish just when there is one value of
the variable at which the equation holds. If it does not vanish, the solution is defined and is this
value; if it vanishes, the equation does not depend on the variable. -/
theorem divisor_ne_zero_iff (hs : (assemble l d verbose).outcome = .ok s)
    (hr : (reduce s o).outcome = .ok r) (hq : q ∈ divisions s o)
    (hconst : s.knowns.determine q.divisor = true) {ρ : Valuation ℝ} (hρ : ρ.Knows s.knowns)
    (hsmooth : q.equation.SmoothIn q.unknowns ρ) :
    q.Divides ∧ (q.divisor.eval s.knowns.point ≠ 0 ↔ ∃! x, q.equation.eval (ρ.shift q.var x) = 0) ∧
      (q.divisor.eval s.knowns.point ≠ 0 → q.solution.Regular True ρ ∧
        (q.equation.eval ρ = 0 ↔ ρ.var q.var = q.solution.eval ρ)) ∧
      (q.divisor.eval s.knowns.point = 0 →
        ∀ x, q.equation.eval (ρ.shift q.var x) = q.equation.eval ρ) := by
  have hiso := isolates_of_reduce (Assembly.wellFormed_of_assemble hs) hr hq
  rw [Constants.eval_of_determine hconst (Constants.knows_point _) hρ]
  have hunique := hsmooth.existsUnique_iff hiso.mem hiso.free
  refine ⟨hiso.divides, hunique.symm, hiso.solves ρ hsmooth, ?_⟩
  intro hzero x
  have hshift := hsmooth.eval_shift hiso.mem hiso.free x
  change q.divisor.eval ρ = 0 at hzero
  rw [← Division.divisor, hzero] at hshift
  simpa using hshift

/-! ### A spring without damping -/

namespace Slack

open Rotational.Driven (part)

def wall : Component := part Rotational.fixed 0 "wall" []

/-- The damping may be zero, and here it is. -/
def spring : Component :=
  part Rotational.springDamper 1 "spring" [("c", .number ⟨2, 0⟩), ("d", .number ⟨0, 0⟩)]

def load : Component := part Rotational.constantTorque 2 "load" []

/-- A constant torque on a spring that is held at its other end. -/
def diagram : Diagram where
  components := [wall, spring, load]
  connections := [[⟨wall, "flange"⟩, ⟨spring, "flange_a"⟩],
    [⟨spring, "flange_b"⟩, ⟨load, "flange"⟩]]

def angle : Var := ⟨"spring_phi_rel", 0⟩

/-- The torque of the spring balances the load. -/
def balance : Expr :=
  .sum (.par "load_tau_constant")
    (.sum (.prod (.num (-1)) (.prod (.par "spring_c")
        (.sum (.prod (.num (-1)) (.par "spring_phi_rel0")) (.var angle))))
      (.prod (.num (-1)) (.prod (.par "spring_d") (.var angle.der))))

/-- The balance is solved for the speed by dividing by the damping. -/
def division : Division where
  equation := balance
  unknowns := [angle.der]
  var := angle.der
  solution := .prod (.num (-1)) (.prod (.power (.par "spring_d") (-1))
    (.sum (.prod (.num (-1)) (.par "load_tau_constant")) (.prod (.par "spring_c")
      (.sum (.prod (.num (-1)) (.par "spring_phi_rel0")) (.var angle)))))

theorem divisor_division : division.divisor = .prod (.num (-1)) (.par "spring_d") := by
  decide +kernel

/-- The damping is divided by all the same. -/
theorem divisor_ne_zero_iff_slack : ∃ s r, (assemble .standard diagram).outcome = .ok s ∧
    (reduce s).outcome = .ok r ∧ division ∈ divisions s {} ∧
    ∀ ρ : Valuation ℝ, ρ.Knows s.knowns → ¬ division.solution.Regular True ρ ∧
      ¬ ∃! x, balance.eval (ρ.shift angle.der x) = 0 := by
  have h : ((assemble .standard diagram).outcome.toOption.bind fun s =>
      (reduce s).outcome.toOption.map fun _ =>
        (s.knowns.lookup "spring_d", decide (division ∈ divisions s {}))) =
          some (some ⟨0, 0⟩, true) := by decide +kernel
  obtain ⟨s, hs, h⟩ := Option.bind_eq_some_iff.mp h
  obtain ⟨r, hr, h⟩ := Option.map_eq_some_iff.mp h
  obtain ⟨hd, hq⟩ := Prod.mk.inj h
  have hs := ok_of_toOption hs
  have hr := ok_of_toOption hr
  have hq := of_decide_eq_true hq
  have hconst : s.knowns.determine division.divisor = true := by
    rw [divisor_division]
    simp [Constants.determine, Expr.symbols, Expr.symbolList, Expr.par, hd]
  refine ⟨s, r, hs, hr, hq, fun ρ hρ => ?_⟩
  have hzero : ρ.par "spring_d" = 0 := by
    rw [hρ _ _ hd]
    norm_num [Decimal.toRat]
  have hsmooth : balance.SmoothIn [angle.der] ρ := by
    intro ρ' _
    simp [balance, Expr.Regular, Expr.var, Expr.par]
  obtain ⟨-, hiff, -⟩ := divisor_ne_zero_iff hs hr hq hconst hρ hsmooth
  have hvalue : division.divisor.eval s.knowns.point = 0 := by
    rw [Constants.eval_of_determine hconst (Constants.knows_point _) hρ, divisor_division]
    simp [Expr.par, Valuation.symbol, hzero]
  constructor
  · rintro ⟨-, ⟨-, hpower, -⟩, -⟩
    exact hpower.ne_zero (by norm_num) hzero
  · exact fun hunique => hiff.mpr hunique hvalue

end Slack

end Reduction

end Flange

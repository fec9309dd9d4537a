import Flange.Proofs.Expr.WideReal
import Flange.Proofs.Initial.Point

/-! # Requirements at the point that is found

A requirement holds up to the tolerance where its residual is a number. A residual that is undefined
is not larger than the tolerance either, so that the point is taken and the requirement says nothing
about it.
-/

namespace Flange

open Initialization

theorem Scalar.Embeds.pointValuation {α : Type} [Scalar α] {ι : ℝ → α} (h : Embeds ι)
    (vs : List Var) (x : Vec ℝ) :
    Initialization.pointValuation vs (x.map ι) = (Initialization.pointValuation vs x).map ι := by
  have hzero : (Vec.zero : α) = ι Vec.zero := h.ofRat 0
  have hlookup (v : Var) : (vs.zip (x.map ι)).lookup v = ((vs.zip x).lookup v).map ι := by
    rw [← lookup_map (fun h => h) ι, List.zip_map_right]
    rfl
  simp only [Initialization.pointValuation, Valuation.map, hzero, hlookup, Option.getD_map]

namespace ReducedSystem

variable (r : ReducedSystem) (t : Rat) (inputs : InputFunctions) (x : Vec ℝ) (e : Expr)

/-- What the unknowns stand for in the search. -/
noncomputable def pointOf : Valuation WideReal := pointValuation r.unknowns (x.map .real)

/-- By how much the constraint `e` is off where the unknowns have the values `x`. -/
noncomputable def residual : WideReal := (settle (r.knownAt t inputs) e).eval (r.pointOf x)

/-- By how much a request with the expression `e` is off. Without unknowns it is no equation, and
what its expression stands for has to be a number. -/
noncomputable def requestResidual? : Option WideReal :=
  let f := settle (r.knownAt t inputs) e
  if (r.unknownsIn f).isEmpty then f.number? (r.pointOf x) else some (f.eval (r.pointOf x))

/-- `e` is a number that is zero up to `ε`, and it is its own value where it is defined. -/
def Vanishes (ε : Rat) (v : WideReal) : Prop :=
  ∃ y, v = .real y ∧ |y| ≤ ε ∧
    (e.Regular False (r.pointAt t inputs x) → y = e.eval (r.pointAt t inputs x))

/-- What is asked for by `q` has the value that is asked for, up to `ε`. -/
def Meets (ε : Rat) (q : Request) : Prop :=
  ∃ e v, r.expressionFor q.1 = .ok e ∧
    r.requestResidual? t inputs x (e - .num q.2) = some v ∧
    r.Vanishes t inputs x (e - .num q.2) ε v ∧
    (e.Regular False (r.pointAt t inputs x) → |e.eval (r.pointAt t inputs x) - q.2| ≤ ε)

/-- Up to `ε` the constraints hold, and so do the requests and the strong values that no request
replaces. -/
structure Satisfied (ε : Rat) (given : List Request) : Prop where
  constraints : ∀ g ∈ r.constraints, r.Vanishes t inputs x g ε (r.residual t inputs x g)
  asked : ∀ q ∈ given, r.Meets t inputs x ε q
  strong : ∀ p ∈ r.strong, (∀ q ∈ given, q.1 ≠ .var p.1) → r.Meets t inputs x ε (.var p.1, p.2)

/-- No residual is undefined. -/
structure Defined (given : List Request) : Prop where
  constraints : ∀ g ∈ r.constraints, r.residual t inputs x g ≠ .undefined
  requests : ∀ q ∈ requests r given, ∀ e, r.expressionFor q.1 = .ok e →
    r.requestResidual? t inputs x (e - .num q.2) ≠ some .undefined

variable {r t inputs x e} {ε : Rat} {given : List Request} {q : Request} {v : WideReal}

section Regular

variable (h : e.Regular False (r.pointAt t inputs x))

include h

theorem residual_of_regular : r.residual t inputs x e = .real (e.eval (r.pointAt t inputs x)) := by
  have hsettled := denotes_settle h
  rw [residual, pointOf, WideReal.embeds.pointValuation, WideReal.embeds.eval hsettled.regular,
    hsettled.eval]

theorem number?_of_regular : (settle (r.knownAt t inputs) e).number? (r.pointOf x) =
    some (.real (e.eval (r.pointAt t inputs x))) := by
  have hsettled := denotes_settle h
  rw [pointOf, WideReal.embeds.pointValuation, WideReal.embeds.number? hsettled.regular,
    hsettled.eval]

theorem requestResidual?_of_regular :
    r.requestResidual? t inputs x e = some (.real (e.eval (r.pointAt t inputs x))) := by
  unfold requestResidual?
  dsimp only
  split
  · exact number?_of_regular h
  · exact congrArg some (residual_of_regular h)

end Regular

/-- What is tolerated vanishes unless it is undefined. -/
theorem vanishes_of_tolerated {o : InitialOptions}
    (hvalue : e.Regular False (r.pointAt t inputs x) → v = .real (e.eval (r.pointAt t inputs x)))
    (h : Tolerated o v) (hdefined : v ≠ .undefined) : r.Vanishes t inputs x e o.tolerance v := by
  obtain rfl | ⟨y, rfl, hsmall⟩ := WideReal.not_lt_abs_iff.mp h
  · exact absurd rfl hdefined
  · exact ⟨y, rfl, hsmall, fun hregular => WideReal.real.inj (hvalue hregular)⟩

theorem Vanishes.ne_undefined (h : r.Vanishes t inputs x e ε v) : v ≠ .undefined := by
  obtain ⟨y, rfl, -⟩ := h
  exact nofun

theorem Meets.ne_undefined (h : r.Meets t inputs x ε q) (he : r.expressionFor q.1 = .ok e) :
    r.requestResidual? t inputs x (e - .num q.2) ≠ some .undefined := by
  obtain ⟨e', v, he', hv, hvanishes, -⟩ := h
  obtain rfl := Except.ok.inj (he.symm.trans he')
  rw [hv]
  exact fun heq => hvanishes.ne_undefined (Option.some.inj heq)

theorem Satisfied.defined (h : r.Satisfied t inputs x ε given) : r.Defined t inputs x given where
  constraints g hg := (h.constraints g hg).ne_undefined
  requests q hq e he := by
    rcases mem_requests.mp hq with hq | ⟨p, hp, rfl, hnew⟩
    · exact (h.asked q hq).ne_undefined he
    · exact (h.strong p hp hnew).ne_undefined he

/-- Where every expression is defined, no residual is undefined. -/
theorem defined_of_regular
    (hconstraints : ∀ g ∈ r.constraints, g.Regular False (r.pointAt t inputs x))
    (hrequests : ∀ q ∈ requests r given, ∀ e, r.expressionFor q.1 = .ok e →
      e.Regular False (r.pointAt t inputs x)) : r.Defined t inputs x given where
  constraints g hg := by
    rw [residual_of_regular (hconstraints g hg)]
    exact nofun
  requests q hq e he := by
    have hregular := hrequests q hq e he
    rw [requestResidual?_of_regular
      (Expr.denotes_sub hregular.denotes (Expr.denotes_num q.2)).regular]
    exact nofun

theorem unknownsIn_eq_nil (h : r.unknowns = []) : r.unknownsIn e = [] := by
  apply List.eq_nil_iff_forall_not_mem.mpr
  intro v hv
  simp [unknownsIn, EquationSystem.unknownsIn, h] at hv

theorem unknownsIn_eq_nil_of_closed (h : e.symbols = []) : r.unknownsIn e = [] := by
  apply List.eq_nil_iff_forall_not_mem.mpr
  intro v hv
  simp [unknownsIn, EquationSystem.unknownsIn, Expr.functions, Expr.vars, h] at hv

/-- The residual of a request is tolerated, whether it is an equation or not. -/
theorem tolerated_of_imposes {o : InitialOptions} {es : List Expr}
    (h : Imposes r (r.knownAt t inputs) WideReal o es q)
    (hes : r.unknowns ≠ [] → ∀ e ∈ es, Tolerated o (e.eval (r.pointOf x))) :
    ∃ e v, r.expressionFor q.1 = .ok e ∧
      r.requestResidual? t inputs x (e - .num q.2) = some v ∧ Tolerated o v := by
  obtain ⟨f, hf, h⟩ := h
  obtain ⟨e, he, rfl⟩ := express_ok hf
  unfold requestResidual?
  dsimp only
  rcases h with ⟨hunknowns, hmem⟩ | hconstant
  · refine ⟨e, _, he, if_neg (by simpa using hunknowns), ?_⟩
    exact hes (fun hnil => hunknowns (unknownsIn_eq_nil hnil)) _ hmem
  · obtain ⟨y, hy, hsmall⟩ := (Option.any_eq_true ..).mp hconstant
    obtain ⟨hclosed, hvalue⟩ := constant?_eq_some hy
    refine ⟨e, y, he, ?_, by simpa [Tolerated] using hsmall⟩
    rw [if_pos (by simp [unknownsIn_eq_nil_of_closed hclosed]), hvalue]

theorem meets_of_tolerated {o : InitialOptions} (he : r.expressionFor q.1 = .ok e)
    (hv : r.requestResidual? t inputs x (e - .num q.2) = some v) (h : Tolerated o v)
    (hdefined : v ≠ .undefined) : r.Meets t inputs x o.tolerance q := by
  have hvanishes : r.Vanishes t inputs x (e - .num q.2) o.tolerance v := by
    refine vanishes_of_tolerated (fun hregular => ?_) h hdefined
    exact Option.some.inj (hv.symm.trans (requestResidual?_of_regular hregular))
  refine ⟨e, v, he, hv, hvanishes, fun hregular => ?_⟩
  have hsub := Expr.denotes_sub hregular.denotes (Expr.denotes_num q.2)
  obtain ⟨y, -, hsmall, hvalue⟩ := hvanishes
  rwa [← hsub.eval, ← hvalue hsub.regular]

/-- Where there are as many constraints as algebraic variables and the point that is returned is
finite, the constraints, the requests and the strong values that no request replaces all hold up to
the tolerance just when none of their residuals is undefined, whatever the solver is. In particular
they hold where all their expressions are defined. The eliminated variables have the values of their
expressions in any case. -/
theorem satisfied_iff_defined {s : Solver WideReal} {o : InitialOptions}
    {c : InitialConditions WideReal} (hsize : r.constraints.length = r.algebraic.length)
    (hc : (r.initialConditions s o given t inputs).outcome = .ok c)
    (hx : c.states ++ c.algebraic = x.map .real) :
    ∃ us, r.inputFunctions inputs = .ok us ∧
      (r.Satisfied t us x o.tolerance given ↔ r.Defined t us x given) ∧
      ((∀ g ∈ r.constraints, g.Regular False (r.pointAt t us x)) →
        (∀ q ∈ requests r given, ∀ e, r.expressionFor q.1 = .ok e →
          e.Regular False (r.pointAt t us x)) →
        r.Satisfied t us x o.tolerance given) ∧
      ∀ v e, r.observed.lookup v = some e → ∃ y, c.values.lookup v = some y ∧
        (settle (r.knownAt t us) e).number? (r.pointOf x) = some y ∧
        (e.Regular False (r.pointAt t us x) → y = .real (e.eval (r.pointAt t us x))) := by
  obtain ⟨us, strong, cs, x', ps, hus, h, rfl⟩ := initialConditions_ok.mp hc
  obtain rfl : x' = x.map .real := (List.take_append_drop ..).symm.trans hx
  have himposed := imposed_of_strongEquations h.imposed
  have hes : r.unknowns ≠ [] → ∀ e ∈ strong, Tolerated o (e.eval (r.pointOf x)) :=
    fun hne e he => ((solve_ok hne).mp h.solved).2.2.1 e (subset_fill he)
  have hconstraints : ∀ g ∈ r.constraints, Tolerated o (r.residual t us x g) := by
    intro g hg
    refine hes (fun hnil => ?_) _ (himposed.constraints g hg)
    -- without unknowns there are no constraints
    rw [(List.append_eq_nil_iff.mp hnil).2, List.length_nil, List.length_eq_zero_iff] at hsize
    exact absurd hg (by simp [hsize])
  have hmeets (hdefined : r.Defined t us x given) (q : Request) (hq : q ∈ requests r given) :
      r.Meets t us x o.tolerance q := by
    obtain ⟨e, v, he, hv, hsmall⟩ := tolerated_of_imposes (himposed.requests q hq) hes
    exact meets_of_tolerated he hv hsmall fun heq => hdefined.requests q hq e he (heq ▸ hv)
  have hiff : r.Satisfied t us x o.tolerance given ↔ r.Defined t us x given :=
    ⟨Satisfied.defined, fun hdefined =>
      { constraints := fun g hg => vanishes_of_tolerated residual_of_regular
          (hconstraints g hg) (hdefined.constraints g hg)
        asked := fun q hq => hmeets hdefined q (mem_requests.mpr (Or.inl hq))
        strong := fun p hp hnew =>
          hmeets hdefined _ (mem_requests.mpr (Or.inr ⟨p, hp, rfl, hnew⟩)) }⟩
  refine ⟨us, hus, hiff, fun hg hq => hiff.mpr (defined_of_regular hg hq), fun v e hv => ?_⟩
  obtain ⟨y, hy, hvalue⟩ := lookup_allValues h.observed hv
  refine ⟨y, hy, hvalue, fun hregular => ?_⟩
  exact Option.some.inj (hvalue.symm.trans (number?_of_regular hregular))

end ReducedSystem

/-! ### A quotient of zeros -/

namespace ReducedSystem.Quotient

def z : Var := ⟨"z", 0⟩

def ratio : Expr := .prod (.par "a") (.power (.par "b") (-1))

/-- An eliminated variable is the quotient of two parameters, both zero. -/
def system : ReducedSystem where
  states := []
  rates := []
  algebraic := []
  constraints := []
  observed := [(z, ratio)]
  knowns := [("a", ⟨0, 0⟩), ("b", ⟨0, 0⟩)]

/-- The quotient is to be 1. -/
def given : List Request := [(.var z, 1)]

/-- There is nothing to search for. -/
def solver : Solver WideReal := ⟨fun _ _ => none, fun _ => .undefined⟩

theorem express_given : express system (system.knownAt 0 []) (.var z, 1) = .ok .undefined :=
  ok_of_toOption (by decide +kernel)

theorem settle_ratio : settle (system.knownAt 0 []) ratio = .undefined := by decide +kernel

theorem number?_undefined (ρ : Valuation WideReal) :
    Expr.undefined.number? ρ = some WideReal.undefined :=
  (WideReal.embeds.number?_undefined ρ).trans (congrArg some WideReal.undefined_eq)

theorem strong_equations :
    (strongEquations system (system.knownAt 0 []) WideReal {} given).outcome = .ok [] := by
  have hconstant : (constant? Expr.undefined : Option WideReal) = some .undefined := by
    rw [constant?, if_pos (by decide +kernel), number?_undefined]
  have hpassed : (strongEquation system (system.knownAt 0 []) WideReal {} (.var z, 1)).outcome =
      .ok none :=
    strongEquation_ok.mpr ⟨_, express_given, Or.inr ⟨by decide +kernel, rfl, by
      rw [hconstant]
      rfl⟩⟩
  have hrequests : requests system given = [(.var z, 1)] := by decide +kernel
  rw [strongEquations, Run.bind_ok]
  refine ⟨[none], ?_, rfl⟩
  rw [Run.outcome_mapM, hrequests, List.mapM_cons, hpassed]
  rfl

theorem observe_ratio : system.observed.mapM
    (observedValue system (system.knownAt 0 []) ([] : Vec WideReal)) = .ok [(z, .undefined)] := by
  have hvalue : observedValue system (system.knownAt 0 []) ([] : Vec WideReal) (z, ratio) =
      .ok (z, .undefined) := by
    unfold observedValue
    dsimp only
    rw [settle_ratio, if_pos (by decide +kernel), number?_undefined]
  rw [show system.observed = [(z, ratio)] from rfl, List.mapM_cons, hvalue]
  rfl

theorem found : Found system solver {} given 0 [] [] [] [] [(z, .undefined)] where
  imposed := strong_equations
  filled := ok_of_toOption (by decide +kernel)
  matched := by decide +kernel
  solved := by rfl
  observed := observe_ratio

/-- The residual is undefined, so that the request is passed over. -/
theorem satisfied_iff_defined_quotient :
    (system.constraints.length = system.algebraic.length ∧
      (system.initialConditions solver {} given 0 []).outcome =
        .ok (conditionsOf system [] [(z, .undefined)]) ∧
      (conditionsOf system [] [(z, WideReal.undefined)]).states = [] ∧
      (conditionsOf system [] [(z, WideReal.undefined)]).algebraic = []) ∧
      ¬ system.Satisfied 0 [] [] (mkRat 1 100000000) given := by
  have hrun : (system.initialConditions solver {} given 0 []).outcome =
      .ok (conditionsOf system [] [(z, .undefined)]) :=
    initialConditions_ok.mpr ⟨[], [], [], [], [(z, .undefined)], rfl, found, rfl⟩
  obtain ⟨us, hus, hiff, -⟩ := satisfied_iff_defined (x := []) rfl hrun rfl
  obtain rfl : [] = us := Except.ok.inj hus
  refine ⟨⟨rfl, hrun, rfl, rfl⟩, fun hsatisfied => ?_⟩
  have hsettle : settle (system.knownAt 0 []) (ratio - .num 1) = .undefined := by decide +kernel
  refine (hiff.mp hsatisfied).requests (.var z, 1)
    (mem_requests.mpr (Or.inl List.mem_cons_self)) ratio rfl ?_
  rw [requestResidual?]
  dsimp only
  rw [hsettle, if_pos (by decide +kernel), number?_undefined]

end ReducedSystem.Quotient

end Flange

import Flange.Proofs.Expr.Straight
import Flange.Proofs.Reduction.Alias
import Flange.Proofs.Trajectory

/-! # Solutions and aliases

A trajectory that solves an equation gives the unknown that the equation is solved for the value
of its alias, and the other way round.
-/

namespace Flange

/-- Along the trajectory the equation can be solved for the variables: it is its linear form in
them, and no coefficient vanishes. -/
def Trajectory.Solvable (T : Trajectory) (e : Expr) (vs : List Var) : Prop :=
  ∀ t ∈ T.domain, e.LinearAt True vs (T.valuation t) ∧
    ∀ v ∈ vs, (e.partialDerivative (.var v)).eval (T.valuation t) ≠ 0

/-- An equation that is smooth everywhere can be solved for a variable with a constant
coefficient. -/
theorem Trajectory.solvable_of_constant {T : Trajectory} {e : Expr} {v : Var} {q : ℚ}
    (hreg : ∀ ρ, e.Regular True ρ) (hc : e.partialDerivative (.var v) = .num q) (hq : q ≠ 0)
    (hders : ∀ u ∈ e.symbolList, Expr.Mentions (.var v) u → u = .var v) : T.Solvable e [v] := by
  intro t _
  refine ⟨Expr.linearAt_of_straight (List.nodup_singleton v) (fun _ _ => hreg _) ?_ ?_, ?_⟩
  · simp [hc, Expr.has, Expr.symbolList]
  · simpa [Expr.MentionsAny] using hders
  · simpa [hc] using hq

namespace AliasContext

variable {ctx : AliasContext} {unknowns differentiated : List Var} {e sub : Expr} {v w x : Var}
  {ρ : Valuation ℝ}

theorem matchConstant_solves (h : ctx.matchConstant e v = some (w, sub)) :
    w = v ∧ e.solveLinear? (.var v) = some sub := by
  simp only [matchConstant, Option.bind_eq_bind, Option.bind_eq_some_iff] at h
  obtain ⟨c, hc, h⟩ := h
  split at h
  · obtain ⟨rfl, rfl⟩ := Prod.mk.inj (Option.some.inj h)
    exact ⟨rfl, by rw [Expr.solveLinear?, hc, Option.map_some]⟩
  · simp at h

/-- A pair of unknowns with opposite or equal coefficients determines either of them. -/
theorem matchPair_solves (h : ctx.matchPair differentiated e v w = some (x, sub))
    (hlin : e.LinearAt True [v, w] ρ) (hv : (e.partialDerivative (.var v)).eval ρ ≠ 0)
    (hw : (e.partialDerivative (.var w)).eval ρ ≠ 0) :
    sub.Regular True ρ ∧ (e.eval ρ = 0 ↔ ρ.var x = sub.eval ρ) := by
  simp only [matchPair, Option.bind_eq_bind, Option.bind_eq_some_iff] at h
  obtain ⟨cv, hcv, cw, hcw, h⟩ := h
  obtain ⟨rfl, -⟩ := Expr.linearCoeff_eq_some.mp hcv
  obtain ⟨rfl, -⟩ := Expr.linearCoeff_eq_some.mp hcw
  have hv' := (hlin.coeff v (by simp)).denotes
  have hw' := (hlin.coeff w (by simp)).denotes
  split at h
  · next hzero =>
    simp only [Bool.and_eq_true] at hzero
    have hrest : (e.substitute (Expr.zeros [v, w])).eval ρ = 0 :=
      (Expr.eq_zero_of_isZero hzero.2).symm ▸ Expr.eval_zero
    have heq := hlin.eval_eq
    simp only [List.map_cons, List.map_nil, List.sum_cons, List.sum_nil, hrest, add_zero] at heq
    rw [heq]
    generalize (e.partialDerivative (.var v)).eval ρ = a at *
    generalize (e.partialDerivative (.var w)).eval ρ = b at *
    split at h
    · obtain ⟨rfl, rfl⟩ := Prod.mk.inj (Option.some.inj h)
      have hsub := Expr.denotes_mul (Expr.denotes_div (Expr.denotes_neg hw') hv' hv)
        (Expr.denotes_var w)
      refine ⟨hsub.regular, ?_⟩
      rw [hsub.eval, div_mul_eq_mul_div, eq_div_iff hv]
      constructor <;> intro h <;> linarith
    · obtain ⟨rfl, rfl⟩ := Prod.mk.inj (Option.some.inj h)
      have hsub := Expr.denotes_mul (Expr.denotes_div (Expr.denotes_neg hv') hw' hw)
        (Expr.denotes_var v)
      refine ⟨hsub.regular, ?_⟩
      rw [hsub.eval, div_mul_eq_mul_div, eq_div_iff hw]
      constructor <;> intro h <;> linarith
  · simp at h

/-- The alias is the solution of the equation. -/
theorem match?_solves (h : ctx.match? unknowns differentiated e = some (v, sub))
    (hlin : e.LinearAt True (EquationSystem.unknownsIn unknowns e) ρ)
    (hc : ∀ u ∈ EquationSystem.unknownsIn unknowns e,
      (e.partialDerivative (.var u)).eval ρ ≠ 0) :
    sub.Regular True ρ ∧ (e.eval ρ = 0 ↔ ρ.var v = sub.eval ρ) := by
  unfold match? at h
  split at h
  · simp at h
  · split at h
    · next u heq =>
      rw [heq] at hlin hc
      obtain ⟨rfl, hsol⟩ := matchConstant_solves h
      exact Expr.solveLinear_iff hsol hlin (hc v (by simp))
    · next u w heq =>
      rw [heq] at hlin hc
      exact matchPair_solves h hlin (hc u (by simp)) (hc w (by simp))
    · simp at h

end AliasContext

namespace Aliases

variable {ctx : AliasContext} {a b : Aliases} {x : Event} {xs : List Event} {T : Trajectory}

/-- The equations that are left hold, and what is observed has its values; with `smooth` they meet
no kink. -/
structure Satisfies (smooth : Prop) (T : Trajectory) (a : Aliases) : Prop where
  exprs : ∀ e ∈ a.exprs, T.Takes smooth e fun _ => 0
  observed : ∀ q ∈ a.observed, T.Takes smooth q.2 (T.var q.1)

/-- Along `T` the equations that are solved can be solved. -/
def SolvableAlong (T : Trajectory) (xs : List Event) : Prop :=
  ∀ e vs v sub, .solved e vs v sub ∈ xs → T.Solvable e vs

variable {smooth : Prop}

theorem Satisfies.step (hstep : Step ctx a x b) (hx : SolvableAlong T [x])
    (h : a.Satisfies smooth T) : b.Satisfies smooth T := by
  cases hstep with
  | drop i e he hact => exact ⟨fun f hf => h.exprs f (List.mem_of_mem_eraseIdx hf), h.observed⟩
  | eliminate i e v sub b he hmatch hb =>
    obtain ⟨hexprs, -, hobserved⟩ := eliminate_ok hb
    have hsolvable := hx e _ v sub List.mem_cons_self
    have hsub : T.Reads sub (T.var v) := by
      intro t ht
      obtain ⟨hlin, hc⟩ := hsolvable t ht
      obtain ⟨hreg, hiff⟩ := AliasContext.match?_solves hmatch hlin hc
      exact ⟨hreg, (hiff.mp (h.exprs e (List.mem_of_getElem? he) t ht).eval).symm⟩
    have hσ : T.Respects [(.var v, sub)] := List.forall_mem_singleton.mpr hsub
    constructor
    · rw [hexprs]
      refine List.forall_mem_map.mpr fun f hf => ?_
      exact (h.exprs f (List.mem_of_mem_eraseIdx hf)).substitute hσ
    · intro q hq
      rw [hobserved] at hq
      rcases Observed.of_mem_set hq with rfl | hq
      · exact fun t ht => (hsub t ht).of_smooth
      · obtain ⟨r, hr, rfl⟩ := List.mem_map.mp hq
        exact (h.observed r hr).substitute hσ

/-- Aliases are true along every trajectory that solves the equations. -/
theorem Satisfies.steps (hsteps : Steps ctx xs a b) (hx : SolvableAlong T xs)
    (h : a.Satisfies smooth T) : b.Satisfies smooth T := by
  induction hsteps with
  | nil => exact h
  | cons hstep _ ih =>
    refine ih (fun e vs v sub hmem => hx e vs v sub (List.mem_cons_of_mem _ hmem)) ?_
    exact h.step hstep fun e vs v sub hmem =>
      hx e vs v sub (List.mem_singleton.mp hmem ▸ List.mem_cons_self)

/-! ### The other way round -/

/-- The equations that are left and defined hold, and what is observed and defined has its values;
with `smooth` only what meets no kink counts. -/
structure SatisfiesDefined (smooth : Prop) (T : Trajectory) (a : Aliases) : Prop where
  exprs : ∀ e ∈ a.exprs, T.RegularAlong smooth e → T.Takes smooth e fun _ => 0
  observed : ∀ q ∈ a.observed, T.RegularAlong smooth q.2 → T.Takes smooth q.2 (T.var q.1)

/-- Along `T` the equations that are dropped are zero. -/
def DroppedZero (T : Trajectory) (xs : List Event) : Prop :=
  ∀ e, .dropped e ∈ xs → ∀ t ∈ T.domain, e.eval (T.valuation t) = 0

variable {us : List Var}

theorem SatisfiesDefined.of_step (horder : ∀ u ∈ us, u.order = 0) (hstep : Step ctx a x b)
    (ha : a.Separate us) (hx : SolvableAlong T [x]) (hd : DroppedZero T [x])
    (h : b.SatisfiesDefined smooth T) : a.SatisfiesDefined smooth T := by
  cases hstep with
  | drop i e he hact =>
    refine ⟨fun f hf hregular => ?_, h.observed⟩
    rcases eq_or_mem_eraseIdx he hf with rfl | hf
    · exact fun t ht => ⟨hregular t ht, hd f List.mem_cons_self t ht⟩
    · exact h.exprs f hf hregular
  | eliminate i e v sub b he hmatch hb =>
    obtain ⟨hv, -⟩ := AliasContext.match?_over (fun u hu => horder u (ha.subset hu)) hmatch
    obtain ⟨hexprs, -, hobserved⟩ := eliminate_ok hb
    have hsolve : ∀ t ∈ T.domain, sub.Regular True (T.valuation t) ∧
        (e.eval (T.valuation t) = 0 ↔ T.var v t = sub.eval (T.valuation t)) := by
      intro t ht
      obtain ⟨hlin, hc⟩ := hx e _ v sub List.mem_cons_self t ht
      exact AliasContext.match?_solves hmatch hlin hc
    have hvalue := h.observed (v, sub) (hobserved ▸ Observed.mem_set_self _ v sub)
      fun t ht => (hsolve t ht).1.of_smooth
    have hsub : T.Reads sub (T.var v) := fun t ht => ⟨(hsolve t ht).1, (hvalue t ht).eval⟩
    have hσ : T.Respects [(.var v, sub)] := List.forall_mem_singleton.mpr hsub
    refine ⟨fun f hf hregular => ?_, fun q hq hregular => ?_⟩
    · rcases eq_or_mem_eraseIdx he hf with rfl | hf
      · exact fun t ht => ⟨hregular t ht, (hsolve t ht).2.mpr (hsub t ht).eval.symm⟩
      · exact hregular.takes_of_substitute hσ (h.exprs _ (hexprs ▸ List.mem_map_of_mem hf))
    · have hne : q.1 ≠ v := fun hqv => ha.disjoint v hv (hqv ▸ List.mem_map_of_mem hq)
      refine hregular.takes_of_substitute hσ
        (h.observed (q.1, q.2.substitute [(.var v, sub)]) ?_)
      exact hobserved ▸ Observed.mem_set_of_ne (List.mem_map_of_mem
        (f := fun q : Var × Expr => (q.1, q.2.substitute [(.var v, sub)])) hq) hne

/-- Where the aliases are true, the equations that are defined hold that they come from. -/
theorem SatisfiesDefined.of_steps (horder : ∀ u ∈ us, u.order = 0) (hsteps : Steps ctx xs a b)
    (ha : a.Separate us) (hx : SolvableAlong T xs) (hd : DroppedZero T xs)
    (h : b.SatisfiesDefined smooth T) : a.SatisfiesDefined smooth T := by
  induction hsteps with
  | nil => exact h
  | cons hstep _ ih =>
    have hrest := ih (ha.step horder hstep)
      (fun e vs v sub hmem => hx e vs v sub (List.mem_cons_of_mem _ hmem))
      (fun e hmem => hd e (List.mem_cons_of_mem _ hmem)) h
    refine hrest.of_step horder hstep ha (fun e vs v sub hmem => ?_) (fun e hmem => ?_)
    · exact hx e vs v sub (List.mem_singleton.mp hmem ▸ List.mem_cons_self)
    · exact hd e (List.mem_singleton.mp hmem ▸ List.mem_cons_self)

end Aliases

end Flange

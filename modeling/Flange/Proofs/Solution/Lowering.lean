import Flange.Proofs.Reduction.Lowering
import Flange.Proofs.Trajectory

/-! # Solutions and first-order form

The new variables of a lowered system are the derivatives that they stand for exactly when their
relations hold, and then the lowered equations have the values of the equations.
-/

namespace Flange

namespace Trajectory

variable {T : Trajectory} {u v w : Var}

/-- Two variables have the same values along the trajectory. -/
def Same (T : Trajectory) (v w : Var) : Prop := ∀ t ∈ T.domain, T.var v t = T.var w t

theorem Same.refl (v : Var) : T.Same v v := fun _ _ => rfl

theorem Same.symm (h : T.Same v w) : T.Same w v := fun t ht => (h t ht).symm

theorem Same.trans (h : T.Same u v) (h' : T.Same v w) : T.Same u w :=
  fun t ht => (h t ht).trans (h' t ht)

theorem Same.der (h : T.Same v w) : T.Same v.der w.der := by
  intro t ht
  refine (T.hasDerivAt v t ht).unique ((T.hasDerivAt w t ht).congr_of_eventuallyEq ?_)
  filter_upwards [T.isOpen.mem_nhds ht] with u hu using h u hu

theorem solves_sub_iff : T.Solves (.var v - .var w) ↔ T.Same v w := by
  have hsub : ∀ t, (Expr.var v - Expr.var w).Denotes True (T.valuation t) (T.var v t - T.var w t) :=
    fun t => Expr.denotes_sub (Expr.denotes_var v) (Expr.denotes_var w)
  constructor
  · exact fun h t ht => sub_eq_zero.mp ((hsub t).eval.symm.trans (h t ht).eval)
  · exact fun h t ht => (hsub t).congr (sub_eq_zero.mpr (h t ht))

theorem respects_replacement {ps : List (Var × Var)} (h : ∀ p ∈ ps, T.Same p.1 p.2) :
    T.Respects (Lowered.replacement ps) :=
  List.forall_mem_map.mpr fun p hp t ht => (Expr.denotes_var p.2).congr (h p hp t ht).symm

end Trajectory

namespace Lowered

variable {T : Trajectory} {x y v : Var} {vs : List Var} {es : List Expr} {known : List Var}
  {taken : List String}

/-- Relations from `y` on hold when the variables are the derivatives of `x` from `y` on. -/
theorem relations_iff : ∀ {vs : List Var} {y : Var} {m : Nat}, T.Same y (x.der m) →
    ((∀ e ∈ relations y vs, T.Solves e) ↔
      ∀ j w, vs[j]? = some w → T.Same (x.der (m + j + 1)) w)
  | [], _, _, _ => by simp [relations]
  | v :: vs, y, m, hy => by
    have hder : T.Same y.der (x.der (m + 1)) := by simpa using hy.der
    have ih : ∀ hv : T.Same v (x.der (m + 1)), (∀ e ∈ relations v vs, T.Solves e) ↔
        ∀ j w, vs[j]? = some w → T.Same (x.der (m + 1 + j + 1)) w := relations_iff
    rw [relations, List.forall_mem_cons, Trajectory.solves_sub_iff]
    constructor
    · rintro ⟨hv, hvs⟩ j w hj
      cases j with
      | zero =>
        obtain rfl := Option.some.inj hj
        exact (hv.trans hder).symm
      | succ j =>
        have := (ih (hv.trans hder)).mp hvs j w hj
        rwa [show m + 1 + j + 1 = m + (j + 1) + 1 by omega] at this
    · intro h
      have hv : T.Same v (x.der (m + 1)) := (h 0 v rfl).symm
      refine ⟨hv.trans hder.symm, (ih hv).mpr fun j w hj => ?_⟩
      rw [show m + 1 + j + 1 = m + (j + 1) + 1 by omega]
      exact h (j + 1) w hj

theorem same_getLast (h : ∀ j w, vs[j]? = some w → T.Same (x.der (j + 1)) w) :
    T.Same (x.der vs.length) (vs.getLast?.getD x) := by
  rcases List.eq_nil_or_concat vs with rfl | ⟨ws, w, rfl⟩
  · simpa using Trajectory.Same.refl x
  · have := h ws.length w (by simp)
    simpa using this

/-- The relations of a chain hold exactly when its replacements are true. -/
theorem relations_iff_replacements : (∀ e ∈ relations x vs, T.Solves e) ↔
    ∀ p ∈ replacements x vs, T.Same p.1 p.2 := by
  have hstart : T.Same x (x.der 0) := by simpa using Trajectory.Same.refl x
  rw [relations_iff hstart]
  simp only [Nat.zero_add, replacements, List.forall_mem_append, List.forall_mem_map,
    List.forall_mem_singleton]
  constructor
  · intro h
    refine ⟨fun p hp => h p.2 p.1 (List.mem_zipIdx_iff_getElem?.mp hp), ?_⟩
    simpa using (same_getLast h).der
  · rintro ⟨h, -⟩ j w hj
    exact h (w, j) (List.mem_zipIdx_iff_getElem?.mpr hj)

end Lowered

open Lowered

variable {T : Trajectory} {es : List Expr} {known : List Var} {taken : List String}

/-- Every new variable is the derivative that it replaces. -/
def Lowered.Reading (T : Trajectory) (l : Lowered) : Prop := ∀ p ∈ l.replaced, T.Same p.1 p.2

/-- Solutions of the equations solve the lowered equations. -/
theorem solves_lowerOrder (hes : ∀ e ∈ es, T.Solves e)
    (hread : (lowerOrder known taken es).Reading T) :
    ∀ e ∈ (lowerOrder known taken es).exprs, T.Solves e := by
  rw [lowerOrder_eq] at hread ⊢
  intro e he
  rcases List.mem_append.mp he with he | he
  · obtain ⟨f, hf, rfl⟩ := List.mem_map.mp he
    exact (hes f hf).substitute (Trajectory.respects_replacement hread)
  · obtain ⟨c, hc, he⟩ := List.mem_flatMap.mp he
    exact relations_iff_replacements.mpr
      (fun p hp => hread p (List.mem_flatMap.mpr ⟨c, hc, hp⟩)) e he

end Flange

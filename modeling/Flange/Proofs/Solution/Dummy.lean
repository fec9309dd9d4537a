import Mathlib.LinearAlgebra.Matrix.ToLinearEquiv
import Flange.Proofs.Reduction.Levels
import Flange.Proofs.Solution.Lowering

/-! # Dummies are derivatives

Along a trajectory that solves the equations with dummies, each dummy has the values of the
derivative that it stands for, when the Jacobians by which they were chosen are nonsingular.
-/

namespace Flange

/-! ### Matrices of expressions -/

namespace Expr

variable {rows : List (List Expr)} {ρ : Valuation ℝ}

/-- A square matrix of expressions at `ρ`. -/
noncomputable def matrixAt (rows : List (List Expr)) (ρ : Valuation ℝ) :
    Matrix (Fin rows.length) (Fin rows.length) ℝ :=
  Matrix.of fun i j => (rows[i].getD j zero).eval ρ

def Nonsingular (rows : List (List Expr)) (ρ : Valuation ℝ) : Prop := (matrixAt rows ρ).det ≠ 0

/-- A nonsingular matrix takes only zeros to zeros. -/
theorem Nonsingular.eq_zero (h : Nonsingular rows ρ) {xs : List ℝ} (hlen : xs.length = rows.length)
    (hrows : ∀ row ∈ rows, row.length = rows.length)
    (hzero : ∀ row ∈ rows, (List.zipWith (fun e x => e.eval ρ * x) row xs).sum = 0) :
    ∀ x ∈ xs, x = 0 := by
  let v : Fin rows.length → ℝ := fun j => xs[j]
  have hmul : (matrixAt rows ρ).mulVec v = 0 := by
    funext i
    have hi := hrows _ (List.getElem_mem i.isLt)
    have hsum : List.zipWith (fun e x => e.eval ρ * x) rows[i] xs =
        List.ofFn fun j => matrixAt rows ρ i j * v j := by
      refine List.ext_getElem (by simp [hi, hlen]) fun j hj hj' => ?_
      have hlt : j < rows.length := by simpa using hj'
      have hj : j < rows[(i : Nat)].length := hlt.trans_eq hi.symm
      simp [matrixAt, v, List.getElem?_eq_getElem hj]
    rw [Matrix.mulVec, dotProduct, ← List.sum_ofFn, ← hsum]
    exact hzero _ (List.getElem_mem i.isLt)
  have hv : v = 0 := Matrix.eq_zero_of_mulVec_eq_zero h hmul
  intro x hx
  obtain ⟨j, hj, rfl⟩ := List.mem_iff_getElem.mp hx
  exact congrFun hv ⟨j, hlen ▸ hj⟩

end Expr

namespace Trajectory

variable {T : Trajectory} {ps : List (Var × Var)} {v : Var} {t : ℝ} {e : Expr}

/-! ### Values under dummies -/

/-- What stands for `v`. -/
def image (ps : List (Var × Var)) (v : Var) : Var := (ps.lookup v).getD v

/-- The values at one time, with those of the dummies in the place of what they stand for. -/
def under (T : Trajectory) (ps : List (Var × Var)) (t : ℝ) : Valuation ℝ :=
  { T.valuation t with var := fun v => T.var (image ps v) t }

theorem lookup_replacement (ps : List (Var × Var)) (v : Var) :
    (Lowered.replacement ps).lookup (.var v) = (ps.lookup v).map Expr.var := by
  induction ps with
  | nil => rfl
  | cons p ps ih =>
    have hbeq : (Symbol.var v == Symbol.var p.1) = (v == p.1) := by
      rw [Bool.eq_iff_iff, beq_iff_eq, beq_iff_eq, Symbol.var.injEq]
    change ((Symbol.var p.1, Expr.var p.2) :: Lowered.replacement ps).lookup _ = _
    rw [List.lookup_cons, List.lookup_cons, ih, hbeq]
    cases v == p.1 <;> rfl

theorem denotes_replaceSymbol (hps : ∀ p ∈ ps, p.1.order ≠ 0) (t : ℝ) (s : Symbol) :
    (Expr.replaceSymbol (Lowered.replacement ps) s).Denotes True (T.valuation t)
      ((T.under ps t).symbol s) := by
  have hvar : ∀ v, (T.under ps t).symbol (.var v) = T.var (image ps v) t := fun _ => rfl
  rcases Expr.replaceSymbol_cases (Lowered.replacement ps) s with
    ⟨e, he, heq⟩ | ⟨v, e, -, -, -, he, -⟩ | ⟨hnone, -, heq⟩
  · obtain ⟨p, -, rfl, -⟩ := Lowered.lookup_replacement he
    rw [lookup_replacement, Option.map_eq_some_iff] at he
    obtain ⟨w, hw, rfl⟩ := he
    rw [heq, hvar, image, hw]
    exact Expr.denotes_var w
  · obtain ⟨p, hp, hv, -⟩ := Lowered.lookup_replacement he
    exact absurd (congrArg Var.order (Symbol.var.inj hv).symm) (hps p hp)
  · rw [heq]
    cases s with
    | var v =>
      rw [lookup_replacement, Option.map_eq_none_iff] at hnone
      rw [hvar, image, hnone]
      exact Expr.denotes_var v
    | _ => exact Expr.denotes_sym _

/-- Putting in dummies gives the values under dummies. -/
theorem denotes_substitute (hps : ∀ p ∈ ps, p.1.order ≠ 0)
    (he : e.Regular True (T.under ps t)) :
    (e.substitute (Lowered.replacement ps)).Denotes True (T.valuation t)
      (e.eval (T.under ps t)) :=
  Expr.denotes_substitute he fun s _ => denotes_replaceSymbol hps t s

end Trajectory

/-! ### Equations under dummies -/

namespace DummySystem

open Differentiation DummyLevel

section Under

variable {known : List Var} {es : List Expr} {d : Differentiation} {ρ : Valuation ℝ}
  {i e h k n z : Nat} (hd : d.Finished known es)

include hd

end Under

/-! ### Gaps -/

section Gaps

variable {known : List Var} {es : List Expr} {d : Differentiation} {ctx : DummyContext}
  {taken : List String} {ys : List DummyBlock} {x : DummySystem} {T : Trajectory}
  {block : List Nat} {p n z w : Nat} {step : List (Nat × Nat) × DummyLevel}

/-- Along the trajectory the equations of all levels hold when the dummies stand in them, and the
Jacobians by which the dummies were chosen are nonsingular. -/
structure Solved (T : Trajectory) (es : List Expr) (d : Differentiation) (ctx : DummyContext)
    (ys : List DummyBlock) (x : DummySystem) : Prop where
  regular : ∀ t ∈ T.domain, ∀ e ∈ es, e.Regular True (T.under x.dummies t)
  holds : ∀ i ∈ ys.flatMap equationsOf, ∀ t ∈ T.domain,
    (d.exprs.getD i .zero).eval (T.under x.dummies t) = 0
  nonsingular : ∀ block ∈ d.blocks, ∀ step ∈ stepsOf d ctx block, ∀ t ∈ T.domain,
    Expr.Nonsingular step.2.jacobian (T.under x.dummies t)

variable (hx : Chosen d ctx known taken ys x) (hd : d.Finished known es)
  (hT : Solved T es d ctx ys x)

include hx hd

include hT

end Gaps

end DummySystem

end Flange

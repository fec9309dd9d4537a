import Flange.Proofs.Reduction.SemiExplicit
import Flange.Proofs.Solution.Alias
import Flange.Proofs.Solution.Lowering

/-! # Solutions and semi-explicit form

Along a trajectory on which the blocks can be solved, the equations hold exactly when what was
solved for has the values of its solutions and the constraints hold.
-/

namespace Flange

namespace Expr

/-- The value of the linear form of `e` in the variables. -/
noncomputable def linearForm (e : Expr) (vs : List Var) (ρ : Valuation ℝ) : ℝ :=
  (vs.map fun v => (e.partialDerivative (.var v)).eval ρ * ρ.var v).sum +
    (e.substitute (zeros vs)).eval ρ

/-- The expressions are defined at `ρ`, and together they are the only zero of the linear forms; with
`smooth` they meet no kink. -/
structure ExactAt (smooth : Prop) (es : List Expr) (vs : List Var) (sols : List Expr)
    (ρ : Valuation ℝ) : Prop where
  regular : ∀ sol ∈ sols, sol.Regular smooth ρ
  unique : (∀ e ∈ es, e.linearForm vs ρ = 0) ↔
    List.Forall₂ (fun v sol => ρ.var v = sol.eval ρ) vs sols

end Expr

namespace SemiExplicit

variable {T : Trajectory} {es : List Expr} {vs : List Var} {sols : List Expr} {solveBlocks : Bool}
  {p : Progress} {m : Matching Var}

/-- At `ρ` the block can be solved, if it is solved: a single equation is linear with a coefficient
that does not vanish; several are linear, and their solution is exact. -/
def BlockSolvableAt (smooth : Prop) (ρ : Valuation ℝ) (solveBlocks : Bool) :
    List Expr → List Var → Prop
  | [e], [v] => (e.solveLinear? (.var v)).isSome →
    e.LinearAt smooth [v] ρ ∧ (e.partialDerivative (.var v)).eval ρ ≠ 0
  | es, vs => solveBlocks = true → Expr.jointlyLinear es (vs.map .var) = true →
    ∀ sols, Expr.solveBlock? es (vs.map .var) = some sols →
      (∀ e ∈ es, e.LinearAt smooth vs ρ) ∧ Expr.ExactAt smooth es vs sols ρ

/-- Along the trajectory the block can be solved, if it is solved. -/
def BlockSolvable (T : Trajectory) (solveBlocks : Bool) (es : List Expr) (vs : List Var) : Prop :=
  ∀ t ∈ T.domain, BlockSolvableAt True (T.valuation t) solveBlocks es vs

theorem blockSolvable_single {e : Expr} {v : Var} :
    BlockSolvable T solveBlocks [e] [v] ↔ ((e.solveLinear? (.var v)).isSome → T.Solvable e [v]) := by
  simp only [BlockSolvable, BlockSolvableAt, Trajectory.Solvable, List.forall_mem_singleton]
  exact ⟨fun h hsome t ht => h t ht hsome, fun h t ht hsome => h hsome t ht⟩

theorem Solves.iff_at {smooth : Prop} {ρ : Valuation ℝ} (h : Solves solveBlocks es vs sols)
    (hb : BlockSolvableAt smooth ρ solveBlocks es vs) : (∀ sol ∈ sols, sol.Regular smooth ρ) ∧
      ((∀ e ∈ es, e.eval ρ = 0) ↔ List.Forall₂ (fun v sol => ρ.var v = sol.eval ρ) vs sols) := by
  cases h with
  | @single e sol v h =>
    obtain ⟨hlin, hc⟩ := hb (Option.isSome_of_eq_some h)
    obtain ⟨hreg, hiff⟩ := Expr.solveLinear_iff h hlin hc
    exact ⟨by simpa using hreg, by simpa using hiff⟩
  | joint hflag hsingle hlin h =>
    unfold BlockSolvableAt at hb
    split at hb
    · exact absurd rfl (hsingle _ _ rfl)
    · obtain ⟨hlinear, hexact⟩ := hb hflag hlin sols h
      refine ⟨hexact.regular, Iff.trans ?_ hexact.unique⟩
      exact forall₂_congr fun e he => by rw [(hlinear e he).eval_eq, Expr.linearForm]

theorem Solves.iff (h : Solves solveBlocks es vs sols) (hb : BlockSolvable T solveBlocks es vs)
    {t : ℝ} (ht : t ∈ T.domain) : (∀ sol ∈ sols, sol.Regular True (T.valuation t)) ∧
      ((∀ e ∈ es, e.eval (T.valuation t) = 0) ↔
        List.Forall₂ (fun v sol => T.var v t = sol.eval (T.valuation t)) vs sols) :=
  h.iff_at (hb t ht)

/-- The blocks as they come up for solution, and what they are solved for. -/
def blocksFrom (solveBlocks : Bool) (es : List Expr) (m : Matching Var) :
    Progress → List (List Nat) → List (List Expr × List Var)
  | _, [] => []
  | p, b :: bs =>
    let block := b.filterMap fun i => es[i]?
    let vs := b.filterMap m.matched?
    (block.map (Expr.substitute p.replacement), vs) ::
      blocksFrom solveBlocks es m (p.addBlock solveBlocks block vs) bs

/-! ### Progress -/

namespace Progress

/-- What has been solved for has the values of its solutions. -/
def Solved (T : Trajectory) (p : Progress) : Prop := ∀ q ∈ p.solved, T.Reads q.2 (T.var q.1)

theorem Solved.respects (h : p.Solved T) : T.Respects p.replacement :=
  List.forall_mem_map.mpr h

/-- What has been solved for has the values of its solutions, and the constraints hold. -/
structure Holds (T : Trajectory) (p : Progress) : Prop where
  solved : p.Solved T
  constraints : ∀ g ∈ p.constraints, T.Solves g

theorem Holds.addBlock (h : p.Holds T) (hes : ∀ e ∈ es, T.Solves e)
    (hb : BlockSolvable T solveBlocks (es.map (Expr.substitute p.replacement)) vs) :
    (p.addBlock solveBlocks es vs).Holds T := by
  have hsub : ∀ e ∈ es.map (Expr.substitute p.replacement), T.Solves e :=
    List.forall_mem_map.mpr fun e he => (hes e he).substitute h.solved.respects
  rcases addBlock_cases p solveBlocks es vs with ⟨sols, hsols, heq⟩ | heq
  · rw [heq]
    refine ⟨fun q hq => ?_, h.constraints⟩
    rcases List.mem_append.mp hq with hq | hq
    · exact h.solved q hq
    · intro t ht
      obtain ⟨hreg, hiff⟩ := hsols.iff hb ht
      have hvalues := hiff.mp fun e he => (hsub e he t ht).eval
      exact ⟨hreg _ (List.of_mem_zip hq).2, (List.forall₂_zip hvalues hq).symm⟩
  · rw [heq]
    refine ⟨h.solved, fun g hg => ?_⟩
    exact (List.mem_append.mp hg).elim (h.constraints g) (hsub g)

theorem Holds.blocks (hes : ∀ e ∈ es, T.Solves e) : ∀ {bs : List (List Nat)} {p : Progress},
    p.Holds T → (∀ b ∈ blocksFrom solveBlocks es m p bs, BlockSolvable T solveBlocks b.1 b.2) →
      (bs.foldl (fun p b => p.addBlock solveBlocks (b.filterMap fun i => es[i]?)
        (b.filterMap m.matched?)) p).Holds T
  | [], _, h, _ => h
  | b :: bs, p, h, hb => by
    rw [blocksFrom, List.forall_mem_cons] at hb
    have hblock : ∀ e ∈ b.filterMap fun i => es[i]?, T.Solves e := fun e he => by
      obtain ⟨i, -, hi⟩ := List.mem_filterMap.mp he
      exact hes e (List.mem_of_getElem? hi)
    have hstep : (p.addBlock solveBlocks (b.filterMap fun i => es[i]?)
        (b.filterMap m.matched?)).Holds T := h.addBlock hblock hb.1
    rw [List.foldl_cons]
    exact Holds.blocks hes hstep hb.2

end Progress

/-! ### What is kept -/

/-- A kept derivative has the values of the variable it is renamed to. -/
def Reading (T : Trajectory) (retained : List Var) : Prop :=
  ∀ v ∈ retained, v.isDerivative = true → T.Same v (renamed v)

theorem Reading.respects {retained : List Var} (h : Reading T retained) :
    T.Respects (renames retained) := by
  refine List.forall_mem_map.mpr fun v hv t ht => ?_
  obtain ⟨hv, hd⟩ := List.mem_filter.mp hv
  exact (Expr.denotes_var _).congr (h v hv hd t ht).symm

end SemiExplicit

end Flange

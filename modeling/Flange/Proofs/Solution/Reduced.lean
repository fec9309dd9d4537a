import Flange.Proofs.Reduction.Stages
import Flange.Proofs.Solution.SemiExplicit

/-! # Solutions of reduced systems

A reduced system is solved by a trajectory on which the states change at their rates, the
constraints hold and what is observed has its values.
-/

namespace Flange

def EquationSystem.SolvedBy (T : Trajectory) (s : EquationSystem) : Prop :=
  ∀ e ∈ s.exprs, T.Solves e

structure ReducedSystem.SolvedBy (T : Trajectory) (r : ReducedSystem) : Prop where
  rates : ∀ p ∈ r.states.zip r.rates, T.Reads p.2 (T.var p.1.der)
  constraints : ∀ g ∈ r.constraints, T.Solves g
  observed : ∀ q ∈ r.observed, T.Reads q.2 (T.var q.1)

namespace SemiExplicit

variable {T : Trajectory} {known : List Var} {es : List Expr} {p : Progress} {observed : Observed}
  {s : EquationSystem} {strong weak : InitialValues} {x : Var} {f : Expr}

theorem mem_rates_ofSemiExplicit {y : SemiExplicit} {q : Var × Expr} :
    q ∈ (ReducedSystem.ofSemiExplicit y s strong weak).states.zip
      (ReducedSystem.ofSemiExplicit y s strong weak).rates ↔ q ∈ y.states.zip y.rates := by
  have hzip : ReducedSystem.sortedPairs (y.states.zip y.rates) =
      (ReducedSystem.ofSemiExplicit y s strong weak).states.zip
        (ReducedSystem.ofSemiExplicit y s strong weak).rates := List.zip_of_prod rfl rfl
  rw [← hzip, ReducedSystem.sortedPairs, mem_sortedByText]

theorem rate_ofProgress (st : Structure) :
    (ofProgress st observed p).states.zip (ofProgress st observed p).rates =
      st.states.map fun x => (x, rate p x) := by
  rw [List.map_prod_left_eq_zip]
  rfl

theorem der_mem_targets (h : FirstOrder known es) (hx : x ∈ (Structure.ofExprs known es).states) :
    x.der ∈ targets (.ofExprs known es) := by
  obtain ⟨w, hw, rfl⟩ := Structure.mem_states_ofExprs.mp hx
  rw [← Structure.eq_der_of_mem_derivatives h hw]
  exact List.mem_append_left _ hw

/-- What is observed and not a derivative has the values of its solution. -/
theorem Progress.Solved.solvedVars (h : p.Solved T) (hread : Reading T p.retained) :
    ∀ q ∈ solvedVars p, T.Reads q.2 (T.var q.1) := by
  intro q hq
  obtain ⟨r, hr, rfl⟩ := List.mem_map.mp (List.mem_of_mem_filter hq)
  exact (h r hr).substitute hread.respects

/-- Solutions of the blocks solve the reduced system. -/
theorem solvedBy_ofProgress (hp : Complete known es p) (h : p.Holds T)
    (hread : Reading T p.retained) (hobs : ∀ q ∈ observed, T.Reads q.2 (T.var q.1))
    (hders : ∀ x ∈ (Structure.ofExprs known es).states, x.der ∈ targets (.ofExprs known es)) :
    (ReducedSystem.ofSemiExplicit (ofProgress (.ofExprs known es) observed p) s strong
      weak).SolvedBy T where
  rates q hq := by
    rw [mem_rates_ofSemiExplicit, rate_ofProgress] at hq
    obtain ⟨x, hx, rfl⟩ := List.mem_map.mp hq
    dsimp only
    rcases hp.rate_cases (hders x hx) with ⟨r, hr, hv, heq⟩ | ⟨hkept, heq⟩
    · rw [heq, ← hv]
      exact (h.solved r hr).substitute hread.respects
    · rw [heq]
      have hd : x.der.isDerivative = true := by simp [Var.isDerivative]
      exact (Trajectory.reads_var _).congr fun t ht => (hread x.der hkept hd t ht).symm
  constraints g hg := by
    obtain ⟨f, hf, rfl⟩ := List.mem_map.mp hg
    exact (h.constraints f hf).substitute hread.respects
  observed q hq := by
    rw [ReducedSystem.mem_observed_ofSemiExplicit, observed_ofProgress] at hq
    have hsolved := h.solved.solvedVars hread
    rcases Observed.of_mem_foldl_set hq with hq | hq
    · exact hsolved q hq
    · obtain ⟨r, hr, rfl⟩ := List.mem_map.mp hq
      exact (hobs r hr).substitute (List.forall_mem_map.mpr hsolved)

end SemiExplicit

end Flange

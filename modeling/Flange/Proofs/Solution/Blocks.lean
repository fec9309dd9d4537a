import Flange.Proofs.Solution.Reduced

/-! # Equations hold where their solutions do

Along a trajectory on which the blocks can be solved, a smooth equation holds when what is solved
for has the values of its solutions and the constraints hold.
-/

namespace Flange

namespace SemiExplicit

variable {T : Trajectory} {es : List Expr} {vs : List Var} {sols : List Expr} {solveBlocks : Bool}
  {p : Progress} {m : Matching Var} {known : List Var}

theorem Solves.length_eq (h : Solves solveBlocks es vs sols) : sols.length = vs.length :=
  (h.within (P := fun _ => True) fun _ _ _ _ => Or.inl trivial).1

namespace Progress

/-- What is solved for has the values of its smooth solutions, and the smooth constraints hold. -/
structure Meets (T : Trajectory) (p : Progress) : Prop where
  solved : ∀ q ∈ p.solved, T.Smooth q.2 → T.Reads q.2 (T.var q.1)
  constraints : ∀ g ∈ p.constraints, T.Smooth g → T.Solves g

/-- The variables that are solved for and those that are kept. -/
def keys (p : Progress) : List Var := p.solved.map Prod.fst ++ p.retained

theorem keys_addBlock (p : Progress) (solveBlocks : Bool) (es : List Expr) (vs : List Var) :
    (p.addBlock solveBlocks es vs).keys.Perm (p.keys ++ vs) := by
  rcases addBlock_cases p solveBlocks es vs with ⟨sols, hsols, heq⟩ | heq
  · rw [heq, keys, keys, solve, List.map_append, List.map_fst_zip hsols.length_eq.ge,
      List.append_assoc, List.append_assoc]
    exact List.perm_append_comm.append_left _
  · rw [heq, keys, keys, keep, List.append_assoc]

theorem keys_blocks : ∀ (bs : List (List Nat)) (p : Progress),
    (bs.foldl (fun p b => p.addBlock solveBlocks (b.filterMap fun i => es[i]?)
      (b.filterMap m.matched?)) p).keys.Perm (p.keys ++ bs.flatten.filterMap m.matched?)
  | [], p => by simp
  | b :: bs, p => by
    rw [List.foldl_cons, List.flatten_cons, List.filterMap_append, ← List.append_assoc]
    exact (keys_blocks bs _).trans ((keys_addBlock p _ _ _).append_right _)

/-- No variable is solved for or kept twice. -/
theorem nodup_keys {adj : Adjacency Var} (hm : m.Valid adj) :
    (SemiExplicit.solveBlocks solveBlocks es adj m).keys.Nodup := by
  refine (keys_blocks (dependencies adj m).blocks {}).nodup_iff.mpr ?_
  exact List.Nodup.filterMap (fun i j v hi hj => hm.eq_of_matched hi hj)
    (Digraph.nodup_flatten_blocks (closed_dependencies hm))

end Progress

/-! ### Semi-explicit systems -/

variable {observed : Observed} {s : EquationSystem} {strong weak : InitialValues} {v x : Var}

theorem exists_state (hfirst : FirstOrder known es) (hv : v ∈ targets (.ofExprs known es))
    (hd : v.order ≠ 0) : ∃ x ∈ (Structure.ofExprs known es).states, v = x.der := by
  rcases List.mem_append.mp hv with hv | hv
  · exact ⟨v.base, Structure.mem_states_ofExprs.mpr ⟨v, hv, rfl⟩,
      Structure.eq_der_of_mem_derivatives hfirst hv⟩
  · exact absurd (Structure.order_of_mem_functions (List.mem_append_right _ hv)) hd

section Reduced

variable (h : (ReducedSystem.ofSemiExplicit (ofProgress (.ofExprs known es) observed p) s strong
  weak).SolvedBy T)

include h

variable (hp : Complete known es p) (hfirst : FirstOrder known es) (hkeys : p.keys.Nodup)

include hp hfirst hkeys

end Reduced

end SemiExplicit

end Flange

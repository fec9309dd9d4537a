import Flange.Proofs.Reduction.Rules

/-! # Solving the rules of a reduced system

When rates and constraints are solved once more, each rate is solved for the derivative of its state
and keeps its value, and constraints one of which bends are kept together.
-/

namespace Flange

namespace Expr

/-- Where `e` has a value, `e'` has the same. -/
def SameValue (e e' : Expr) : Prop :=
  ∀ (smooth : Prop) (ρ : Valuation ℝ) (x : ℝ), e.Denotes smooth ρ x → e'.Denotes smooth ρ x

/-- Where `e` has a value, `e'` has its negation. -/
def OppositeValue (e e' : Expr) : Prop :=
  ∀ (smooth : Prop) (ρ : Valuation ℝ) (x : ℝ), e.Denotes smooth ρ x → e'.Denotes smooth ρ (-x)

end Expr

open Flange.Expr

namespace SemiExplicit

variable {es : List Expr} {vs : List Var} {sols : List Expr} {solveBlocks : Bool} {e : Expr}
  {v : Var}

/-- Equations are solved for variables that do not occur in their coefficients. -/
theorem Solves.not_has (h : Solves solveBlocks es vs sols) (he : e ∈ es) (hv : v ∈ vs) :
    (e.partialDerivative (.var v)).has (.var v) = false := by
  cases h with
  | @single f sol w h =>
    obtain rfl := List.mem_singleton.mp he
    obtain rfl := List.mem_singleton.mp hv
    obtain ⟨c, hc, -⟩ := Option.map_eq_some_iff.mp h
    obtain ⟨rfl, -, hfree⟩ := linearCoeff_eq_some.mp hc
    exact hfree
  | joint _ _ hlin _ =>
    have hlin := List.all_eq_true.mp (List.all_eq_true.mp hlin e he) _
      (List.mem_map_of_mem (f := Symbol.var) hv)
    simp only [Bool.not_eq_true', List.any_eq_false] at hlin
    simpa using hlin _ (List.mem_map_of_mem hv)

theorem Progress.replaceSymbol_of_unsolved {p : Progress} {u : Symbol}
    (hkeys : ∀ q ∈ p.solved, q.1.order ≠ 0)
    (hu : ∀ v, u = .var v → v ∉ p.solved.map Prod.fst) :
    replaceSymbol p.replacement u = sym u := by
  rcases replaceSymbol_cases p.replacement u with
    ⟨e, he, -⟩ | ⟨v, e, rfl, -, -, he, -⟩ | ⟨-, -, h⟩
  · obtain ⟨v, rfl, hv⟩ := lookup_replacement he
    exact absurd (List.mem_map_of_mem hv) (hu v rfl)
  · obtain ⟨w, hw, hmem⟩ := lookup_replacement he
    obtain rfl := Symbol.var.inj hw
    exact absurd (Var.order_base v) (hkeys _ hmem)
  · exact h

end SemiExplicit

open SemiExplicit

/-- What the rules `done` have come to: rates are solved for, and constraints are kept. -/
structure Restored (qs : List Rule) (done : List Nat) (p : Progress) : Prop where
  solved : ∀ q ∈ p.solved, ∃ i ∈ done, ∃ x f, qs[i]? = some (.rate x f) ∧ q.1 = x.der ∧
    SameValue f q.2 ∧ q.2.Within (Symbol.Only fun v => v.order = 0)
  constraints : List.Forall₂
    (fun g g' => OppositeValue g g' ∧ g'.Within (Symbol.Only fun v => v.order = 0))
    (done.filterMap fun i => (qs[i]?).bind Rule.constraint?) p.constraints
  retained : ∀ v ∈ p.retained, v.order = 0

namespace Rule

theorem sameValue_rate {x : Var} {f : Expr} {smooth : Prop} {ρ : Valuation ℝ} {y : ℝ}
    (h : f.Denotes smooth ρ y) : (rate x f).residual.Denotes smooth ρ (ρ.var x.der - y) :=
  denotes_sub (denotes_var _) h

theorem oppositeValue_constraint (g : Expr) : OppositeValue g (constraint g).residual :=
  fun _ _ _ h => (denotes_sub denotes_zero h).congr (zero_sub _)

end Rule

namespace Rules

variable {known states algebraic : List Var} {qs : List Rule} {q : Rule} {x v : Var} {f g : Expr}
  {i j : Nat} {done b : List Nat} {p : Progress} {solveBlocks : Bool}

section Step

variable (h : Rules known states algebraic qs) (hr : Restored qs done p)

include h

/-- Kept constraints are those of the block, with their signs changed. -/
theorem forall₂_block {σ : Replacement} : ∀ {b : List Nat}, (∀ i ∈ b, ∃ g,
    qs[i]? = some (.constraint g) ∧ (Rule.constraint g).residual.Untouched σ) →
      List.Forall₂ (fun g g' => OppositeValue g g' ∧ g'.Within (Symbol.Only fun v => v.order = 0))
        (b.filterMap fun i => (qs[i]?).bind Rule.constraint?)
        ((b.filterMap fun i => (qs.map Rule.residual)[i]?).map (Expr.substitute σ))
  | [], _ => .nil
  | i :: b, hb => by
    obtain ⟨⟨g, hg, huntouched⟩, hb⟩ := List.forall_mem_cons.mp hb
    have hleft : (qs[i]?).bind Rule.constraint? = some g := by simp [hg, Rule.constraint?]
    have hright : (qs.map Rule.residual)[i]? = some (Rule.constraint g).residual := by simp [hg]
    rw [List.filterMap_cons_some (f := fun i => (qs[i]?).bind Rule.constraint?) hleft,
      List.filterMap_cons_some (f := fun i => (qs.map Rule.residual)[i]?) hright, List.map_cons]
    refine .cons ⟨fun smooth ρ x hx => ?_, huntouched.within ?_⟩ (forall₂_block hb)
    · exact huntouched.denotes (Rule.oppositeValue_constraint g smooth ρ x hx)
    · refine within_sub within_zero ((h.constraint (List.mem_of_getElem? hg)).mono fun u hu => ?_)
      exact hu.imp fun _ hv => hv.1

include hr

/-- What has been solved for is in no other rule. -/
theorem untouched (hi : qs[i]? = some q) (hnew : i ∉ done) :
    q.residual.Untouched p.replacement := by
  intro u hu
  refine Progress.replaceSymbol_of_unsolved (fun r hs => ?_) fun v hv hkey => ?_
  · obtain ⟨-, -, x, -, -, hx, -⟩ := hr.solved r hs
    simp [hx]
  · subst hv
    obtain ⟨r, hs, rfl⟩ := List.mem_map.mp hkey
    obtain ⟨j, hj, x, f, hq, hx, -⟩ := hr.solved r hs
    rw [hx] at hu
    exact hnew (h.eq_of_der_mem hq hi (mem_vars.mpr hu) ▸ hj)

/-- A rate is solved for the derivative of its state. -/
theorem restored_rate (solveBlocks : Bool) (hi : qs[i]? = some (.rate x f)) (hnew : i ∉ done) :
    Restored qs (done ++ [i])
      (p.addBlock solveBlocks [(Rule.rate x f).residual] [x.der]) := by
  have hmem := List.mem_of_getElem? hi
  have huntouched := h.untouched hr hi hnew
  have hsolve := (huntouched.isolates (h.isolates hmem)).solveLinear?
  generalize hsub : (Rule.rate x f).residual.substitute p.replacement = e at hsolve
  have hadd : p.addBlock solveBlocks [(Rule.rate x f).residual] [x.der] =
      p.solve [x.der] [-(e.substitute [(.var x.der, zero)]) / one] := by
    simp [Progress.addBlock, hsub, hsolve]
  rw [hadd]
  constructor
  · intro r hs
    rcases List.mem_append.mp hs with hs | hs
    · obtain ⟨j, hj, hrest⟩ := hr.solved r hs
      exact ⟨j, List.mem_append_left _ hj, hrest⟩
    · obtain rfl := List.mem_singleton.mp hs
      refine ⟨i, by simp, x, f, hi, rfl, fun smooth ρ y hy => ?_, ?_⟩
      · refine Isolates.denotes_solution (by simp) (h.free_rate hmem) (fun ρ z hz => ?_) hy
        exact hsub ▸ huntouched.denotes (Rule.sameValue_rate hz)
      · refine within_solveLinear hsolve (hsub ▸ huntouched.within ?_)
        refine (h.within_residual hmem).mono fun u hu => ?_
        cases u with
        | var v =>
          rcases hu with ⟨ho, -⟩ | ⟨y, g, heq, rfl⟩
          · exact Or.inl ho
          · obtain ⟨rfl, rfl⟩ := Rule.rate.inj heq
            exact Or.inr ⟨x.der, List.mem_singleton_self _, Or.inl rfl⟩
        | _ => exact Or.inl trivial
  · simpa [Progress.solve, hi, Rule.constraint?] using hr.constraints
  · exact hr.retained

variable {m : Matching Var} (hm : SemiExplicit.Paired known (qs.map Rule.residual) m)

include hm

/-- Constraints one of which bends in the variable of one are kept. -/
theorem restored_constraints (hb : ∀ i ∈ b, ∃ g, qs[i]? = some (.constraint g))
    (hbends : ∃ i ∈ b, ∃ j ∈ b, ∃ g z,
      qs[i]? = some (.constraint g) ∧ m.matched? j = some z ∧ g.Bends z)
    (hnew : ∀ i ∈ b, i ∉ done) :
    Restored qs (done ++ b) (p.addBlock solveBlocks
      (b.filterMap fun i => (qs.map Rule.residual)[i]?) (b.filterMap m.matched?)) := by
  rcases Progress.addBlock_cases p solveBlocks (b.filterMap fun i => (qs.map Rule.residual)[i]?)
    (b.filterMap m.matched?) with ⟨sols, hsols, -⟩ | heq
  · exfalso
    obtain ⟨i, hi, j, hj, g, z, hg, hz, hgz⟩ := hbends
    have huntouched := h.untouched hr hg (hnew i hi)
    have hhas := hgz.has (neg_ne_zero.mpr one_ne_zero) fun ρ hreg => (huntouched.denotes
      (Rule.oppositeValue_constraint g _ _ _ hreg.denotes)).congr (neg_one_mul _).symm
    have hmem : (Rule.constraint g).residual ∈ b.filterMap fun i => (qs.map Rule.residual)[i]? :=
      List.mem_filterMap.mpr ⟨i, hi, by simp [hg]⟩
    rw [hsols.not_has (List.mem_map_of_mem hmem) (List.mem_filterMap.mpr ⟨j, hj, hz⟩)] at hhas
    exact Bool.false_ne_true hhas
  · rw [heq]
    constructor
    · intro r hs
      obtain ⟨j, hj, hrest⟩ := hr.solved r hs
      exact ⟨j, List.mem_append_left _ hj, hrest⟩
    · rw [List.filterMap_append]
      refine List.rel_append hr.constraints (h.forall₂_block fun i hi => ?_)
      obtain ⟨g, hg⟩ := hb i hi
      exact ⟨g, hg, h.untouched hr hg (hnew i hi)⟩
    · intro v hv
      rcases List.mem_append.mp hv with hv | hv
      · exact hr.retained v hv
      · obtain ⟨i, hi, hmatched⟩ := List.mem_filterMap.mp hv
        obtain ⟨g, hg⟩ := hb i hi
        obtain ⟨z, hz, hz'⟩ := h.matched_constraint hm hg
        obtain rfl := Option.some.inj (hmatched.symm.trans hz')
        exact h.order_unknown v (List.mem_append_right _ hz.1)

omit hr

theorem restored_blocks : ∀ {bs : List (List Nat)} {done : List Nat} {p : Progress},
    Restored qs done p → (done ++ bs.flatten).Nodup →
      (∀ b ∈ bs, b ∈ (Rule.graph known qs m).blocks) → Restored qs (done ++ bs.flatten)
        (bs.foldl (fun p b => p.addBlock solveBlocks
          (b.filterMap fun i => (qs.map Rule.residual)[i]?) (b.filterMap m.matched?)) p)
  | [], done, p, hr, _, _ => by simpa using hr
  | b :: bs, done, p, hr, hnodup, hbs => by
    obtain ⟨hb, hbs⟩ := List.forall_mem_cons.mp hbs
    rw [List.flatten_cons, ← List.append_assoc] at hnodup ⊢
    have hnew : ∀ i ∈ b, i ∉ done := fun i hi hd =>
      (List.nodup_append.mp (List.nodup_append.mp hnodup).1).2.2 i hd i hi rfl
    refine restored_blocks ?_ hnodup hbs
    rcases h.block_cases hm hb with ⟨i, x, f, rfl, hi⟩ | hcon
    · have hblock := h.restored_rate hr solveBlocks hi (hnew i (by simp))
      simpa [hi, h.matched_rate hm hi] using hblock
    · exact h.restored_constraints hr hm hcon (h.bends_in_block hm hb hcon) hnew

theorem restored_solveBlocks (solveBlocks : Bool) : Restored qs (Rule.graph known qs m).blocks.flatten
    (SemiExplicit.solveBlocks solveBlocks (qs.map Rule.residual)
      (candidates (.ofExprs known (qs.map Rule.residual))) m) := by
  have hstart : Restored qs [] {} := ⟨by simp, .nil, by simp⟩
  have hg : (Rule.graph known qs m).Closed := closed_dependencies hm.valid
  exact h.restored_blocks hm hstart (Digraph.nodup_flatten_blocks hg) fun b hb => hb

end Step

/-! ### The semi-explicit form -/

section Outcome

variable (h : Rules known states algebraic qs)
  (hp : Complete known (qs.map Rule.residual) p) (hr : Restored qs done p)

include hr

theorem renames_eq_nil : renames p.retained = [] := by
  refine List.map_eq_nil_iff.mpr (List.filter_eq_nil_iff.mpr fun v hv => ?_)
  simp [Var.isDerivative, hr.retained v hv]

theorem solvedVars_eq_nil : solvedVars p = [] := by
  refine List.filter_eq_nil_iff.mpr fun q hq => ?_
  obtain ⟨r, hs, rfl⟩ := List.mem_map.mp hq
  obtain ⟨-, -, x, -, -, hx, -⟩ := hr.solved r hs
  simp [hx, Var.isDerivative]

theorem observed_ofProgress {observed : Observed} {s : Structure} :
    (ofProgress s observed p).observed = observed := by
  rw [SemiExplicit.observed_ofProgress, solvedVars_eq_nil hr]
  exact List.map_id observed

theorem constraints_ofProgress {observed : Observed} {s : Structure} :
    (ofProgress s observed p).constraints = p.constraints := by
  change p.constraints.map (Expr.substitute (renames p.retained)) = _
  rw [renames_eq_nil hr]
  exact List.map_id p.constraints

theorem algebraic_ofProgress {observed : Observed} {s : Structure} :
    (ofProgress s observed p).algebraic = p.retained := by
  change p.retained.map renamed = _
  rw [List.map_congr_left fun v hv => renamed_of_order (hr.retained v hv)]
  exact List.map_id p.retained

include h hp

/-- The rates have the values that they had. -/
theorem rate_ofProgress (hx : .rate x f ∈ qs) :
    SameValue f (SemiExplicit.rate p x) ∧
      (SemiExplicit.rate p x).Within (Symbol.Only fun v => v.order = 0) := by
  have htarget : x.der ∈ targets (.ofExprs known (qs.map Rule.residual)) :=
    List.mem_append_left _ (h.mem_derivatives.mpr ⟨x, (h.rate hx).1, rfl⟩)
  rcases hp.rate_cases htarget with ⟨q, hq, hqx, heq⟩ | ⟨hkept, -⟩
  · obtain ⟨i, -, y, f', hi, hy, hvalue, hwithin⟩ := hr.solved q hq
    obtain rfl := Var.der_injective (hqx.symm.trans hy)
    obtain ⟨j, hj⟩ := List.mem_iff_getElem?.mp hx
    obtain rfl := h.rate_unique hi hj
    obtain ⟨-, rfl⟩ := Rule.rate.inj (Option.some.inj (hi.symm.trans hj))
    rw [renames_eq_nil hr] at heq
    exact heq ▸ ⟨hvalue, hwithin⟩
  · simpa using hr.retained _ hkept

theorem retained_perm (hkeys : p.keys.Nodup) : p.retained.Perm algebraic := by
  refine (List.perm_ext_iff_of_nodup (List.nodup_append.mp hkeys).2.1
    (List.nodup_append.mp h.nodup).2.1).mpr fun v => ?_
  constructor
  · intro hv
    rcases List.mem_append.mp (hp.covers.mp (Or.inr hv)) with hd | ha
    · obtain ⟨x, -, rfl⟩ := h.mem_derivatives.mp hd
      simpa using hr.retained _ hv
    · exact h.mem_algebraic.mp ha
  · intro hv
    have htarget : v ∈ targets (.ofExprs known (qs.map Rule.residual)) :=
      List.mem_append_right _ (h.mem_algebraic.mpr hv)
    refine (hp.covers.mpr htarget).resolve_left fun hs => ?_
    obtain ⟨q, hq, rfl⟩ := List.mem_map.mp hs
    obtain ⟨-, -, x, -, -, hx, -⟩ := hr.solved q hq
    have ho := h.order_unknown q.1 (List.mem_append_right _ hv)
    simp [hx] at ho

/-- No derivative is left. -/
theorem leftover_eq_nil {observed : Observed}
    (hobs : ∀ q ∈ observed, q.2.Within (Symbol.Only fun v => v.order = 0)) :
    (ofProgress (.ofExprs known (qs.map Rule.residual)) observed p).leftover = [] := by
  refine List.eq_nil_iff_forall_not_mem.mpr fun v hv => ?_
  obtain ⟨e, he, hv, ho⟩ := mem_leftover.mp hv
  refine ho ?_
  rcases List.mem_append.mp he with he | he
  · rcases List.mem_append.mp he with he | he
    · rw [rates_ofProgress] at he
      obtain ⟨x, hx, rfl⟩ := List.mem_map.mp he
      obtain ⟨q, hq, hqx⟩ := h.exists_gives
        (List.mem_append_left _ (List.mem_map_of_mem (h.mem_states.mp hx)))
      cases q with
      | rate y f =>
        obtain rfl := Var.der_injective hqx
        exact (h.rate_ofProgress hp hr hq).2 _ (mem_vars.mp hv)
      | constraint g => simpa using h.order_unknown _ (List.mem_append_right _ hqx.1)
    · rw [constraints_ofProgress hr] at he
      obtain ⟨g, -, -, hwithin⟩ := exists_of_forall₂ hr.constraints.flip e he
      exact hwithin _ (mem_vars.mp hv)
  · rw [observed_ofProgress hr] at he
    obtain ⟨q, hq, rfl⟩ := List.mem_map.mp he
    exact hobs q hq _ (mem_vars.mp hv)

end Outcome

/-- The rules are solved: each rate has its value, and the constraints are kept. -/
theorem semiExplicit (h : Rules known states algebraic qs) (solveBlocks : Bool) {observed : Observed}
    (hobs : ∀ q ∈ observed, q.2.Within (Symbol.Only fun v => v.order = 0)) :
    ∃ y, (Structure.ofExprs known (qs.map Rule.residual)).semiExplicit (qs.map Rule.residual)
      observed solveBlocks = .ok y ∧ y.observed = observed ∧ y.algebraic.Perm algebraic ∧
      y.states = (Structure.ofExprs known (qs.map Rule.residual)).states ∧
      (∃ rate, y.rates = y.states.map rate ∧ ∀ x f, .rate x f ∈ qs → SameValue f (rate x)) ∧
      ∃ gs, gs.Perm (qs.filterMap Rule.constraint?) ∧
        List.Forall₂ OppositeValue gs y.constraints := by
  have hexplicit := h.explicit
  have hcount := hexplicit.length_targets h.firstOrder
  have hm : Paired known (qs.map Rule.residual) (matching (qs.map Rule.residual)
      (candidates (.ofExprs known (qs.map Rule.residual)))) :=
    paired (matching_valid (length_candidates known _).symm) hexplicit.not_size_lt
      (by simpa [targets] using hcount)
  have hp : Complete known (qs.map Rule.residual) (SemiExplicit.solveBlocks solveBlocks
    (qs.map Rule.residual) _ _) := hm.complete h.order_known
  have hr := h.restored_solveBlocks hm solveBlocks
  generalize hprogress : SemiExplicit.solveBlocks solveBlocks (qs.map Rule.residual)
    (candidates (.ofExprs known (qs.map Rule.residual))) (matching (qs.map Rule.residual)
      (candidates (.ofExprs known (qs.map Rule.residual)))) = p at hp hr
  have hkeys : p.keys.Nodup := hprogress ▸ Progress.nodup_keys hm.valid
  have hg : (Rule.graph known qs _).Closed := closed_dependencies hm.valid
  have hconstraints : ∃ gs : List Expr, gs.Perm (qs.filterMap Rule.constraint?) ∧
      List.Forall₂ OppositeValue gs p.constraints := by
    refine ⟨_, ?_, hr.constraints.imp fun _ _ hc => hc.1⟩
    have hperm : (Rule.graph known qs _).blocks.flatten.Perm (List.range qs.length) :=
      (List.perm_ext_iff_of_nodup (Digraph.nodup_flatten_blocks hg) List.nodup_range).mpr fun i => by
        rw [Digraph.mem_flatten_blocks hg]
        simp [dependencies, length_candidates]
    exact filterMap_range_getElem? Rule.constraint? qs ▸ hperm.filterMap _
  refine ⟨ofProgress (.ofExprs known (qs.map Rule.residual)) observed p, ?_,
    observed_ofProgress hr, algebraic_ofProgress hr ▸ h.retained_perm hp hr hkeys, rfl,
    ⟨SemiExplicit.rate p, rates_ofProgress _ _ _, fun x f hx => (h.rate_ofProgress hp hr hx).1⟩,
    constraints_ofProgress hr ▸ hconstraints⟩
  unfold Structure.semiExplicit
  dsimp only
  rw [if_neg hexplicit.not_size_lt, hprogress, h.leftover_eq_nil hp hr hobs]
  rfl

end Rules

end Flange

import Flange.Proofs.Reduction.Alias
import Flange.Proofs.Reduction.Minimality
import Flange.Proofs.Reduction.Stages

/-! # Systems that need no differentiation

Where no equation makes an unknown equal to another one, and the equations can be matched to their
highest derivatives as they are, the stages before the last one change nothing but the order of the
equations.
-/

namespace Flange

/-! ### Aliases -/

namespace AliasContext

variable {ctx : AliasContext} {unknowns differentiated : List Var} {e : Expr} {v : Var}

theorem match?_of_hasDerivative (h : e.hasDerivative = true) :
    ctx.match? unknowns differentiated e = none := if_pos h

/-- An equation that is not linear in one of its unknowns makes nothing equal to it. -/
theorem match?_of_linearCoeff? (hv : v ∈ unknowns) (he : v ∈ e.functions)
    (h : e.linearCoeff? (.var v) = none) : ctx.match? unknowns differentiated e = none := by
  have hmem := mem_unknownsIn.mpr ⟨he, hv⟩
  unfold match?
  split
  · rfl
  · split
    · next w heq =>
      obtain rfl : v = w := by simpa [heq] using hmem
      simp [matchConstant, h]
    · next w u heq =>
      obtain rfl | rfl : v = w ∨ v = u := by simpa [heq] using hmem
      · simp [matchPair, h]
      · simp [matchPair, h]
    · rfl

theorem match?_of_length (h : 2 < (EquationSystem.unknownsIn unknowns e).length) :
    ctx.match? unknowns differentiated e = none := by
  unfold match?
  split
  · rfl
  · split
    · next heq => simp [heq] at h
    · next heq => simp [heq] at h
    · rfl

theorem action?_of_match? (hv : v ∈ unknowns) (he : v ∈ e.functions)
    (h : ctx.match? unknowns differentiated e = none) :
    ctx.action? unknowns differentiated e = .ok none := by
  have hne : (EquationSystem.unknownsIn unknowns e).isEmpty = false :=
    List.isEmpty_eq_false_iff.mpr (List.ne_nil_of_mem (mem_unknownsIn.mpr ⟨he, hv⟩))
  simp [action?, hne, h]

theorem scan_of_action? : ∀ {es : List Expr} {i : Nat},
    (∀ e ∈ es, ctx.action? unknowns differentiated e = .ok none) →
      ctx.scan unknowns differentiated es i = .ok none
  | [], _, _ => rfl
  | e :: es, i, h => by
    obtain ⟨he, hes⟩ := List.forall_mem_cons.mp h
    rw [scan, he]
    exact scan_of_action? hes

end AliasContext

theorem Aliases.run_of_scan {ctx : AliasContext} {a : Aliases}
    (h : ctx.scan a.unknowns a.differentiated a.exprs 0 = .ok none) : run ctx a = .ok a := by
  rw [run, steps, step, h]

/-! ### First-order form -/

theorem lowerOrder_of_firstOrder {known : List Var} {taken : List String} {es : List Expr}
    (hk : ∀ v ∈ known, v.order = 0) (h : FirstOrder known es) :
    lowerOrder known taken es = ⟨es, [], []⟩ := by
  have hnone : Lowered.highestOrders known es = [] := by
    refine List.eq_nil_iff_forall_not_mem.mpr fun p hp => ?_
    simp only [Lowered.highestOrders, List.mem_map, mem_sortVars, List.mem_filter,
      List.mem_flatMap] at hp
    obtain ⟨-, ⟨d, ⟨⟨e, he, hd⟩, hhigh⟩, -⟩, -⟩ := hp
    simp only [Bool.and_eq_true, decide_eq_true_eq, Bool.not_eq_true', List.contains_eq_mem,
      decide_eq_false_iff_not] at hhigh
    have hone := h e he d (Structure.mem_unknownDerivatives.mpr
      ⟨List.mem_of_mem_filter hd, by omega, fun hkd => by have := hk d hkd; omega, hhigh.2⟩)
    omega
  rw [lowerOrder, hnone]

/-! ### Equations with a variable each -/

namespace Structure

open SemiExplicit

variable {known : List Var} {es : List Expr} {v w : Var}

/-- The equations can be matched to the variables that they are solved for. -/
def Explicit (s : Structure) : Prop := PerfectMatching (candidates s) (targets s)

theorem order_of_mem_algebraic (hv : v ∈ (ofExprs known es).algebraic) : v.order = 0 :=
  order_of_mem_functions (List.mem_append_right _ hv)

/-- What the equations are solved for are the highest derivatives of their functions. -/
theorem order_le_of_mem_targets (hfirst : FirstOrder known es)
    (hv : v ∈ targets (.ofExprs known es)) (hw : w ∈ (ofExprs known es).all)
    (hname : w.name = v.name) : w.order ≤ v.order := by
  have h := ofFirstOrder_ofExprs hfirst
  rcases List.mem_append.mp hv with hv | hv
  · have hone : v.order = 1 := by
      rw [eq_der_of_mem_derivatives hfirst hv, Var.order_der, Var.order_base]
    rcases h.eq_base_or hw with hw | ⟨-, hw⟩
    · rw [hw, Var.order_base]
      exact Nat.zero_le _
    · rw [hw, hone, Var.order_der, Var.order_base]
  · have hall : v ∈ (ofExprs known es).all := h.mem_all.mpr (Or.inr (Or.inr hv))
    by_cases hne : w = v
    · exact hne ▸ le_rfl
    · obtain ⟨x, hx, ⟨-, rfl⟩ | ⟨-, rfl⟩⟩ := h.eq_or_der hw hall hname hne
      · exact absurd (order_of_mem_algebraic hv) (by simp)
      · exact absurd hv (h.disjoint hx)

theorem mem_all_of_mem_targets (hv : v ∈ targets (.ofExprs known es)) :
    v ∈ (ofExprs known es).all :=
  mem_all_ofExprs.mpr (Or.inr (List.mem_append.mp hv))

theorem eq_of_mem_targets (hfirst : FirstOrder known es) (hv : v ∈ targets (.ofExprs known es))
    (hw : w ∈ targets (.ofExprs known es)) (hname : v.name = w.name) : v = w := by
  have hle := order_le_of_mem_targets hfirst hv (mem_all_of_mem_targets hw) hname.symm
  have hge := order_le_of_mem_targets hfirst hw (mem_all_of_mem_targets hv) hname
  rw [← v.der_base, ← w.der_base, Var.base_eq_iff.mpr hname, le_antisymm hge hle]

theorem mem_row_of_candidate {r : Nat} (hv : v ∈ (candidates (.ofExprs known es)).getD r []) :
    v ∈ (ofExprs known es).perEquation.getD r [] := by
  obtain ⟨e, he, hv, -⟩ := mem_candidates.mp hv
  simpa [ofExprs, List.getD_eq_getElem?_getD, he] using hv

theorem length_perEquation : (ofExprs known es).perEquation.length = es.length := by
  simp [ofExprs]

namespace Explicit

variable (h : (ofExprs known es).Explicit) (hfirst : FirstOrder known es)

include h hfirst

/-- Equations that can be solved for their highest derivatives can be matched to these. -/
theorem matchable : (ofExprs known es).Matchable fun _ => 0 := by
  obtain ⟨f, hf, hinj, honto⟩ := h
  rw [length_candidates] at hf hinj honto
  have hrows : (ofExprs known es).rowsAfter (fun _ => 0) = (ofExprs known es).perEquation :=
    List.ext_getElem? fun r => by simp [getElem?_rowsAfter, rowAfter]
  have hmem : ∀ w ∈ (ofExprs known es).perEquation.flatten, w ∈ (ofExprs known es).all := by
    intro w hw
    obtain ⟨vs, hvs, hw⟩ := List.mem_flatten.mp hw
    exact (ofFirstOrder_ofExprs hfirst).perEquation hvs hw
  have htop : ∀ v ∈ targets (.ofExprs known es), IsHighest (ofExprs known es).perEquation v :=
    fun v hv w hw => order_le_of_mem_targets hfirst hv (hmem w hw)
  rw [Matchable, hrows, PerfectMatching, List.length_map, length_perEquation]
  refine ⟨f, fun i hi => ?_, hinj, fun v hv => honto v ?_⟩
  · have hrow := mem_row_of_candidate (hf i hi)
    have hlt : i < (ofExprs known es).perEquation.length := by rwa [length_perEquation]
    rw [List.getD_eq_getElem?_getD, List.getElem?_eq_getElem hlt] at hrow
    rw [List.getD_eq_getElem?_getD, List.getElem?_map, List.getElem?_eq_getElem hlt]
    exact List.mem_filter.mpr ⟨hrow,
      decide_eq_true (htop _ (mem_targets_of_candidate (hf i hi)))⟩
  · -- a state is not highest, since its derivative occurs
    obtain ⟨hv, hhigh⟩ := mem_highestDerivatives.mp hv
    rcases mem_all_ofExprs.mp (hmem v hv) with hstate | hv
    · obtain ⟨d, hd, rfl⟩ := mem_states_ofExprs.mp hstate
      obtain ⟨vs, hvs, hdvs⟩ := exists_row_ofExprs (Or.inl hd)
      have hle := hhigh d (List.mem_flatten.mpr ⟨vs, hvs, hdvs⟩) rfl
      rw [eq_der_of_mem_derivatives hfirst hd] at hle
      simp at hle
    · exact List.mem_append.mpr hv

theorem size_eq : (ofExprs known es).size = es.length := by
  rw [(h.matchable hfirst).size_eq hfirst, length_perEquation]

theorem length_targets :
    (ofExprs known es).derivatives.length + (ofExprs known es).algebraic.length = es.length := by
  rw [length_derivatives hfirst]
  exact h.size_eq hfirst

theorem fault?_eq_none : (ofExprs known es).fault? es = none := by
  have hof := ofFirstOrder_ofExprs hfirst
  have hsize := h.size_eq hfirst
  refine (hof.fault?_eq_none_iff length_perEquation hsize).mpr ?_
  obtain ⟨f, hf, hinj, -⟩ := h
  rw [length_candidates] at hf hinj
  have hlen : (ofExprs known es).perEquation.length = es.length := length_perEquation
  rw [← hlen] at hf hinj
  refine hof.perfect_of_choice (hsize.trans length_perEquation.symm) (τ := f)
    ⟨fun r hr => mem_row_of_candidate (hf r hr), fun r hr q hq hname => ?_⟩
  exact hinj r hr q hq (eq_of_mem_targets hfirst (mem_targets_of_candidate (hf r hr))
    (mem_targets_of_candidate (hf q hq)) hname)

omit hfirst in
/-- All equations are matched before they are solved. -/
theorem not_size_lt : ¬ (matching es (candidates (.ofExprs known es))).size < es.length := by
  unfold matching
  dsimp only
  split
  · have hm := Matching.valid_maximum (candidates (.ofExprs known es))
    have hall : ∀ i < es.length,
        ((Matching.maximum (candidates (.ofExprs known es))).matched? i).isSome := fun i hi =>
      Option.isSome_iff_exists.mpr (Matching.matched?_maximum h (by rwa [length_candidates]))
    rw [← Matching.card_covered hm, Matching.covered, length_candidates,
      Finset.filter_true_of_mem fun i hi => hall i (Finset.mem_range.mp hi), Finset.card_range]
    exact lt_irrefl _
  · assumption

end Explicit

end Structure

/-! ### Differentiation -/

namespace Differentiation

variable {s d : Differentiation} {N k : Nat} {τ : Nat → Var}

/-- No equation has been differentiated. -/
def Underived (d : Differentiation) : Prop := ∀ i, d.derivedEqOf i = none

/-- When no equation needs differentiation, each is matched at once. -/
theorem matchFrom_unchanged (steps : Nat) (hs : s.Sound) (hτ : Highest s N (fun _ => 0) τ)
    (h : Covered s N k (k + 1) d) (hn : Within N (fun _ => 0) d) (hk : k < N) :
    ∃ a, matchFrom (steps + 1) k d = some { d with assign := a } := by
  have ho := augment_outcome h.highest_used (h.rootFree hk .refl)
  rw [matchFrom]
  rcases ha : augment d.highest d.assign k with ⟨_ | _, t⟩ <;> rw [ha] at ho
  · exact absurd ⟨k, hk, .refl⟩ (h.not_exhausts hs hτ hn hk .refl ha k ho.2)
  · exact ⟨t.assign, rfl⟩

theorem matchAll_unchanged (steps : Nat) (hs : s.Sound) (hτ : Highest s N (fun _ => 0) τ) :
    ∀ {m k : Nat} {d : Differentiation}, Covered s N k k d → Within N (fun _ => 0) d → k + m = N →
      ∃ a, matchAll (steps + 1) (List.range' k m) d = .ok { d with assign := a }
  | 0, _, d, _, _, _ => ⟨d.assign, rfl⟩
  | m + 1, k, d, h, hn, hkm => by
    obtain ⟨a, ha⟩ := matchFrom_unchanged steps hs hτ h.weaken hn (by omega)
    have hlt : k < d.exprs.length := by have := h.originals; omega
    have hcov := (matchFrom_covered h.weaken (by omega) .refl hlt
      (h.fresh k le_rfl (by omega)) ha).1
    rw [List.range'_succ, matchAll, ha]
    exact matchAll_unchanged steps hs hτ hcov (hn.assign a) (by omega)

end Differentiation

namespace Structure

open Differentiation

variable {known : List Var} {es : List Expr}

/-- Equations that can be matched to their highest derivatives are not differentiated. -/
theorem differentiate_unchanged (steps : Nat) (hfirst : FirstOrder known es)
    (hm : (ofExprs known es).Matchable fun _ => 0) :
    ∃ d, (ofExprs known es).differentiate es (steps + 1) = .ok d ∧ d.exprs = es ∧
      d.Underived := by
  have h := ofFirstOrder_ofExprs hfirst
  have hes : (ofExprs known es).perEquation.length = es.length := by simp [ofExprs]
  obtain ⟨τ, hτ⟩ : ∃ τ, Highest (start (ofExprs known es) es) _ (fun _ => 0) τ :=
    h.exists_highest_start hm
  rw [hes] at hτ
  rw [Structure.differentiate, hm.size_eq hfirst, hes, List.range_eq_range']
  obtain ⟨a, ha⟩ := matchAll_unchanged steps (h.sound_start hes) hτ (h.covered_start hes)
    (within_start hfirst) (Nat.zero_add _)
  exact ⟨_, ha, rfl, derivedEqOf_start (s := ofExprs known es)⟩

end Structure

/-! ### Dummy derivatives -/

namespace Differentiation

variable {d : Differentiation} {ctx : DummyContext} {is : List Nat}

theorem Underived.depth (h : d.Underived) (i : Nat) : ∀ n, d.descent.depth n i = 0
  | 0 => rfl
  | n + 1 => by
    have hnone : d.descent.parent? i = none := parent?_descent_none fun j => by simp [h j]
    rw [Digraph.depth, hnone]

theorem Underived.differentiated_top (h : d.Underived) :
    (DummyLevel.top d is).differentiated = 0 := by
  refine List.countP_eq_zero.mpr fun c hc => ?_
  obtain ⟨p, hp, rfl⟩ := List.mem_map.mp hc
  simp only [Digraph.byDepth, mem_sortedBy, List.mem_map] at hp
  obtain ⟨i, -, rfl⟩ := hp
  simp [h.depth]

/-- A block of equations that have not been differentiated has one level and no dummies. -/
theorem Underived.block (h : d.Underived) :
    DummySystem.block d ctx is = .ok ⟨[(DummyLevel.top d is).equations], []⟩ := by
  unfold DummySystem.block
  dsimp only
  cases (DummyLevel.top d is).depths.foldl max 0 with
  | zero => rfl
  | succ n => rw [DummyLevel.levels, if_pos h.differentiated_top]

theorem equations_top_perm : (DummyLevel.top d is).equations.Perm is := by
  have hperm := (sortedBy_perm (fun a b : Nat × Nat =>
    decide (b.1 < a.1) || (decide (a.1 = b.1) && decide (b.2 ≤ a.2)))
    (is.map fun u => (d.descent.depth d.descent.nodes.length u, u))).map Prod.snd
  simpa [DummyLevel.top, Digraph.byDepth, Function.comp_def] using hperm

/-- The order in which the equations come out of their blocks. -/
def blockOrder (d : Differentiation) : List Nat :=
  d.blocks.flatMap fun is => (DummyLevel.top d is).equations

theorem Underived.blockOrder_perm (h : d.Underived) :
    d.blockOrder.Perm (List.range d.exprs.length) := by
  have hleaves : d.leaves = List.range d.exprs.length :=
    List.filter_eq_self.mpr fun i _ => by simp [h i]
  have hblocks : ∀ bs : List (List Nat),
      (bs.flatMap fun is => (DummyLevel.top d is).equations).Perm bs.flatten := by
    intro bs
    induction bs with
    | nil => exact .nil
    | cons is bs ih => exact equations_top_perm.append ih
  exact (hblocks d.blocks).trans (hleaves ▸ flatten_blocks_perm)

variable {known : List Var} {taken : List String} {es : List Expr}

/-- Without differentiated equations there are no dummies: the equations come out as they are, block
by block. -/
theorem Underived.dummies (h : d.Underived) (hk : ∀ v ∈ known, v.order = 0)
    (hes : es = d.blockOrder.filterMap fun i => d.exprs[i]?) (hfirst : FirstOrder known es)
    (hcount : (Structure.ofExprs known es).derivatives.length +
      (Structure.ofExprs known es).algebraic.length = es.length) :
    d.dummies ctx d.blocks known taken =
      .ok ⟨[], es, ⟨es, [], []⟩, Structure.ofExprs known es⟩ := by
  have hblocks : d.blocks.mapM (DummySystem.block d ctx) =
      .ok (d.blocks.map fun is => ⟨[(DummyLevel.top d is).equations], []⟩) := by
    rw [show DummySystem.block d ctx = fun is => pure ⟨[(DummyLevel.top d is).equations], []⟩ from
      funext fun is => h.block]
    exact List.mapM_pure
  have hchosen : ((d.blocks.map fun is => (⟨[(DummyLevel.top d is).equations], []⟩ :
      DummyBlock)).flatMap DummyBlock.chosen) = [] := by
    simp [List.flatMap_map]
  have hequations : ((d.blocks.map fun is => (⟨[(DummyLevel.top d is).equations], []⟩ :
      DummyBlock)).flatMap DummySystem.equationsOf) = d.blockOrder := by
    simp [List.flatMap_map, DummySystem.equationsOf, blockOrder]
  have hsubstitute : Expr.substitute (Lowered.replacement []) = id := rfl
  unfold Differentiation.dummies
  rw [hblocks]
  simp only [bind, Except.bind]
  rw [hchosen, hequations, List.map_nil, hsubstitute, List.map_id, ← hes,
    lowerOrder_of_firstOrder hk hfirst]
  simp [hcount, pure, Except.pure]

end Differentiation

end Flange

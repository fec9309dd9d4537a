import Flange.Proofs.Reduction.Stages

/-! # What differentiation leaves behind

After differentiation the equations that have no derivative and the variables that have none are
matched one to one. The equations are the original ones with their derivatives, each differentiated
at most once, and the row of an equation has every unknown that occurs in it.
-/

namespace Flange

namespace Differentiation

/-- Variables whose derivative is not among the variables, in order. -/
def highestVars (d : Differentiation) : List Nat :=
  (List.range d.vars.length).filter fun j => (d.derivedVarOf j).isNone

/-- An equation without a derivative has a variable without a derivative, one that occurs in it,
and every such variable belongs to one such equation. Derivatives of equations and of variables
are what they are derivatives of, differentiated; rows are complete. -/
structure FullyMatched (known : List Var) (t : Structure) (es : List Expr) (d : Differentiation) :
    Prop where
  length_leaves : d.leaves.length = t.size
  length_highestVars : d.highestVars.length = t.size
  matched : ∀ i ∈ d.leaves, ∃ j ∈ d.highestVars, d.matchedVar? i = some j ∧ j ∈ d.row i
  unique : ∀ j ∈ d.highestVars, ∃! i, i ∈ d.leaves ∧ d.matchedVar? i = some j
  originals : es <+: d.exprs
  derivedEq : ∀ i k, d.derivedEqOf i = some k →
    es.length ≤ k ∧ ∃ e, d.exprs[i]? = some e ∧ d.exprs[k]? = some e.timeDerivative
  origin : ∀ k, es.length ≤ k → k < d.exprs.length → ∃! i, d.derivedEqOf i = some k
  derivedVar : ∀ j k, d.derivedVarOf j = some k ↔
    ∃ v, d.vars[j]? = some v ∧ d.vars[k]? = some v.der
  rowsComplete : ∀ i, d.RowsComplete known i

variable {d s : Differentiation} {N b i j k : Nat} {known : List Var} {es : List Expr}

theorem mem_highestVars : j ∈ d.highestVars ↔ j < d.vars.length ∧ d.derivedVarOf j = none := by
  simp [highestVars]

theorem nodup_highestVars : d.highestVars.Nodup := List.nodup_range.filter _

/-! ### Functions -/

/-- Differentiation brings in derivatives only. -/
def Grounded (fs : List Var) (d : Differentiation) : Prop :=
  ∀ v ∈ d.vars, v.order = 0 → v ∈ fs

theorem kept_grounded {fs : List Var} : Kept s N (Grounded fs) where
  extend h _ := h
  differentiate := by
    intro d t k c i h hc hk hd hlt hi x v hv ho
    have y := hc.sound.differentiated (hc.singular hlt hi x (hc.rootFree hk hd))
    obtain ⟨l, hl⟩ := List.mem_iff_getElem?.mp hv
    rcases Nat.lt_or_ge l d.vars.length with hold | hnew
    · have hget := getElem?_of_extends y.vars (List.getElem?_eq_getElem hold)
      obtain rfl := Option.some.inj (hget.symm.trans hl)
      exact h _ (List.getElem_mem hold) ho
    · -- a new variable is the derivative of a coloured one
      obtain ⟨j, -, hj⟩ := y.derivedVar_onto l hnew (lt_of_getElem? hl)
      obtain ⟨w, -, hw⟩ := y.sound.derivedVar_iff.mp hj
      obtain rfl := Option.some.inj (hw.symm.trans hl)
      simp at ho

theorem grounded_start {u : Structure} (hu : u.OfFirstOrder) :
    Grounded u.functions (start u es) := by
  intro v hv ho
  rcases hu.mem_all.mp hv with hv | ⟨x, -, rfl⟩ | hv
  · exact List.mem_append_left _ hv
  · simp at ho
  · exact List.mem_append_right _ hv

theorem base_mem_vars (h : d.Sound) {v : Var} (hv : v ∈ d.vars) : v.base ∈ d.vars := by
  have hmem := h.der_mem (v := v.base) (Nat.zero_le v.order) (by rwa [Var.der_base])
  rwa [Var.der_zero] at hmem

/-- There are no more highest derivatives than functions. -/
theorem Grounded.length_highestVars_le {fs : List Var} (hg : Grounded fs d) (h : d.Sound) :
    d.highestVars.length ≤ fs.length := by
  have hvar : ∀ j ∈ d.highestVars, d.vars[j]? = some (d.var j) ∧ d.derivedVarOf j = none := by
    intro j hj
    obtain ⟨hlt, hnone⟩ := mem_highestVars.mp hj
    have hget := List.getElem?_eq_getElem hlt
    exact ⟨by rw [hget, var_eq hget], hnone⟩
  have hnodup : (d.highestVars.map fun j => (d.var j).base).Nodup := by
    refine nodup_highestVars.map_on fun i hi j hj hij => ?_
    obtain ⟨hiv, hin⟩ := hvar i hi
    obtain ⟨hjv, hjn⟩ := hvar j hj
    exact h.highest_unique hiv hjv hin hjn (Var.base_eq_iff.mp hij)
  have hsub : (d.highestVars.map fun j => (d.var j).base) ⊆ fs := by
    intro v hv
    obtain ⟨j, hj, rfl⟩ := List.mem_map.mp hv
    exact hg _ (base_mem_vars h (List.mem_of_getElem? (hvar j hj).1)) (Var.order_base _)
  simpa using (hnodup.subperm hsub).length_le

/-! ### The matching -/

section Matching

variable (h : Covered s N N b d) (hl : d.LeavesHighest)

include h hl

theorem Covered.mem_highestVars_of_matched (hi : i ∈ d.leaves) (hm : d.matchedVar? i = some j) :
    j ∈ d.highestVars :=
  mem_highestVars.mpr ⟨h.sound.assigned_lt (assigned_of_matchedVar? hm),
    (h.highest_of_matched hl hi hm).2⟩

theorem Covered.length_matched : (d.leaves.filterMap d.matchedVar?).length = d.leaves.length := by
  refine List.filterMap_length_eq_length.mpr fun i hi => ?_
  obtain ⟨j, -, hm, -⟩ := h.matchedVar? hl hi
  rw [hm, Option.isSome_some]

omit h hl in
theorem nodup_matched : (d.leaves.filterMap d.matchedVar?).Nodup := by
  refine nodup_leaves.filterMap fun e f j he hf => ?_
  have he := assigned_of_matchedVar? he
  exact Option.some.inj (he.symm.trans (assigned_of_matchedVar? hf))

theorem Covered.matched_subset : d.leaves.filterMap d.matchedVar? ⊆ d.highestVars := by
  intro j hj
  obtain ⟨i, hi, hm⟩ := List.mem_filterMap.mp hj
  exact h.mem_highestVars_of_matched hl hi hm

theorem Covered.length_leaves_le : d.leaves.length ≤ d.highestVars.length :=
  (h.length_matched hl).symm.trans_le (nodup_matched.subperm (h.matched_subset hl)).length_le

/-- When there are not more highest derivatives than leaves, each is matched to a leaf. -/
theorem Covered.matched_perm (hle : d.highestVars.length ≤ d.leaves.length) :
    (d.leaves.filterMap d.matchedVar?).Perm d.highestVars :=
  (nodup_matched.subperm (h.matched_subset hl)).perm_of_length_le
    (hle.trans_eq (h.length_matched hl).symm)

end Matching

/-! ### Derived equations -/

/-- An equation that was appended is the derivative of one equation. -/
theorem Covered.origin (h : Covered s N N b d) (hk : N ≤ k) (hlt : k < d.exprs.length) :
    ∃! i, d.derivedEqOf i = some k := by
  obtain ⟨r, hr, c, hd⟩ := h.descends k hlt
  cases hd with
  | refl => omega
  | @step c i _ hd he => exact ⟨i, he, fun i' hi' => h.sound.derivedEq_inj hi' he⟩

theorem Covered.le_of_derivedEq (h : Covered s N N b d) (he : d.derivedEqOf i = some k) :
    N ≤ k := by
  by_contra hlt
  exact h.noParent k (by omega) i he

/-- A derived equation is the time derivative of its equation. -/
theorem Sound.exists_derived (h : d.Sound) (he : d.derivedEqOf i = some k) :
    ∃ e, d.exprs[i]? = some e ∧ d.exprs[k]? = some e.timeDerivative := by
  have hget := List.getElem?_eq_getElem (h.derivedEq_lt' he)
  have hexpr := h.expr_derived he
  rw [hget, Option.map_some] at hexpr
  exact ⟨_, hget, hexpr⟩

theorem Finished.fullyMatched (h : d.Finished known es)
    (hsize : (Structure.ofExprs known es).size = es.length)
    (hg : Grounded (Structure.ofExprs known es).functions d) :
    d.FullyMatched known (.ofExprs known es) es := by
  have hhigh := hg.length_highestVars_le h.sound
  rw [Structure.length_functions, hsize] at hhigh
  have hleaves := h.covered.length_leaves
  have hle := h.covered.length_leaves_le h.leavesHighest
  exact
    { length_leaves := by omega
      length_highestVars := by omega
      matched := by
        intro i hi
        obtain ⟨j, hrow, hm, -⟩ := h.covered.matchedVar? h.leavesHighest hi
        exact ⟨j, h.covered.mem_highestVars_of_matched h.leavesHighest hi hm, hm, hrow⟩
      unique := by
        intro j hj
        have hmem := (h.covered.matched_perm h.leavesHighest (by omega)).mem_iff.mpr hj
        obtain ⟨i, hi, hm⟩ := List.mem_filterMap.mp hmem
        refine ⟨i, ⟨hi, hm⟩, ?_⟩
        rintro k ⟨-, hk⟩
        have hk := assigned_of_matchedVar? hk
        exact Option.some.inj (hk.symm.trans (assigned_of_matchedVar? hm))
      originals := h.covered.exprs
      derivedEq := fun i k he => ⟨h.covered.le_of_derivedEq he, h.sound.exists_derived he⟩
      origin := fun k hk hlt => h.covered.origin hk hlt
      derivedVar := fun _ _ => h.sound.derivedVar_iff
      rowsComplete := by
        intro i
        rcases Nat.lt_or_ge i d.exprs.length with hi | hi
        · exact h.rowsComplete hi
        · intro e he
          simp [List.getElem?_eq_none hi] at he }

end Differentiation

namespace Reduction

variable {s : EquationSystem} {a : Aliases} {t : Structure} {steps : Nat} {d : Differentiation}

/-- When equations that pass the structural check have been differentiated, what is left of them is
matched one to one to the highest derivatives of all unknowns. -/
theorem fullyMatched_of_differentiate (hinputs : ∀ v ∈ s.inputs, v.order = 0)
    (hcheck : check s (lower s a).exprs = .ok t)
    (hd : t.differentiate (lower s a).exprs steps = .ok d) :
    d.FullyMatched s.inputs t (lower s a).exprs := by
  have hfinished := finished_of_differentiate hcheck hd hinputs
  have hg : Differentiation.Grounded t.functions d := kept_of_differentiate hcheck hd
    Differentiation.kept_grounded (Differentiation.grounded_start (ofFirstOrder_of_check hcheck))
  obtain ⟨rfl, hsize⟩ := check_ok hcheck
  exact hfinished.fullyMatched hsize hg

/-- `x' = v` and `v' = y` where `x` is prescribed by an input. -/
def positioned : EquationSystem :=
  let x : Var := ⟨"x", 0⟩
  let v : Var := ⟨"v", 0⟩
  let y : Var := ⟨"y", 0⟩
  let u : Var := ⟨"u", 0⟩
  let eqs : List Eqn := [⟨⟨.var x.der, .var v⟩, .comp, .nobody⟩,
    ⟨⟨.var v.der, .var y⟩, .comp, .nobody⟩, ⟨⟨.var x, .var u⟩, .comp, .nobody⟩]
  { equations := eqs, exprs := eqs.map Eqn.residual, unknowns := [x, v, y], inputs := [u] }

/-- The equation of `x` is differentiated twice and that of `x'` once, and each of the three
equations left over has the highest derivative of an unknown. -/
theorem fullyMatched_positioned : ∃ t d,
    check positioned (lower positioned (.ofSystem positioned)).exprs = .ok t ∧
      t.differentiate (lower positioned (.ofSystem positioned)).exprs 20 = .ok d ∧
      d.exprs.length = 6 ∧
      d.FullyMatched positioned.inputs t (lower positioned (.ofSystem positioned)).exprs := by
  have hok : (do
      let t ← (check positioned (lower positioned (.ofSystem positioned)).exprs).toOption
      let d ← (t.differentiate (lower positioned (.ofSystem positioned)).exprs 20).toOption
      return d.exprs.length) = some 6 := by decide +kernel
  obtain ⟨t, ht, hd⟩ := Option.bind_eq_some_iff.mp hok
  obtain ⟨d, hd, hlength⟩ := Option.bind_eq_some_iff.mp hd
  have ht := ok_of_toOption ht
  have hd := ok_of_toOption hd
  exact ⟨t, d, ht, hd, Option.some.inj hlength,
    fullyMatched_of_differentiate (by simp [positioned]) ht hd⟩

end Reduction

end Flange

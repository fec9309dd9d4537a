import Flange.Proofs.Solution.Blocks

/-! # The semi-explicit form is exact at every point

Values for all variables and derivatives are given, those of derivatives independently of the others.
Where the equations are defined and each block that is solved can be solved, every block that is worked
on trades its equations for the values of what it is solved for, or for its constraints. So the
equations vanish just when the rates, the constraints and the solutions are right, in whatever way the
equations are matched.
-/

namespace Flange

namespace SemiExplicit

variable {ρ : Valuation ℝ} {known vs : List Var} {es block : List Expr} {observed : Observed}
  {p : Progress} {m : Matching Var} {flag : Bool} {e : Expr} {v x : Var}

namespace Progress

/-! ### Blocks -/

/-- At `ρ` what has been solved for has the values of its solutions. -/
def SolvedAt (ρ : Valuation ℝ) (p : Progress) : Prop := ∀ q ∈ p.solved, ρ.var q.1 = q.2.eval ρ

/-- At `ρ` what has been solved for has the values of its solutions, and the constraints vanish. -/
structure HoldsAt (ρ : Valuation ℝ) (p : Progress) : Prop where
  solved : p.SolvedAt ρ
  constraints : ∀ g ∈ p.constraints, g.eval ρ = 0

/-- Only matched variables are solved for. The solutions are defined at `ρ`, and the constraints are
where the solutions are true. -/
structure DefinedAt (m : Matching Var) (ρ : Valuation ℝ) (p : Progress) : Prop where
  matched : ∀ q ∈ p.solved, ∃ i, m.matched? i = some q.1
  solved : ∀ q ∈ p.solved, q.2.Regular False ρ
  constraints : p.SolvedAt ρ → ∀ g ∈ p.constraints, g.Regular False ρ

theorem definedAt_start : DefinedAt m ρ {} := ⟨by simp, by simp, by simp⟩

theorem holdsAt_start : HoldsAt ρ {} := ⟨by simp [SolvedAt], by simp⟩

theorem solvedAt_solve {sols : List Expr} (hlen : sols.length = vs.length) :
    (p.solve vs sols).SolvedAt ρ ↔
      p.SolvedAt ρ ∧ List.Forall₂ (fun v sol => ρ.var v = sol.eval ρ) vs sols := by
  simp only [SolvedAt, solve, List.forall_mem_append, List.forall₂_iff_zip, Prod.forall]
  exact and_congr_right fun _ => (and_iff_right hlen.symm).symm

theorem holdsAt_solve {sols : List Expr} (hlen : sols.length = vs.length) :
    (p.solve vs sols).HoldsAt ρ ↔
      p.HoldsAt ρ ∧ List.Forall₂ (fun v sol => ρ.var v = sol.eval ρ) vs sols := by
  constructor
  · rintro ⟨hsolved, hconstraints⟩
    obtain ⟨hp, hvalues⟩ := (solvedAt_solve hlen).mp hsolved
    exact ⟨⟨hp, hconstraints⟩, hvalues⟩
  · rintro ⟨⟨hp, hconstraints⟩, hvalues⟩
    exact ⟨(solvedAt_solve hlen).mpr ⟨hp, hvalues⟩, hconstraints⟩

theorem holdsAt_keep : (p.keep vs block).HoldsAt ρ ↔
    p.HoldsAt ρ ∧ ∀ g ∈ block, g.eval ρ = 0 := by
  constructor
  · rintro ⟨hsolved, hconstraints⟩
    obtain ⟨hp, hblock⟩ := List.forall_mem_append.mp hconstraints
    exact ⟨⟨hsolved, hp⟩, hblock⟩
  · rintro ⟨⟨hsolved, hp⟩, hblock⟩
    exact ⟨hsolved, List.forall_mem_append.mpr ⟨hp, hblock⟩⟩

section Step

variable (hk : ∀ v ∈ known, v.order = 0) (hm : m.Valid (candidates (.ofExprs known es)))
  (hes : ∀ e ∈ es, e.Regular False ρ)

include hk hm hes

/-- Solutions that are true go into an equation without changing its value. -/
theorem DefinedAt.denotes_substitute (h : p.DefinedAt m ρ) (hp : p.SolvedAt ρ) (he : e ∈ es) :
    (e.substitute p.replacement).Denotes False ρ (e.eval ρ) := by
  refine Expr.denotes_substitute (hes e he) fun s hs => ?_
  rcases Expr.replaceSymbol_cases p.replacement s with
    ⟨f, hf, heq⟩ | ⟨v, f, rfl, ho, -, hf, -⟩ | ⟨-, -, heq⟩
  · obtain ⟨v, rfl, hv⟩ := lookup_replacement hf
    exact heq ▸ (h.solved _ hv).denotes.congr (hp _ hv).symm
  · -- no derivative of what is solved for occurs, since it is neither known nor a state
    obtain ⟨u, hu, hmem⟩ := lookup_replacement hf
    obtain rfl := Symbol.var.inj hu
    obtain ⟨i, hi⟩ := h.matched _ hmem
    obtain ⟨hstate, hknown⟩ := unsettled_of_matched hm hi
    obtain ⟨k, hk'⟩ := List.mem_iff_getElem?.mp he
    rcases base_of_equation hk hk' (Expr.mem_vars.mpr hs) ho with hst | hkn
    · exact absurd hst hstate
    · exact absurd hkn (hknown rfl)
  · exact heq ▸ Expr.denotes_sym s

/-- A block that is worked on holds just when its equations vanish. -/
theorem DefinedAt.addBlock (h : p.DefinedAt m ρ) (hblock : ∀ e ∈ block, e ∈ es)
    (hvs : ∀ v ∈ vs, ∃ i, m.matched? i = some v)
    (hb : BlockSolvableAt False ρ flag (block.map (Expr.substitute p.replacement)) vs) :
    (p.addBlock flag block vs).DefinedAt m ρ ∧
      ((p.addBlock flag block vs).HoldsAt ρ ↔ p.HoldsAt ρ ∧ ∀ e ∈ block, e.eval ρ = 0) := by
  have hvalue (hp : p.SolvedAt ρ) : ∀ e ∈ block,
      (e.substitute p.replacement).Denotes False ρ (e.eval ρ) := fun e he =>
    h.denotes_substitute hk hm hes hp (hblock e he)
  have hzero (hp : p.SolvedAt ρ) :
      (∀ g ∈ block.map (Expr.substitute p.replacement), g.eval ρ = 0) ↔
        ∀ e ∈ block, e.eval ρ = 0 := by
    rw [List.forall_mem_map]
    exact forall₂_congr fun e he => by rw [(hvalue hp e he).eval]
  rcases addBlock_cases p flag block vs with ⟨sols, hsols, heq⟩ | heq <;> rw [heq]
  · obtain ⟨hregular, hiff⟩ := hsols.iff_at hb
    refine ⟨⟨fun q hq => ?_, fun q hq => ?_, fun hp => ?_⟩, ?_⟩
    · exact (List.mem_append.mp hq).elim (h.matched q) fun hq => hvs _ (List.of_mem_zip hq).1
    · exact (List.mem_append.mp hq).elim (h.solved q) fun hq => hregular _ (List.of_mem_zip hq).2
    · exact h.constraints ((solvedAt_solve hsols.length_eq).mp hp).1
    · rw [holdsAt_solve hsols.length_eq]
      exact and_congr_right fun hp => by rw [← hiff, hzero hp.solved]
  · refine ⟨⟨h.matched, h.solved, fun hp => List.forall_mem_append.mpr ⟨h.constraints hp, ?_⟩⟩, ?_⟩
    · exact List.forall_mem_map.mpr fun e he => (hvalue hp e he).regular
    · rw [holdsAt_keep]
      exact and_congr_right fun hp => hzero hp.solved

theorem DefinedAt.blocks : ∀ {bs : List (List Nat)} {p : Progress}, p.DefinedAt m ρ →
    (∀ b ∈ blocksFrom flag es m p bs, BlockSolvableAt False ρ flag b.1 b.2) →
      (bs.foldl (fun p b => p.addBlock flag (b.filterMap fun i => es[i]?)
        (b.filterMap m.matched?)) p).DefinedAt m ρ ∧
      ((bs.foldl (fun p b => p.addBlock flag (b.filterMap fun i => es[i]?)
        (b.filterMap m.matched?)) p).HoldsAt ρ ↔
          p.HoldsAt ρ ∧ ∀ i ∈ bs.flatten, ∀ e ∈ es[i]?, e.eval ρ = 0)
  | [], p, h, _ => ⟨h, by simp⟩
  | b :: bs, p, h, hb => by
    rw [blocksFrom, List.forall_mem_cons] at hb
    have hblock : ∀ e ∈ b.filterMap fun i => es[i]?, e ∈ es := fun e he => by
      obtain ⟨i, -, hi⟩ := List.mem_filterMap.mp he
      exact List.mem_of_getElem? hi
    have hvs : ∀ v ∈ b.filterMap m.matched?, ∃ i, m.matched? i = some v := fun v hv => by
      obtain ⟨i, -, hi⟩ := List.mem_filterMap.mp hv
      exact ⟨i, hi⟩
    obtain ⟨hstep, hiff⟩ := h.addBlock hk hm hes hblock hvs hb.1
    obtain ⟨hend, hrest⟩ := DefinedAt.blocks hstep hb.2
    refine ⟨hend, hrest.trans ?_⟩
    rw [hiff, and_assoc, List.flatten_cons, List.forall_mem_append]
    refine and_congr_right fun _ => and_congr_left fun _ => ?_
    constructor
    · exact fun hall i hi e he => hall e (List.mem_filterMap.mpr ⟨i, hi, he⟩)
    · intro hall e he
      obtain ⟨i, hi, he⟩ := List.mem_filterMap.mp he
      exact hall i hi e he

end Step

end Progress

/-! ### The whole system -/

/-- The blocks of the matching, as they come up for solution. -/
def blocksOf (flag : Bool) (known : List Var) (es : List Expr) (m : Matching Var) :
    List (List Expr × List Var) :=
  blocksFrom flag es m {} (dependencies (candidates (.ofExprs known es)) m).blocks

/-- What solving the blocks of the matching gives. -/
def progressOf (flag : Bool) (known : List Var) (es : List Expr) (m : Matching Var) : Progress :=
  solveBlocks flag es (candidates (.ofExprs known es)) m

theorem holdsAt_progressOf (hk : ∀ v ∈ known, v.order = 0)
    (hm : m.Valid (candidates (.ofExprs known es))) (hes : ∀ e ∈ es, e.Regular False ρ)
    (hb : ∀ b ∈ blocksOf flag known es m, BlockSolvableAt False ρ flag b.1 b.2) :
    (progressOf flag known es m).DefinedAt m ρ ∧
      ((progressOf flag known es m).HoldsAt ρ ↔ ∀ e ∈ es, e.eval ρ = 0) := by
  obtain ⟨hdefined, hiff⟩ :=
    Progress.DefinedAt.blocks hk hm hes (Progress.definedAt_start (m := m)) hb
  refine ⟨hdefined, hiff.trans ?_⟩
  rw [and_iff_right Progress.holdsAt_start]
  constructor
  · intro hall e he
    obtain ⟨i, hi⟩ := List.mem_iff_getElem?.mp he
    refine hall i ?_ e hi
    rw [Digraph.mem_flatten_blocks (closed_dependencies hm)]
    simpa [dependencies, length_candidates] using lt_of_getElem? hi
  · exact fun hall i _ e he => hall e (List.mem_of_getElem? he)

theorem Paired.length_le_size (h : Paired known es m) : es.length ≤ m.size := by
  rw [← Matching.card_covered h.valid, ← Finset.card_range es.length]
  refine Finset.card_le_card fun i hi => ?_
  obtain ⟨v, hv⟩ := h.total i (Finset.mem_range.mp hi)
  exact Finset.mem_filter.mpr ⟨Finset.mem_range.mpr (h.valid.lt hv), by simp [hv]⟩

/-- At `ρ` a kept derivative has the value of the variable it is renamed to. -/
def ReadingAt (ρ : Valuation ℝ) (retained : List Var) : Prop :=
  ∀ v ∈ retained, v.isDerivative = true → ρ.var (renamed v) = ρ.var v

theorem ReadingAt.denotes {retained : List Var} (h : ReadingAt ρ retained)
    (he : e.Regular False ρ) : (e.substitute (renames retained)).Denotes False ρ (e.eval ρ) := by
  refine Expr.denotes_substitute he fun s _ => ?_
  rcases Expr.replaceSymbol_cases (renames retained) s with
    ⟨f, hf, heq⟩ | ⟨v, f, rfl, -, -, hf, -⟩ | ⟨-, -, heq⟩
  · obtain ⟨v, hv, ho, rfl, rfl⟩ := lookup_renames hf
    exact heq ▸ (Expr.denotes_var _).congr (h v hv (by simpa [Var.isDerivative] using ho))
  · -- only derivatives are renamed
    obtain ⟨u, -, ho, hu, -⟩ := lookup_renames hf
    obtain rfl := Symbol.var.inj hu
    exact absurd rfl ho
  · exact heq ▸ Expr.denotes_sym s

/-- At `ρ` the states change at their rates, the constraints vanish, and what is solved for and no
derivative has the value of its solution. -/
structure ExplicitAt (ρ : Valuation ℝ) (y : SemiExplicit) (solved : List (Var × Expr)) : Prop where
  rates : List.Forall₂ (fun x f => ρ.var x.der = f.eval ρ) y.states y.rates
  constraints : ∀ g ∈ y.constraints, g.eval ρ = 0
  solved : ∀ q ∈ solved, ρ.var q.1 = q.2.eval ρ

theorem rates_iff : List.Forall₂ (fun x f => ρ.var x.der = f.eval ρ)
    (ofProgress (.ofExprs known es) observed p).states
    (ofProgress (.ofExprs known es) observed p).rates ↔
      ∀ x ∈ (Structure.ofExprs known es).states, ρ.var x.der = (rate p x).eval ρ := by
  rw [rates_ofProgress, List.forall₂_map_right_iff]
  exact List.forall₂_same

section Explicit

variable (hp : Complete known es p) (hfirst : FirstOrder known es)
  (hdefined : p.DefinedAt m ρ) (hread : ReadingAt ρ p.retained)

include hp hfirst hdefined hread

theorem explicitAt_of_holdsAt (h : p.HoldsAt ρ) :
    ExplicitAt ρ (ofProgress (.ofExprs known es) observed p) (solvedVars p) := by
  have hsolution : ∀ q ∈ p.solved, ρ.var q.1 = (q.2.substitute (renames p.retained)).eval ρ :=
    fun q hq => (h.solved q hq).trans (hread.denotes (hdefined.solved q hq)).eval.symm
  refine ⟨rates_iff.mpr fun x hx => ?_, List.forall_mem_map.mpr fun g hg => ?_, fun q hq => ?_⟩
  · rcases hp.rate_cases (der_mem_targets hfirst hx) with ⟨q, hq, hqx, heq⟩ | ⟨hkept, heq⟩
    · rw [heq, ← hqx]
      exact hsolution q hq
    · rw [heq]
      exact (hread _ hkept (by simp [Var.isDerivative])).symm
  · have hregular := hdefined.constraints h.solved g hg
    exact (hread.denotes hregular).eval.trans (h.constraints g hg)
  · obtain ⟨r, hr, rfl⟩ := List.mem_map.mp (List.mem_of_mem_filter hq)
    exact hsolution r hr

theorem holdsAt_of_explicitAt (hkeys : p.keys.Nodup)
    (h : ExplicitAt ρ (ofProgress (.ofExprs known es) observed p) (solvedVars p)) :
    p.HoldsAt ρ := by
  have hnodup : ((p.solved.map fun q => (q.1, q.2.substitute (renames p.retained))).map
      Prod.fst).Nodup := by
    simpa [Function.comp_def] using (List.nodup_append.mp hkeys).1
  have hsolved : p.SolvedAt ρ := by
    intro q hq
    rw [← (hread.denotes (hdefined.solved q hq)).eval]
    have hmem := List.mem_map_of_mem
      (f := fun q : Var × Expr => (q.1, q.2.substitute (renames p.retained))) hq
    by_cases hd : q.1.order = 0
    · exact h.solved _ (List.mem_filter.mpr ⟨hmem, by simp [Var.isDerivative, hd]⟩)
    · -- the solution for a derivative is the rate of its state
      obtain ⟨x, hx, hxv⟩ := exists_state hfirst
        (hp.covers.mp (Or.inl (List.mem_map_of_mem hq))) hd
      have hrate := rates_iff.mp h.rates x hx
      rwa [rate, ← hxv, lookup_of_mem hnodup hmem, Option.getD_some] at hrate
  refine ⟨hsolved, fun g hg => ?_⟩
  rw [← (hread.denotes (hdefined.constraints hsolved g hg)).eval]
  exact h.constraints _ (List.mem_map_of_mem hg)

end Explicit

end SemiExplicit

open SemiExplicit

/-- A conversion to semi-explicit form uses some matching of all equations. In whatever way they are
matched, wherever the equations are defined, the blocks that are solved can be solved and kept
derivatives are read as what they are, the equations vanish just when the states change at their
rates, the constraints vanish and every variable that is solved for has the value of its solution;
this is what is observed for it. -/
theorem Structure.semiExplicit_iff {known : List Var} {es : List Expr} {observed : Observed}
    {flag : Bool} (hk : ∀ v ∈ known, v.order = 0) (hfirst : FirstOrder known es)
    (hcount : (targets (.ofExprs known es)).length = es.length) :
    (∀ y, (Structure.ofExprs known es).semiExplicit es observed flag = .ok y →
      ∃ m, m.Valid (candidates (.ofExprs known es)) ∧ es.length ≤ m.size ∧
        y = ofProgress (.ofExprs known es) observed (progressOf flag known es m)) ∧
    ∀ m, m.Valid (candidates (.ofExprs known es)) → es.length ≤ m.size →
      solvedVars (progressOf flag known es m) ⊆
        (ofProgress (.ofExprs known es) observed (progressOf flag known es m)).observed ∧
      ∀ ρ : Valuation ℝ, (∀ e ∈ es, e.Regular False ρ) →
        (∀ b ∈ blocksOf flag known es m, BlockSolvableAt False ρ flag b.1 b.2) →
        ReadingAt ρ (progressOf flag known es m).retained →
          ((∀ e ∈ es, e.eval ρ = 0) ↔
            ExplicitAt ρ (ofProgress (.ofExprs known es) observed (progressOf flag known es m))
              (solvedVars (progressOf flag known es m))) := by
  refine ⟨fun y hy => ?_, fun m hm hsize => ?_⟩
  · obtain ⟨m, -, hpaired, -, rfl⟩ := Structure.semiExplicit_ok hy hcount
    exact ⟨m, hpaired.valid, hpaired.length_le_size, rfl⟩
  · have hpaired := paired hm (Nat.not_lt.mpr hsize) hcount
    have hp : Complete known es (progressOf flag known es m) := hpaired.complete hk
    have hkeys : (progressOf flag known es m).keys.Nodup := Progress.nodup_keys hm
    refine ⟨fun q hq => ?_, fun ρ hes hb hread => ?_⟩
    · rw [observed_ofProgress]
      refine Observed.mem_foldl_set ?_ hq
      have hsolved := (List.nodup_append.mp hkeys).1
      refine List.Nodup.sublist (List.filter_sublist.map Prod.fst) ?_
      simpa [Function.comp_def] using hsolved
    · obtain ⟨hdefined, hiff⟩ := holdsAt_progressOf hk hm hes hb
      rw [← hiff]
      exact ⟨explicitAt_of_holdsAt hp hfirst hdefined hread,
        holdsAt_of_explicitAt hp hfirst hdefined hread hkeys⟩

/-! ### Two blocks -/

/-- `x' = y` and `y = x`. -/
def coupled : List Expr :=
  [.var ⟨"x", 1⟩ - .var ⟨"y", 0⟩, .var ⟨"y", 0⟩ - .var ⟨"x", 0⟩]

namespace coupled

/-- The equations are matched to `x'` and `y`. -/
def matched : Matching Var := matching coupled (candidates (.ofExprs [] coupled))

theorem blocks_eq : blocksOf true [] coupled matched =
    [([.var ⟨"y", 0⟩ - .var ⟨"x", 0⟩], [⟨"y", 0⟩]),
      ([.var ⟨"x", 1⟩ - .var ⟨"x", 0⟩], [⟨"x", 1⟩])] := by
  decide +kernel

/-- Everything has the value 1. -/
noncomputable def ones : Valuation ℝ := ⟨1, fun _ => 1, fun _ => 1⟩

theorem denotes_difference (v w : Var) : (Expr.var v - Expr.var w).Denotes False ones 0 :=
  (Expr.denotes_sub (Expr.denotes_var v) (Expr.denotes_var w)).congr (sub_self 1)

/-- A difference is solved for the variable that is added. -/
theorem solvable_difference {v w : Var}
    (hc : (Expr.var v - Expr.var w).partialDerivative (.var v) = .num 1)
    (hrest : (Expr.var v - Expr.var w).substitute (Expr.zeros [v]) =
      .prod (.num (-1)) (.var w)) :
    BlockSolvableAt False ones true [.var v - .var w] [v] := by
  refine fun _ => ⟨⟨?_, ?_, ?_⟩, ?_⟩
  · simp [hc, Expr.Regular]
  · rw [hrest]
    exact ⟨trivial, trivial⟩
  · rw [(denotes_difference v w).eval, hrest]
    simp [hc, ones]
  · simp [hc]

theorem solvable : ∀ b ∈ blocksOf true [] coupled matched,
    BlockSolvableAt False ones true b.1 b.2 := by
  rw [blocks_eq, List.forall_mem_cons, List.forall_mem_singleton]
  exact ⟨solvable_difference (by decide +kernel) (by decide +kernel),
    solvable_difference (by decide +kernel) (by decide +kernel)⟩

end coupled

/-- Where all variables and derivatives are 1, `x' = y` and `y = x` hold, and so do the solutions
`y = x` and `x' = x`. -/
theorem Structure.semiExplicit_iff_coupled :
    ((∀ v ∈ ([] : List Var), v.order = 0) ∧ FirstOrder [] coupled ∧
      (targets (.ofExprs [] coupled)).length = coupled.length) ∧
    ExplicitAt coupled.ones
      (ofProgress (.ofExprs [] coupled) [] (progressOf true [] coupled coupled.matched))
      (solvedVars (progressOf true [] coupled coupled.matched)) := by
  have hfirst : FirstOrder [] coupled := by
    unfold FirstOrder
    decide +kernel
  have hcount : (targets (.ofExprs [] coupled)).length = coupled.length := by decide +kernel
  have hvanish : ∀ e ∈ coupled, e.Denotes False coupled.ones 0 :=
    List.forall_mem_cons.mpr ⟨coupled.denotes_difference _ _,
      List.forall_mem_singleton.mpr (coupled.denotes_difference _ _)⟩
  have hkept : (progressOf true [] coupled coupled.matched).retained = [] := by decide +kernel
  have horder : ∀ v ∈ ([] : List Var), v.order = 0 := List.forall_mem_nil _
  obtain ⟨-, hiff⟩ := (Structure.semiExplicit_iff horder hfirst hcount).2 coupled.matched
    (matching_valid (length_candidates _ _).symm) (by decide +kernel)
  refine ⟨⟨horder, hfirst, hcount⟩, (hiff coupled.ones (fun e he => (hvanish e he).regular)
    coupled.solvable ?_).mp fun e he => (hvanish e he).eval⟩
  rw [hkept]
  exact fun v hv => absurd hv List.not_mem_nil

end Flange

import Flange.Proofs.Graph.Blocks
import Flange.Proofs.Reduction.Coverage
import Flange.Proofs.Reduction.Lowering
import Flange.Reduction.Dummy

/-! # Dummy derivatives

For each derivative that is chosen there is one equation more, so that the equations with dummies
have exactly the functions of the original equations, the dummies and the variables of the second
lowering.
-/

namespace Flange

namespace Differentiation

variable {d : Differentiation} {r c i j k N b : Nat} {s : Differentiation}

/-! ### Depth -/

theorem edge_descent : d.descent.Edge i k ↔ i < d.exprs.length ∧ d.derivedEqOf i = some k := by
  simp [Digraph.Edge, descent]

theorem parent?_descent (h : d.Sound) (he : d.derivedEqOf i = some k) :
    d.descent.parent? k = some i := by
  have hedge : d.descent.Edge i k := edge_descent.mpr ⟨h.derivedEq_lt' he, he⟩
  cases hf : d.descent.edges.find? fun e => e.2 = k with
  | none => exact absurd (List.find?_eq_none.mp hf (i, k) hedge) (by simp)
  | some e =>
    obtain ⟨m, l⟩ := e
    obtain rfl : l = k := by simpa using List.find?_some hf
    have hm : d.descent.Edge m l := List.mem_of_find?_eq_some hf
    rw [Digraph.parent?, hf, Option.map_some, h.derivedEq_inj (edge_descent.mp hm).2 he]

theorem parent?_descent_none (h : ∀ i, d.derivedEqOf i ≠ some r) : d.descent.parent? r = none := by
  rw [Digraph.parent?, Option.map_eq_none_iff, List.find?_eq_none]
  rintro ⟨i, k⟩ he
  simpa using fun hk : k = r => h i (hk ▸ (edge_descent.mp he).2)

theorem parent?_eq (h : d.Sound) (he : d.derivedEqOf i = some k) : d.parent? k = some i := by
  rw [parent?]
  cases hf : (List.range d.exprs.length).find? fun l => d.derivedEqOf l == some k with
  | none =>
    have := List.find?_eq_none.mp hf i (List.mem_range.mpr (h.derivedEq_lt' he))
    simp [he] at this
  | some l =>
    have hl : d.derivedEqOf l = some k := by simpa using List.find?_some hf
    rw [h.derivedEq_inj hl he]

theorem depth_descent (h : d.Sound) (hr : ∀ i, d.derivedEqOf i ≠ some r)
    (hd : Descends d r c i) : ∀ {n : Nat}, c ≤ n → d.descent.depth n i = c := by
  induction hd with
  | refl =>
    rintro (_ | n) -
    · rfl
    · rw [Digraph.depth, parent?_descent_none hr]
  | step _ he ih =>
    rintro (_ | n) hn
    · omega
    · simp only [Digraph.depth, parent?_descent h he, ih (n := n) (by omega)]

theorem Descends.le (h : d.Sound) (hd : Descends d r c i) : r + c ≤ i := by
  induction hd with
  | refl => exact Nat.le_refl _
  | step _ he ih =>
    have := (h.derivedEq_lt he).1
    omega

/-- An equation is as many times the time derivative of an original one as it is deep. -/
theorem Descends.expr (h : d.Sound) (hd : Descends d r c i) :
    d.exprs[i]? = (d.exprs[r]?).map fun e => e.timeDerivatives c := by
  induction hd with
  | refl => simp [Expr.timeDerivatives]
  | step _ he ih =>
    rw [h.expr_derived he, ih, Option.map_map]
    rfl

theorem Covered.exprs_over (h : Covered s N k b d) (hs : s.exprs.length = N) {R : Var → Prop}
    (hes : ∀ e ∈ s.exprs, e.Over R) : ∀ e ∈ d.exprs, e.Over R := by
  intro e he
  obtain ⟨i, hi⟩ := List.mem_iff_getElem?.mp he
  obtain ⟨r, hr, c, hd⟩ := h.descends i (lt_of_getElem? hi)
  rw [← hs] at hr
  have hget := getElem?_of_extends h.exprs (List.getElem?_eq_getElem hr)
  rw [hd.expr h.sound, hget] at hi
  obtain rfl := Option.some.inj hi
  exact (hes _ (List.getElem_mem hr)).timeDerivatives c

/-! ### Leaves -/

theorem mem_leaves : i ∈ d.leaves ↔ i < d.exprs.length ∧ d.derivedEqOf i = none := by
  simp [leaves]

theorem nodup_leaves : d.leaves.Nodup := List.nodup_range.filter _

/-- There is a leaf below each of the original equations. -/
theorem Covered.le_length_leaves (h : Covered s N N b d) : N ≤ d.leaves.length := by
  have hleaf : ∀ r < N, ∃ e c, Descends d r c e ∧ e ∈ d.leaves := by
    intro r hr
    obtain ⟨c, e, j, hd, hj, he⟩ := h.matched r hr
    obtain ⟨hje, hn, -⟩ := h.used hj he
    exact ⟨e, c, hd, mem_leaves.mpr ⟨h.sound.lt_of_mem_row hje, hn⟩⟩
  choose! leaf times hdesc hmem using hleaf
  have hnodup : ((List.range N).map leaf).Nodup :=
    List.Nodup.map_on (fun r hr r' hr' heq => (h.unique (List.mem_range.mp hr)
      (List.mem_range.mp hr') (hdesc r (List.mem_range.mp hr))
      (heq ▸ hdesc r' (List.mem_range.mp hr'))).1) List.nodup_range
  have hsub : (List.range N).map leaf ⊆ d.leaves := by
    intro e he
    obtain ⟨r, hr, rfl⟩ := List.mem_map.mp he
    exact hmem r (List.mem_range.mp hr)
  simpa using (hnodup.subperm hsub).length_le

theorem closed_dependencies : d.dependencies.Closed := by
  intro u v h
  simp only [Digraph.Edge, dependencies, List.mem_flatMap] at h
  obtain ⟨i, hi, he⟩ := h
  split at he
  · simp at he
  · obtain ⟨k, hk, heq⟩ := List.mem_map.mp he
    obtain ⟨rfl, rfl⟩ := Prod.mk.inj heq
    exact ⟨hi, (List.mem_filter.mp hk).1⟩

theorem flatten_blocks_perm : d.blocks.flatten.Perm d.leaves :=
  (List.perm_ext_iff_of_nodup (Digraph.nodup_flatten_blocks closed_dependencies) nodup_leaves).mpr
    fun _ => Digraph.mem_flatten_blocks closed_dependencies

end Differentiation

open Differentiation

variable {d : Differentiation} {ctx : DummyContext} {s : Differentiation} {N b : Nat}

/-! ### Levels -/

/-- A level has equations with their depths, the deepest first. -/
structure DummyLevel.Sound (d : Differentiation) (N : Nat) (l : DummyLevel) : Prop where
  descends : List.Forall₂ (fun i c => ∃ r < N, Descends d r c i) l.equations l.depths
  sorted : l.depths.Pairwise (· ≥ ·)

namespace DummyLevel

variable {l : DummyLevel}

theorem byDepth_eq (h : Covered s N N b d) {block : List Nat}
    (hb : ∀ i ∈ block, i < d.exprs.length) :
    ∀ p ∈ d.descent.byDepth block, ∃ r < N, Descends d r p.1 p.2 := by
  intro p hp
  simp only [Digraph.byDepth, mem_sortedBy, List.mem_map] at hp
  obtain ⟨i, hi, rfl⟩ := hp
  obtain ⟨r, hr, c, hd⟩ := h.descends i (hb i hi)
  have hle : c ≤ d.descent.nodes.length := by
    have := hd.le h.sound
    have := hb i hi
    simp only [descent, List.length_range]
    omega
  exact ⟨r, hr, (depth_descent h.sound (h.noParent r hr) hd hle).symm ▸ hd⟩

theorem byDepth_pairwise (g : Digraph) (block : List Nat) :
    ((g.byDepth block).map Prod.fst).Pairwise (· ≥ ·) := by
  have h := sortedBy_pairwise (r := fun a b : Nat × Nat =>
      decide (b.1 < a.1) || (decide (a.1 = b.1) && decide (b.2 ≤ a.2)))
    (fun x y => by simp; omega) (fun hxy hyz => by simp at *; omega)
    (block.map fun u => (g.depth g.nodes.length u, u))
  refine List.pairwise_map.mpr (h.imp fun hab => ?_)
  simp at hab
  omega

theorem sound_top (h : Covered s N N b d) {block : List Nat}
    (hb : ∀ i ∈ block, i < d.exprs.length) : (top d block).Sound d N where
  descends := List.forall₂_map_left_iff.mpr (List.forall₂_map_right_iff.mpr
    (List.forall₂_same.mpr (byDepth_eq h hb)))
  sorted := byDepth_pairwise _ _

theorem length_equations_top (block : List Nat) :
    (top d block).equations.length = block.length := by
  simp [top, Digraph.byDepth, (sortedBy_perm _ _).length_eq]

theorem take_countP : ∀ {cs : List Nat}, cs.Pairwise (· ≥ ·) →
    ∀ c ∈ cs.take (cs.countP (· != 0)), c ≠ 0
  | [], _ => by simp
  | a :: cs, h => by
    obtain ⟨ha, hcs⟩ := List.pairwise_cons.mp h
    by_cases hz : a = 0
    · have hall : cs.countP (· != 0) = 0 :=
        List.countP_eq_zero.mpr fun c hc => by simpa using (by have := ha c hc; omega : c = 0)
      simp [hz, hall]
    · have hc : (a :: cs).countP (· != 0) = cs.countP (· != 0) + 1 :=
        List.countP_cons_of_pos (by simpa using hz)
      rw [hc, List.take_succ_cons]
      exact List.forall_mem_cons.mpr ⟨hz, take_countP hcs⟩

/-- Equations that are derivatives with the equations they are derivatives of. -/
theorem forall₂_parent (h : d.Sound) {is cs : List Nat}
    (hd : List.Forall₂ (fun i c => ∃ r < N, Descends d r c i) is cs) (hc : ∀ c ∈ cs, c ≠ 0) :
    List.Forall₂ (fun i c => ∃ r < N, Descends d r c i) (is.filterMap d.parent?)
      (cs.map (· - 1)) := by
  induction hd with
  | nil => exact .nil
  | cons hic _ ih =>
    obtain ⟨hc, hcs⟩ := List.forall_mem_cons.mp hc
    obtain ⟨r, hr, hd⟩ := hic
    cases hd with
    | refl => exact absurd rfl hc
    | step hd he =>
      rw [List.filterMap_cons_some (parent?_eq h he), List.map_cons]
      exact .cons ⟨r, hr, hd⟩ (ih hcs)

variable {chosen : List (Nat × Nat)} {below : DummyLevel}

/-- What a successful descent gives. -/
theorem descend_ok (h : descend d ctx l = .ok (chosen, below)) :
    ∃ vs, chosen = (l.equations.take l.differentiated).zip vs ∧
      below.depths = (l.depths.take l.differentiated).map (· - 1) ∧
      below.equations = (l.equations.take l.differentiated).filterMap d.parent? := by
  unfold descend at h
  dsimp only at h
  split at h
  · simp at h
  · obtain ⟨rfl, rfl⟩ := Prod.mk.inj (Except.ok.inj h)
    exact ⟨_, rfl, rfl, rfl⟩

theorem Sound.descend (hs : d.Sound) (hl : l.Sound d N) (h : descend d ctx l = .ok (chosen, below)) :
    below.Sound d N ∧ chosen.length ≤ below.equations.length := by
  obtain ⟨vs, rfl, hdepths, heqs⟩ := descend_ok h
  have htake : List.Forall₂ (fun i c => ∃ r < N, Descends d r c i)
      (l.equations.take l.differentiated) (l.depths.take l.differentiated) :=
    List.forall₂_take _ hl.descends
  have hbelow := forall₂_parent hs htake (take_countP hl.sorted)
  rw [← hdepths, ← heqs] at hbelow
  refine ⟨⟨hbelow, ?_⟩, ?_⟩
  · rw [hdepths]
    exact List.pairwise_map.mpr ((hl.sorted.sublist (List.take_sublist _ _)).imp fun h => by omega)
  · rw [hbelow.length_eq, hdepths, List.length_map, List.length_zip, ← htake.length_eq]
    exact Nat.min_le_left _ _

theorem levels_succ {fuel : Nat} {b : DummyBlock} (h : levels d ctx (fuel + 1) l = .ok b) :
    (l.differentiated = 0 ∧ b = ⟨[l.equations], []⟩) ∨
      (l.differentiated ≠ 0 ∧ ∃ chosen below rest, descend d ctx l = .ok (chosen, below) ∧
        levels d ctx fuel below = .ok rest ∧
        b = ⟨l.equations :: rest.levels, chosen ++ rest.chosen⟩) := by
  rw [levels] at h
  split at h
  · next hzero => exact Or.inl ⟨hzero, (Except.ok.inj h).symm⟩
  · next hzero =>
    refine Or.inr ⟨hzero, ?_⟩
    rcases hd : descend d ctx l with e | ⟨chosen, below⟩
    · simp [hd, bind, Except.bind] at h
    · rcases hr : levels d ctx fuel below with e | rest
      · simp [hd, hr, bind, Except.bind] at h
      · simp only [hd, hr, bind, Except.bind, pure, Except.pure, Except.ok.injEq] at h
        exact ⟨chosen, below, rest, rfl, hr, h.symm⟩

theorem Sound.descends_of_mem (hl : l.Sound d N) {i : Nat} (hi : i ∈ l.equations) :
    ∃ r < N, ∃ c, Descends d r c i := by
  obtain ⟨c, -, r, hr, hd⟩ := exists_of_forall₂ hl.descends i hi
  exact ⟨r, hr, c, hd⟩

/-- A block has an equation more for each derivative that is chosen in it. -/
theorem Sound.levels (hs : d.Sound) : ∀ {fuel : Nat} {l : DummyLevel} {b : DummyBlock},
    l.Sound d N → levels d ctx fuel l = .ok b →
      l.equations.length + b.chosen.length ≤ b.levels.flatten.length ∧
        ∀ i ∈ b.levels.flatten, ∃ r < N, ∃ c, Descends d r c i
  | 0, l, b, hl, h => by
    obtain rfl := Except.ok.inj h
    exact ⟨by simp, fun i hi => hl.descends_of_mem (by simpa using hi)⟩
  | fuel + 1, l, b, hl, h => by
    rcases levels_succ h with ⟨-, rfl⟩ | ⟨-, chosen, below, rest, hd, hr, rfl⟩
    · exact ⟨by simp, fun i hi => hl.descends_of_mem (by simpa using hi)⟩
    · obtain ⟨hbelow, hle⟩ := hl.descend hs hd
      obtain ⟨hcount, hdesc⟩ := Sound.levels hs hbelow hr
      rw [List.flatten_cons]
      refine ⟨by rw [List.length_append, List.length_append]; omega, fun i hi => ?_⟩
      rw [List.mem_append] at hi
      exact hi.elim hl.descends_of_mem (hdesc i)

end DummyLevel

namespace DummySystem

theorem block_ok (h : Covered s N N b d) {is : List Nat} (his : ∀ i ∈ is, i < d.exprs.length)
    {y : DummyBlock} (hy : block d ctx is = .ok y) :
    is.length + y.chosen.length ≤ (equationsOf y).length ∧
      ∀ i ∈ equationsOf y, ∃ r < N, ∃ c, Descends d r c i := by
  have hperm : (equationsOf y).Perm y.levels.flatten := (List.reverse_perm _).flatten
  obtain ⟨hcount, hdesc⟩ := (DummyLevel.sound_top h his).levels h.sound hy
  rw [DummyLevel.length_equations_top] at hcount
  exact ⟨hperm.length_eq ▸ hcount, fun i hi => hdesc i (hperm.mem_iff.mp hi)⟩

/-- The equations of all blocks with their dummies put in, in the order of the blocks. -/
def equations (d : Differentiation) (ys : List DummyBlock) (dummies : List (Var × Var)) :
    List Expr :=
  ((ys.flatMap equationsOf).filterMap fun i => d.exprs[i]?).map
    (Expr.substitute (Lowered.replacement dummies))

/-- What the choice of dummies gives. -/
structure Chosen (d : Differentiation) (ctx : DummyContext) (known : List Var)
    (taken : List String) (ys : List DummyBlock) (x : DummySystem) : Prop where
  blocks : List.Forall₂ (fun is y => block d ctx is = .ok y) d.blocks ys
  dummies : x.dummies = (ys.flatMap DummyBlock.chosen).map fun p =>
    (d.var p.2, ⟨dummyName (d.var p.2), 0⟩)
  lowered : x.lowered = lowerOrder known taken (equations d ys x.dummies)
  exprs : x.exprs = x.lowered.exprs
  structure_ : x.structure_ = Structure.ofExprs known x.exprs
  count : x.structure_.derivatives.length + x.structure_.algebraic.length = x.exprs.length

variable {known : List Var} {taken : List String} {x : DummySystem}

theorem dummies_ok (h : d.dummies ctx d.blocks known taken = .ok x) :
    ∃ ys, Chosen d ctx known taken ys x := by
  unfold Differentiation.dummies at h
  rcases hys : d.blocks.mapM (block d ctx) with e | ys
  · simp [hys, bind, Except.bind] at h
  · simp only [hys, bind, Except.bind, pure, Except.pure] at h
    split at h
    · simp [throw, throwThe, MonadExceptOf.throw] at h
    · next hcount =>
      obtain rfl := Except.ok.inj h
      exact ⟨ys, mapM_ok hys, rfl, rfl, rfl, rfl, not_not.mp hcount⟩

/-! ### Counting -/

variable {ys : List DummyBlock}

theorem count_blocks (h : Covered s N N b d) {iss : List (List Nat)}
    (hys : List.Forall₂ (fun is y => block d ctx is = .ok y) iss ys)
    (his : ∀ is ∈ iss, ∀ i ∈ is, i < d.exprs.length) :
    iss.flatten.length + (ys.flatMap DummyBlock.chosen).length ≤
        (ys.flatMap equationsOf).length ∧
      ∀ i ∈ ys.flatMap equationsOf, i < d.exprs.length := by
  induction hys with
  | nil => simp
  | cons hy _ ih =>
    obtain ⟨hi, his⟩ := List.forall_mem_cons.mp his
    obtain ⟨hcount, hdesc⟩ := block_ok h hi hy
    obtain ⟨hrest, hlt⟩ := ih his
    rw [List.flatten_cons, List.flatMap_cons, List.flatMap_cons, List.length_append,
      List.length_append, List.length_append]
    refine ⟨by omega, fun i hi => (List.mem_append.mp hi).elim (fun hi => ?_) (hlt i)⟩
    obtain ⟨r, hr, c, hd⟩ := hdesc i hi
    cases hd with
    | refl => exact Nat.lt_of_lt_of_le hr h.originals
    | step _ he => exact (h.sound.derivedEq_lt he).2

theorem Chosen.count_equations (hx : Chosen d ctx known taken ys x) (h : Covered s N N b d) :
    d.blocks.flatten.length + (ys.flatMap DummyBlock.chosen).length ≤
        (ys.flatMap equationsOf).length ∧
      ∀ i ∈ ys.flatMap equationsOf, i < d.exprs.length :=
  count_blocks h hx.blocks fun is his _ hi =>
    (mem_leaves.mp (flatten_blocks_perm.mem_iff.mp (List.mem_flatten.mpr ⟨is, his, hi⟩))).1

/-- There are at least as many equations as original ones and dummies together. -/
theorem Chosen.length_le (hx : Chosen d ctx known taken ys x) (h : Covered s N N b d) :
    N + x.dummies.length ≤ (equations d ys x.dummies).length := by
  obtain ⟨hcount, hlt⟩ := hx.count_equations h
  have hall : ((ys.flatMap equationsOf).filterMap fun i => d.exprs[i]?).length =
      (ys.flatMap equationsOf).length :=
    List.filterMap_length_eq_length.mpr fun i hi => by simpa using hlt i hi
  have hleaves := h.le_length_leaves
  rw [← flatten_blocks_perm.length_eq] at hleaves
  rw [equations, List.length_map, hall, hx.dummies, List.length_map]
  omega

theorem Chosen.dummy_eq (hx : Chosen d ctx known taken ys x) {p : Var × Var}
    (hp : p ∈ x.dummies) : p.2 = ⟨dummyName p.1, 0⟩ := by
  rw [hx.dummies] at hp
  obtain ⟨q, -, rfl⟩ := List.mem_map.mp hp
  rfl

/-- Functions of the equations with dummies were there before or are dummies. -/
theorem Chosen.equations_over (hx : Chosen d ctx known taken ys x) {R : Var → Prop}
    (hd : ∀ e ∈ d.exprs, e.Over R) (hdummy : ∀ p ∈ x.dummies, R p.2) :
    ∀ e ∈ equations d ys x.dummies, e.Over R := by
  intro e he
  obtain ⟨f, hf, rfl⟩ := List.mem_map.mp he
  obtain ⟨i, -, hi⟩ := List.mem_filterMap.mp hf
  refine Expr.Over.substitute (fun t g ht => ?_)
    ((hd f (List.mem_of_getElem? hi)).imp fun v hv _ => hv)
  obtain ⟨p, hp, -, rfl⟩ := Lowered.lookup_replacement ht
  have hbase : p.2.base = p.2 := Var.base_of_order (congrArg Var.order (hx.dummy_eq hp))
  exact Expr.within_var.mpr (hbase.symm ▸ hdummy p hp : R p.2.base)

/-- The functions of the equations with dummies are those of the original equations, the dummies
and the variables of the second lowering, each once. -/
theorem Chosen.functions_perm (hx : Chosen d ctx known taken ys x) (h : Covered s N N b d)
    (hs : s.exprs.length = N) (hknown : ∀ v ∈ known, v.order = 0) {fs : List Var}
    (hfs : fs.length = N) (hes : ∀ e ∈ s.exprs, e.Over fun v => v ∈ fs ∨ v ∈ known) :
    x.structure_.functions.Perm (fs ++ (x.dummies.map Prod.snd ++ x.lowered.newVars)) := by
  let R : Var → Prop := fun v =>
    v ∈ fs ++ (x.dummies.map Prod.snd ++ x.lowered.newVars) ∨ v ∈ known
  have hfirst : FirstOrder known x.exprs := by
    rw [hx.exprs, hx.lowered]
    exact firstOrder_lowerOrder
  have hover : ∀ e ∈ x.exprs, e.Over R := by
    have hd : ∀ e ∈ d.exprs, e.Over R := h.exprs_over hs fun e he =>
      (hes e he).imp fun _ => Or.imp_left (List.mem_append_left _)
    have hdummy : ∀ p ∈ x.dummies, R p.2 := fun p hp =>
      Or.inl (List.mem_append_right _ (List.mem_append_left _ (List.mem_map_of_mem hp)))
    rw [hx.exprs, hx.lowered]
    refine over_lowerOrder (hx.equations_over hd hdummy) fun v hv => Or.inl ?_
    rw [hx.lowered]
    exact List.mem_append_right _ (List.mem_append_right _ hv)
  have hsub : x.structure_.functions ⊆
      fs ++ (x.dummies.map Prod.snd ++ x.lowered.newVars) := by
    intro v hv
    rw [hx.structure_, Structure.mem_functions_ofExprs hknown] at hv
    obtain ⟨hn, e, he, hv⟩ := hv
    exact (Expr.over_iff.mp (hover e he) v hv).resolve_right hn
  have hlength : (fs ++ (x.dummies.map Prod.snd ++ x.lowered.newVars)).length ≤
      x.structure_.functions.length := by
    have hcount := hx.count
    have hexprs : x.exprs.length =
        (equations d ys x.dummies).length + x.lowered.newVars.length := by
      rw [hx.exprs, hx.lowered]
      exact length_lowerOrder
    have hle := hx.length_le h
    rw [hx.structure_, Structure.length_derivatives hfirst, ← hx.structure_] at hcount
    simp only [Structure.functions, List.length_append, List.length_map] at *
    omega
  have hnodup : x.structure_.functions.Nodup := by
    rw [hx.structure_]
    exact Structure.nodup_functions_ofExprs
  exact (hnodup.subperm hsub).perm_of_length_le hlength

end DummySystem

end Flange

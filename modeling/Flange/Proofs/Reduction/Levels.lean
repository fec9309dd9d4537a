import Flange.Proofs.Expr.Isolated
import Flange.Proofs.Expr.Pivots
import Flange.Proofs.Reduction.Leaves

/-! # Levels of a block

Each descent from a level of a block to the next one goes from differentiated equations to those
they are derivatives of, and from chosen derivatives to their integrals.
-/

namespace Flange

open Differentiation

namespace DummyLevel

/-! ### Selections -/

section Select

variable {α β : Type} {R : α → β → Prop} {xs : List α} {ys : List β} {is : List Nat}

theorem select_map (f : α → β) (xs : List α) (is : List Nat) :
    select (xs.map f) is = (select xs is).map f := by
  simp only [select, List.map_filterMap, List.getElem?_map]

theorem select_subset (xs : List α) (is : List Nat) : select xs is ⊆ xs := by
  intro x hx
  obtain ⟨i, -, hi⟩ := List.mem_filterMap.mp hx
  exact List.mem_of_getElem? hi

theorem length_select (h : ∀ i ∈ is, i < xs.length) : (select xs is).length = is.length :=
  List.filterMap_length_eq_length.mpr fun i hi => by simpa using h i hi

theorem nodup_select (hxs : xs.Nodup) (his : is.Nodup) : (select xs is).Nodup :=
  his.filterMap fun _ _ _ hi hj =>
    (List.getElem?_inj (lt_of_getElem? hi) hxs).mp (Eq.trans hi (Eq.symm hj))

theorem forall₂_select (h : List.Forall₂ R xs ys) :
    ∀ is, List.Forall₂ R (select xs is) (select ys is)
  | [] => .nil
  | i :: is => by
    have ih := forall₂_select h is
    rcases forall₂_getElem? h i with ⟨x, y, hx, hy, hxy⟩ | ⟨hx, hy⟩
    · simpa [select, hx, hy] using ⟨hxy, ih⟩
    · simpa [select, hx, hy] using ih

end Select

/-! ### Descents -/

/-- The Jacobian of the equations `tops` in the variables `highs`. -/
def jacobianOf (d : Differentiation) (tops highs : List Nat) : List (List Expr) :=
  tops.map fun e => highs.map fun h => (d.exprs.getD e .zero).partialDerivative (.var (d.var h))

/-- What is chosen at the levels of a block, each with the level below it. -/
def descents (d : Differentiation) (ctx : DummyContext) :
    (fuel : Nat) → DummyLevel → List (List (Nat × Nat) × DummyLevel)
  | 0, _ => []
  | fuel + 1, l =>
    if l.differentiated = 0 then []
    else match descend d ctx l with
    | .error _ => []
    | .ok (chosen, below) => (chosen, below) :: descents d ctx fuel below

variable {d s : Differentiation} {ctx : DummyContext} {l below : DummyLevel}
  {block tops highs : List Nat} {i e j h k N b : Nat} {chosen : List (Nat × Nat)}

theorem levels_eq_descents : ∀ {fuel : Nat} {l : DummyLevel} {b : DummyBlock},
    levels d ctx fuel l = .ok b →
      b.levels = l.equations :: (descents d ctx fuel l).map (fun p => p.2.equations) ∧
        b.chosen = (descents d ctx fuel l).flatMap Prod.fst
  | 0, l, b, h => by
    obtain rfl := Except.ok.inj h
    exact ⟨rfl, rfl⟩
  | fuel + 1, l, b, h => by
    rw [descents]
    rcases levels_succ h with ⟨hzero, rfl⟩ | ⟨hne, chosen, below, rest, hd, hr, rfl⟩
    · rw [if_pos hzero]
      exact ⟨rfl, rfl⟩
    · obtain ⟨hlevels, hchosen⟩ := levels_eq_descents hr
      rw [if_neg hne, hd]
      simp [hlevels, hchosen]

/-! ### What a level consists of -/

theorem pivotColumns_sublist (rows : List (List Expr)) :
    (Expr.pivotColumns rows).Sublist (List.range ((rows.head?.map List.length).getD 0)) :=
  Fraction.pivots_sublist _ _ _

theorem integral?_eq (hs : d.Sound) (hj : d.derivedVarOf i = some j) : d.integral? j = some i := by
  rw [integral?, List.findIdx?_eq_some_iff_getElem]
  have hi : d.derivedVar[i]? = some (some j) := Option.join_eq_some_iff.mp hj
  refine ⟨lt_of_getElem? hi, ?_, fun m hm hmj => ?_⟩
  · simp [(List.getElem?_eq_some_iff.mp hi).2]
  · have hlt : m < d.derivedVar.length := hm.trans (lt_of_getElem? hi)
    have hmj : d.derivedVarOf m = some j := by
      simpa [derivedVarOf, List.getElem?_eq_getElem hlt] using hmj
    exact absurd (hs.derivedVar_inj hmj hj) (Nat.ne_of_lt hm)

theorem forall₂_integral (hs : d.Sound) {ws : List Nat}
    (h : ∀ w ∈ ws, ∃ j, d.derivedVarOf j = some w) :
    List.Forall₂ (fun j w => d.derivedVarOf j = some w) (ws.filterMap d.integral?) ws := by
  induction ws with
  | nil => exact .nil
  | cons w ws ih =>
    obtain ⟨⟨j, hj⟩, hws⟩ := List.forall_mem_cons.mp h
    rw [List.filterMap_cons_some (integral?_eq hs hj)]
    exact .cons hj (ih hws)

/-- Equations that are derivatives are the derivatives of their parents. -/
theorem forall₂_derived (hs : d.Sound) {is cs : List Nat}
    (hd : List.Forall₂ (fun i c => ∃ r < N, Descends d r c i) is cs) (hc : ∀ c ∈ cs, c ≠ 0) :
    List.Forall₂ (fun p i => d.derivedEqOf p = some i) (is.filterMap d.parent?) is := by
  induction hd with
  | nil => exact .nil
  | cons hic _ ih =>
    obtain ⟨hc, hcs⟩ := List.forall_mem_cons.mp hc
    obtain ⟨r, hr, hd⟩ := hic
    cases hd with
    | refl => exact absurd rfl hc
    | step hd he =>
      rw [List.filterMap_cons_some (parent?_eq hs he)]
      exact .cons he (ih hcs)

/-- Variable `h` is variable `j` differentiated `k` times. -/
def Lifts (d : Differentiation) (k j h : Nat) : Prop :=
  ∃ v, d.vars[j]? = some v ∧ d.vars[h]? = some (v.der k)

/-- The equations and variables of a level, differentiated `k` times, are the equations `tops` of
the block and the variables `highs` that equations of the block are matched to. -/
structure At (d : Differentiation) (block : List Nat) (k : Nat) (l : DummyLevel)
    (tops highs : List Nat) : Prop where
  equations : List.Forall₂ (fun i e => Descends d i k e) l.equations tops
  vars : List.Forall₂ (Lifts d k) l.vars highs
  inBlock : tops ⊆ block
  matched : ∀ h ∈ highs, ∃ e ∈ block, d.matchedVar? e = some h
  nodup : highs.Nodup
  jacobian : l.differentiated ≠ 0 → l.jacobian = jacobianOf d tops highs

theorem equations_top_perm (block : List Nat) : (top d block).equations.Perm block := by
  have := ((sortedBy_perm _ _).map Prod.snd : (d.descent.byDepth block).map Prod.snd |>.Perm _)
  simpa [top, Digraph.byDepth, List.map_map, Function.comp_def] using this

theorem at_top (hd : Covered s N N b d) (hnodup : block.Nodup) :
    ∃ tops highs, (top d block).At d block 0 tops highs := by
  have hperm : (top d block).equations.Perm block := equations_top_perm block
  have hvar : ∀ h ∈ (top d block).vars, ∃ e ∈ block, d.matchedVar? e = some h := by
    intro h hh
    obtain ⟨e, he, hm⟩ := List.mem_filterMap.mp hh
    exact ⟨e, hperm.mem_iff.mp he, hm⟩
  refine ⟨(top d block).equations, (top d block).vars, List.forall₂_same.mpr fun _ _ => .refl,
    List.forall₂_same.mpr fun h hh => ?_, hperm.subset, hvar, ?_, fun hm => ?_⟩
  · obtain ⟨e, -, hm⟩ := hvar h hh
    have hget := List.getElem?_eq_getElem (hd.sound.assigned_lt (assigned_of_matchedVar? hm))
    exact ⟨_, hget, by rw [hget, Var.der_zero]⟩
  · refine (hperm.nodup_iff.mpr hnodup).filterMap fun e f h he hf => ?_
    have he := assigned_of_matchedVar? he
    exact Option.some.inj (he.symm.trans (assigned_of_matchedVar? hf))
  · have hdeep : (d.descent.byDepth block).all (fun p => p.1 == 0) = false := by
      rw [List.all_eq_false]
      obtain ⟨c, hc, hne⟩ := List.countP_pos_iff.mp (Nat.pos_of_ne_zero hm)
      obtain ⟨p, hp, rfl⟩ := List.mem_map.mp hc
      exact ⟨p, hp, by simpa using hne⟩
    simp [top, hdeep, jacobianOf]

/-- A descent from level `k`. The equations `tops` and the variables `highs` of the block are the
equations of the level below and the chosen derivatives, differentiated `k + 1` and `k` times. -/
structure Descent (d : Differentiation) (block : List Nat) (k : Nat) (l : DummyLevel)
    (chosen : List (Nat × Nat)) (below : DummyLevel) (gs ws tops highs : List Nat) : Prop where
  chosen : chosen = gs.zip ws
  square : gs.length = ws.length
  derived : gs ⊆ l.equations
  selected : ws ⊆ l.vars
  parents : List.Forall₂ (fun i g => d.derivedEqOf i = some g) below.equations gs
  equations : List.Forall₂ (fun i e => Descends d i (k + 1) e) below.equations tops
  inBlock : tops ⊆ block
  lifts : List.Forall₂ (Lifts d k) ws highs
  matched : ∀ h ∈ highs, ∃ e ∈ block, d.matchedVar? e = some h
  nodup : highs.Nodup
  jacobian : below.jacobian = jacobianOf d tops highs
  entries : ∀ h ∈ highs, ∃ e ∈ tops,
    (d.exprs.getD e .zero).partialDerivative (.var (d.var h)) ≠ .zero
  vars : below.vars = ws.filterMap d.integral?

theorem At.pivots_sublist (ctx : DummyContext) (hat : l.At d block k tops highs)
    (hm : l.differentiated ≠ 0) :
    (Expr.pivotColumns ((l.jacobian.take l.differentiated).map
      (select · (l.columnOrder d ctx)))).Sublist
        (List.range (select l.vars (l.columnOrder d ctx)).length) := by
  refine (pivotColumns_sublist _).trans (List.range_sublist.mpr ?_)
  rw [hat.jacobian hm, (forall₂_select hat.vars _).length_eq]
  cases hhead : (((jacobianOf d tops highs).take l.differentiated).map
      (select · (l.columnOrder d ctx))).head? with
  | none => simp
  | some row =>
    obtain ⟨x, hx, rfl⟩ := List.mem_map.mp (List.mem_of_head? hhead)
    obtain ⟨e, -, rfl⟩ := List.mem_map.mp (List.take_subset _ _ hx)
    simp [select_map]

/-- What is chosen occurs in one of the equations of the level. -/
theorem At.exists_entry (ctx : DummyContext) (hat : l.At d block k tops highs)
    (hm : l.differentiated ≠ 0) :
    ∀ h ∈ select (select highs (l.columnOrder d ctx)) (Expr.pivotColumns
      ((l.jacobian.take l.differentiated).map (select · (l.columnOrder d ctx)))),
      ∃ e ∈ tops.take l.differentiated,
        (d.exprs.getD e .zero).partialDerivative (.var (d.var h)) ≠ .zero := by
  intro h hh
  obtain ⟨j, hj, hjh⟩ := List.mem_filterMap.mp hh
  obtain ⟨row, hrow, f, hf, hne⟩ := Expr.exists_ne_zero_of_mem_pivotColumns hj
  rw [hat.jacobian hm, jacobianOf, ← List.map_take, List.map_map] at hrow
  obtain ⟨e, he, rfl⟩ := List.mem_map.mp hrow
  rw [Function.comp_apply, select_map, List.getElem?_map, hjh, Option.map_some] at hf
  exact ⟨e, he, Option.some.inj hf ▸ hne⟩

theorem At.descend (hat : l.At d block k tops highs) (hs : d.Sound) (hl : l.Sound d N)
    (hm : l.differentiated ≠ 0) (hd : descend d ctx l = .ok (chosen, below)) :
    ∃ gs ws tops highs, Descent d block k l chosen below gs ws tops highs := by
  have hrange := hat.pivots_sublist ctx hm
  have hentries := hat.exists_entry ctx hm
  unfold DummyLevel.descend at hd
  dsimp only at hd
  split at hd
  · simp at hd
  next hlen =>
  obtain ⟨rfl, rfl⟩ := Prod.mk.inj (Except.ok.inj hd)
  generalize Expr.pivotColumns _ = pivots at hlen hrange hentries ⊢
  have hlen : pivots.length = l.differentiated := not_not.mp hlen
  have hparents : List.Forall₂ (fun i g => d.derivedEqOf i = some g)
      ((l.equations.take l.differentiated).filterMap d.parent?)
      (l.equations.take l.differentiated) :=
    forall₂_derived hs (List.forall₂_take _ hl.descends) (take_countP hl.sorted)
  have hlift := forall₂_select (forall₂_select hat.vars (l.columnOrder d ctx)) pivots
  have horder : (l.columnOrder d ctx).Nodup :=
    (sortedBy_perm _ _).nodup_iff.mpr List.nodup_range
  have hsquare : (l.equations.take l.differentiated).length =
      (select (select l.vars (l.columnOrder d ctx)) pivots).length := by
    have hle : l.differentiated ≤ l.equations.length := by
      rw [hl.descends.length_eq]
      exact List.countP_le_length
    rw [length_select fun i hi => List.mem_range.mp (hrange.subset hi), hlen, List.length_take,
      Nat.min_eq_left hle]
  exact ⟨l.equations.take l.differentiated, select (select l.vars (l.columnOrder d ctx)) pivots,
    tops.take l.differentiated, select (select highs (l.columnOrder d ctx)) pivots,
    { chosen := rfl
      square := hsquare
      derived := List.take_subset _ _
      selected := fun w hw => select_subset _ _ (select_subset _ _ hw)
      parents := hparents
      equations := forall₂_comp hparents (List.forall₂_take _ hat.equations) fun he hd => hd.head he
      inBlock := fun e he => hat.inBlock (List.take_subset _ _ he)
      lifts := hlift
      matched := fun h hh => hat.matched h (select_subset _ _ (select_subset _ _ hh))
      nodup := nodup_select (nodup_select hat.nodup horder) (hrange.nodup List.nodup_range)
      jacobian := by
        simp only [hat.jacobian hm, jacobianOf, ← List.map_take, List.map_map, Function.comp_def,
          select_map]
      entries := hentries
      vars := rfl }⟩

/-! ### Integrals -/

theorem Descent.length_eq {gs ws : List Nat}
    (h : Descent d block k l chosen below gs ws tops highs) : tops.length = highs.length := by
  rw [← h.lifts.length_eq, ← h.square, ← h.parents.length_eq, h.equations.length_eq]

theorem Descent.parent_of_top {gs ws : List Nat}
    (h : Descent d block k l chosen below gs ws tops highs) (he : e ∈ tops) :
    ∃ i ∈ below.equations, Descends d i (k + 1) e := by
  obtain ⟨i, hi, hd⟩ := exists_of_forall₂ h.equations.flip e he
  exact ⟨i, hi, hd⟩

/-- Chosen derivatives that occur in the differentiated equations have integrals. -/
theorem Descent.integrals {gs ws : List Nat} (hs : d.Sound)
    (h : Descent d block k l chosen below gs ws tops highs)
    (hhigh : ∀ h ∈ highs, d.derivedVarOf h = none)
    (hocc : ∀ h ∈ highs, ∃ e ∈ tops, h ∈ d.row e) :
    List.Forall₂ (fun j w => d.derivedVarOf j = some w) below.vars ws := by
  rw [h.vars]
  refine forall₂_integral hs fun w hw => ?_
  obtain ⟨g, hg, v, hv, hvg⟩ := exists_of_forall₂ h.lifts w hw
  obtain ⟨e, he, hge⟩ := hocc g hg
  obtain ⟨i, -, hi⟩ := h.parent_of_top he
  obtain ⟨m, hm, u, c, hc, hu, hder⟩ := hi.row_down hs hge hvg
  obtain ⟨n, -, hn⟩ := hi.row_up hs hm hu
  -- the derivative that occurs is the highest one, so it is differentiated as often as `i`
  have hck : c = k + 1 := by
    by_contra hne
    have hlt : c + 1 ≤ k + 1 := by omega
    refine hs.not_mem_of_highest (hhigh g hg) hvg ?_
    rw [hder, Var.der_der]
    exact hs.der_mem hlt (List.mem_of_getElem? hn)
  subst hck
  obtain rfl : v = u.der :=
    Var.der_injective (hder.trans (by rw [Var.der_der, Nat.add_comm]))
  exact ⟨m, hs.derivedVar_iff.mpr ⟨u, hu, hv⟩⟩

theorem Descent.at_below {gs ws : List Nat}
    (h : Descent d block k l chosen below gs ws tops highs)
    (hint : List.Forall₂ (fun j w => d.derivedVarOf j = some w) below.vars ws) (hs : d.Sound) :
    below.At d block (k + 1) tops highs where
  equations := h.equations
  vars := forall₂_comp hint h.lifts fun {j w g} hj hw => by
    obtain ⟨v, hv, hg⟩ := hw
    obtain ⟨u, hu, hw⟩ := hs.derivedVar_iff.mp hj
    obtain rfl := Option.some.inj (hw.symm.trans hv)
    exact ⟨u, hu, by rw [hg, Var.der_der, Nat.add_comm]⟩
  inBlock := h.inBlock
  matched := h.matched
  nodup := h.nodup
  jacobian _ := h.jacobian

section Occupied

variable {known : List Var} {es : List Expr} (hd : d.Finished known es)

include hd

/-- What is chosen has an entry other than zero in its column, and so it occurs in an equation. -/
theorem Descent.occupied {gs ws : List Nat}
    (h : Descent d block k l chosen below gs ws tops highs) (hb : block ⊆ d.leaves) :
    ∀ g ∈ highs, ∃ e ∈ tops, g ∈ d.row e := by
  intro g hg
  obtain ⟨e, he, hne⟩ := h.entries g hg
  obtain ⟨e', he', hm⟩ := h.matched g hg
  have hrow := (hd.highest_of_matched (hb he') hm).1
  have hvar : d.vars[g]? = some (d.var g) := by
    have hget := List.getElem?_eq_getElem (hd.sound.row_lt hrow)
    rw [hget, var_eq hget]
  have hmem : .var (d.var g) ∈ (d.exprs.getD e .zero).symbolList := by
    by_contra hnot
    exact hne (Expr.partialDerivative_of_free fun u hu heq => hnot (heq ▸ hu))
  obtain ⟨j, hj, hjv⟩ := hd.exists_row_of_symbol (mem_leaves.mp (hb (h.inBlock he))).1
    (hd.base_not_mem_known hrow hvar) hmem
  obtain rfl : j = g := (List.getElem?_inj (lt_of_getElem? hjv) hd.sound.nodup).mp
    (hjv.trans hvar.symm)
  exact ⟨e, he, hj⟩

/-- All descents from a level. -/
theorem At.descents (hb : block ⊆ d.leaves) : ∀ {fuel k : Nat} {l : DummyLevel}
    {tops highs : List Nat}, l.At d block k tops highs → l.Sound d es.length →
      ∀ n p, (descents d ctx fuel l)[n]? = some p → ∃ l' gs ws tops highs,
        (l :: (descents d ctx fuel l).map Prod.snd)[n]? = some l' ∧
        Descent d block (k + n) l' p.1 p.2 gs ws tops highs ∧
        List.Forall₂ (fun j w => d.derivedVarOf j = some w) p.2.vars ws
  | 0, _, _, _, _, _, _ => by simp [DummyLevel.descents]
  | fuel + 1, k, l, tops, highs, hat, hsound => by
    intro n p hp
    rw [DummyLevel.descents] at hp ⊢
    split at hp
    · simp at hp
    next hm =>
    rw [if_neg hm]
    rcases hdesc : DummyLevel.descend d ctx l with e | ⟨chosen, below⟩
    · simp [hdesc] at hp
    simp only [hdesc] at hp ⊢
    obtain ⟨gs, ws, tops', highs', h⟩ := hat.descend hd.sound hsound hm hdesc
    have hhigh : ∀ h ∈ highs', d.derivedVarOf h = none := fun g hg => by
      obtain ⟨e, he, hm⟩ := h.matched g hg
      exact (hd.highest_of_matched (hb he) hm).2
    have hint := h.integrals hd.sound hhigh (h.occupied hd hb)
    cases n with
    | zero =>
      obtain rfl := Option.some.inj hp
      exact ⟨l, gs, ws, tops', highs', rfl, h, hint⟩
    | succ n =>
      obtain ⟨l', gs', ws', tops'', highs'', hl', h', hint'⟩ :=
        (h.at_below hint hd.sound).descents hb (hsound.descend hd.sound hdesc).1 n p hp
      refine ⟨l', gs', ws', tops'', highs'', hl', ?_, hint'⟩
      rwa [Nat.add_right_comm, Nat.add_assoc] at h'

end Occupied

/-! ### Blocks -/

/-- The descents of a block. -/
def stepsOf (d : Differentiation) (ctx : DummyContext) (block : List Nat) :
    List (List (Nat × Nat) × DummyLevel) :=
  descents d ctx ((top d block).depths.foldl max 0) (top d block)

/-- The levels of a block, the most differentiated equations first. -/
def levelsOf (d : Differentiation) (ctx : DummyContext) (block : List Nat) : List DummyLevel :=
  top d block :: (stepsOf d ctx block).map Prod.snd

/-- In block `p` the derivative `w` is chosen `n` levels below the top. -/
def Chooses (d : Differentiation) (ctx : DummyContext) (p n w : Nat) : Prop :=
  ∃ block step, d.blocks[p]? = some block ∧ (stepsOf d ctx block)[n]? = some step ∧
    w ∈ step.1.map Prod.snd

theorem edge_dependencies (hi : i ∈ d.leaves) (hm : d.matchedVar? i = some j) (he : e ∈ d.leaves)
    (hne : e ≠ i) (hj : j ∈ d.row e) : d.dependencies.Edge i e := by
  refine List.mem_flatMap.mpr ⟨i, hi, ?_⟩
  rw [hm]
  refine List.mem_map.mpr ⟨e, List.mem_filter.mpr ⟨he, ?_⟩, rfl⟩
  simpa [row] using ⟨hne, hj⟩

theorem block_subset_leaves {p : Nat} (hp : d.blocks[p]? = some block) : block ⊆ d.leaves :=
  fun _ hi => flatten_blocks_perm.mem_iff.mp
    (List.mem_flatten.mpr ⟨block, List.mem_of_getElem? hp, hi⟩)

theorem nodup_block {p : Nat} (hp : d.blocks[p]? = some block) : block.Nodup :=
  (List.nodup_flatten.mp (Digraph.nodup_flatten_blocks closed_dependencies)).1 block
    (List.mem_of_getElem? hp)

variable {p q n n' : Nat} {step : List (Nat × Nat) × DummyLevel} {w z : Nat}

section Steps

variable {known : List Var} {es : List Expr} (hd : d.Finished known es)

include hd

/-- What a step in a block consists of. -/
theorem exists_descent (hp : d.blocks[p]? = some block)
    (hn : (stepsOf d ctx block)[n]? = some step) : ∃ l gs ws tops highs,
      (levelsOf d ctx block)[n]? = some l ∧
      Descent d block n l step.1 step.2 gs ws tops highs ∧
      List.Forall₂ (fun j w => d.derivedVarOf j = some w) step.2.vars ws := by
  obtain ⟨tops, highs, hat⟩ := at_top hd.covered (nodup_block hp)
  have hb := block_subset_leaves hp
  have hsound := sound_top hd.covered fun i hi => (mem_leaves.mp (hb hi)).1
  have h := hat.descents hd hb hsound n step hn
  rw [Nat.zero_add] at h
  exact h

/-- A chosen derivative is lifted to what an equation of its block is matched to. -/
theorem Chooses.exists_high (h : Chooses d ctx p n w) : ∃ block g e,
    d.blocks[p]? = some block ∧ Lifts d n w g ∧ e ∈ block ∧ d.matchedVar? e = some g := by
  obtain ⟨block, step, hp, hn, hw⟩ := h
  obtain ⟨l, gs, ws, tops, highs, -, h, -⟩ := exists_descent hd hp hn
  rw [h.chosen, List.map_snd_zip h.square.ge] at hw
  obtain ⟨g, hg, hlift⟩ := exists_of_forall₂ h.lifts w hw
  obtain ⟨e, he, hm⟩ := h.matched g hg
  exact ⟨block, g, e, hp, hlift, he, hm⟩

theorem Chooses.exists_var (h : Chooses d ctx p n w) : ∃ v, d.vars[w]? = some v := by
  obtain ⟨-, -, -, -, ⟨v, hv, -⟩, -⟩ := h.exists_high hd
  exact ⟨v, hv⟩

/-- A chosen derivative has an integral, which is a variable of the level below. -/
theorem Chooses.exists_integral (h : Chooses d ctx p n w) : ∃ block step z,
    d.blocks[p]? = some block ∧ (stepsOf d ctx block)[n]? = some step ∧ z ∈ step.2.vars ∧
      d.derivedVarOf z = some w := by
  obtain ⟨block, step, hp, hn, hw⟩ := h
  obtain ⟨l, gs, ws, tops, highs, -, h, hint⟩ := exists_descent hd hp hn
  rw [h.chosen, List.map_snd_zip h.square.ge] at hw
  obtain ⟨z, hz, hzw⟩ := exists_of_forall₂ hint.flip w hw
  exact ⟨block, step, z, hp, hn, hz, hzw⟩

/-- At the top highest derivatives are chosen. -/
theorem Chooses.highest (h : Chooses d ctx p 0 w) : d.derivedVarOf w = none := by
  obtain ⟨block, g, e, hp, ⟨v, hv, hg⟩, he, hm⟩ := h.exists_high hd
  rw [Var.der_zero] at hg
  obtain rfl : w = g := (List.getElem?_inj (lt_of_getElem? hv) hd.sound.nodup).mp
    (hv.trans hg.symm)
  exact (hd.highest_of_matched (block_subset_leaves hp he) hm).2

/-- The derivative of what is chosen below the top has been chosen before it. -/
theorem Chooses.above (h : Chooses d ctx p (n + 1) w) :
    ∃ w', d.derivedVarOf w = some w' ∧ Chooses d ctx p n w' := by
  obtain ⟨block, step, hp, hn, hw⟩ := h
  obtain ⟨l, gs, ws, tops, highs, hlevel, h, -⟩ := exists_descent hd hp hn
  rw [h.chosen, List.map_snd_zip h.square.ge] at hw
  have hmem : w ∈ l.vars := h.selected hw
  rw [levelsOf, List.getElem?_cons_succ, List.getElem?_map, Option.map_eq_some_iff] at hlevel
  obtain ⟨step', hn', rfl⟩ := hlevel
  obtain ⟨l', gs', ws', tops', highs', -, h', hint⟩ := exists_descent hd hp hn'
  obtain ⟨w', hw', hder⟩ := exists_of_forall₂ hint w hmem
  refine ⟨w', hder, block, step', hp, hn', ?_⟩
  rwa [h'.chosen, List.map_snd_zip h'.square.ge]

/-- A chosen derivative of a variable in an equation that is differentiated further is chosen at a
lower level, or at the same level of no later block. -/
theorem Chooses.order (hp : d.blocks[p]? = some block) {gs ws : List Nat}
    (h : Descent d block n l chosen below gs ws tops highs) (hi : i ∈ below.equations)
    (hz : z ∈ d.row i) (hzw : d.derivedVarOf z = some w) (hw : Chooses d ctx q n' w) :
    n < n' ∨ n = n' ∧ q ≤ p := by
  obtain ⟨e, he, hie⟩ := exists_of_forall₂ h.equations i hi
  obtain ⟨block', g, e', hq, ⟨v, hv, hg⟩, he', hm⟩ := hw.exists_high hd
  obtain ⟨u, hu, hwu⟩ := hd.sound.derivedVar_iff.mp hzw
  obtain rfl := Option.some.inj (hwu.symm.trans hv)
  obtain ⟨m, hme, hmu⟩ := hie.row_up hd.sound hz hu
  have hleaf' := block_subset_leaves hq he'
  have hnone := (hd.highest_of_matched hleaf' hm).2
  rw [Var.der_der, Nat.add_comm] at hg
  have hle : n ≤ n' := by
    by_contra hlt
    refine hd.sound.not_mem_of_highest hnone hg ?_
    rw [Var.der_der]
    exact hd.sound.der_mem (by omega) (List.mem_of_getElem? hmu)
  rcases Nat.lt_or_eq_of_le hle with hlt | rfl
  · exact Or.inl hlt
  · refine Or.inr ⟨rfl, ?_⟩
    by_contra hlt
    obtain rfl : m = g := (List.getElem?_inj (lt_of_getElem? hmu) hd.sound.nodup).mp
      (hmu.trans hg.symm)
    have hdisjoint := pairwise_getElem? (Digraph.blocks_disjoint closed_dependencies)
      (Nat.lt_of_not_le hlt) hp hq
    have hordered := pairwise_getElem? (Digraph.blocks_ordered closed_dependencies)
      (Nat.lt_of_not_le hlt) hp hq
    have hne : e ≠ e' := fun heq => hdisjoint e (h.inBlock he) (heq ▸ he')
    exact hordered e' he' e (h.inBlock he)
      (edge_dependencies hleaf' hm (block_subset_leaves hp (h.inBlock he)) hne hme)

/-- No derivative of a known function is chosen. -/
theorem Chooses.base_not_mem_known (h : Chooses d ctx p n w) : (d.var w).base ∉ known := by
  obtain ⟨block, g, e, hp, ⟨v, hv, hg⟩, he, hm⟩ := h.exists_high hd
  have hrow := (hd.highest_of_matched (block_subset_leaves hp he) hm).1
  rw [var_eq hv]
  simpa using hd.base_not_mem_known hrow hg

end Steps

/-! ### Equations of a block -/

/-- Of equations with descending depths, those with a depth come first. -/
theorem mem_take_of_depth {R : Nat → Nat → Prop} {is cs : List Nat} (h : List.Forall₂ R is cs)
    (hcs : cs.Pairwise (· ≥ ·)) (hi : i ∈ is) (hdeep : ∀ c, R i c → c ≠ 0) :
    i ∈ is.take (cs.countP (· != 0)) := by
  induction h with
  | nil => exact absurd hi List.not_mem_nil
  | @cons k c is cs hkc his ih =>
    obtain ⟨hc, hcs⟩ := List.pairwise_cons.mp hcs
    by_cases hzero : c = 0
    · obtain ⟨c', hc', hic'⟩ := exists_of_forall₂ (.cons hkc his) i hi
      refine absurd ?_ (hdeep c' hic')
      rcases List.mem_cons.mp hc' with rfl | hc'
      · exact hzero
      · exact Nat.le_zero.mp (hzero ▸ hc c' hc')
    · rw [List.countP_cons_of_pos (by simpa using hzero), List.take_succ_cons]
      rcases List.mem_cons.mp hi with rfl | hi
      · exact List.mem_cons_self
      · exact List.mem_cons_of_mem _ (ih hcs hi)

/-- What an equation of a level is derived from stands at one of the levels below. -/
theorem mem_levels (hd : Covered s N N b d) : ∀ {fuel : Nat} {l : DummyLevel} {y : DummyBlock},
    l.Sound d N → (∀ c ∈ l.depths, c ≤ fuel) → levels d ctx fuel l = .ok y →
      ∀ {m i c}, i ∈ l.equations → Descends d m c i → m ∈ y.levels.flatten := by
  intro fuel
  -- an equation with a parent is not an original one
  have hdeep : ∀ {p i : Nat}, d.derivedEqOf p = some i →
      ∀ c, (∃ r < N, Descends d r c i) → c ≠ 0 := by
    rintro p i hpi _ ⟨r, hr, hri⟩ rfl
    obtain rfl := hri.functional .refl
    exact hd.noParent i hr p hpi
  induction fuel with
  | zero =>
    intro l y hl hdepths hy m i c hi hmi
    obtain ⟨c', hc', hroot⟩ := exists_of_forall₂ hl.descends i hi
    obtain rfl := Except.ok.inj hy
    cases hmi with
    | refl => simpa using hi
    | step _ hpi => exact absurd (Nat.le_zero.mp (hdepths c' hc')) (hdeep hpi c' hroot)
  | succ fuel ih =>
    intro l y hl hdepths hy m i c hi hmi
    cases hmi with
    | refl =>
      rw [(levels_eq_descents hy).1, List.flatten_cons]
      exact List.mem_append_left _ hi
    | @step c p i hmp hpi =>
      have htake := mem_take_of_depth hl.descends hl.sorted hi (hdeep hpi)
      rcases levels_succ hy with ⟨hzero, -⟩ | ⟨-, chosen, below, rest, hdesc, hrest, rfl⟩
      · have hnone : l.depths.countP (· != 0) = 0 := hzero
        simp [hnone] at htake
      · obtain ⟨-, -, hbelow, heqs⟩ := descend_ok hdesc
        rw [List.flatten_cons]
        refine List.mem_append_right _ (ih (hl.descend hd.sound hdesc).1 (fun c' hc' => ?_) hrest
          (i := p) ?_ hmp)
        · rw [hbelow] at hc'
          obtain ⟨c'', hc'', rfl⟩ := List.mem_map.mp hc'
          have := hdepths c'' (List.take_subset _ _ hc'')
          omega
        · rw [heqs]
          exact List.mem_filterMap.mpr ⟨i, htake, parent?_eq hd.sound hpi⟩

end DummyLevel

namespace DummySystem

open DummyLevel

variable {d s : Differentiation} {ctx : DummyContext} {known : List Var} {taken : List String}
  {ys : List DummyBlock} {x : DummySystem} {N b p n : Nat} {block : List Nat}
  {step : List (Nat × Nat) × DummyLevel}

/-- Each equation is among the equations of the blocks. -/
theorem Chosen.mem_equations (hx : Chosen d ctx known taken ys x) (h : Covered s N N b d) {i : Nat}
    (hi : i < d.exprs.length) : i ∈ ys.flatMap equationsOf := by
  obtain ⟨e, he, c, hd⟩ := h.exists_leaf hi
  obtain ⟨block, hblock, he⟩ := List.mem_flatten.mp (flatten_blocks_perm.mem_iff.mpr he)
  obtain ⟨y, hy, hok⟩ := exists_of_forall₂ hx.blocks block hblock
  obtain ⟨p, hp⟩ := List.mem_iff_getElem?.mp hblock
  have hsound := sound_top h fun i hi => (mem_leaves.mp (block_subset_leaves hp hi)).1
  have hperm : (top d block).equations.Perm block := equations_top_perm block
  refine List.mem_flatMap.mpr ⟨y, hy, ?_⟩
  rw [equationsOf, ((List.reverse_perm _).flatten).mem_iff]
  exact mem_levels h hsound (fun c hc => Lowered.le_foldl_max (Or.inr hc)) hok
    (hperm.mem_iff.mpr he) hd

theorem levels_of_block {y : DummyBlock} (hok : DummySystem.block d ctx block = .ok y) :
    y.levels = (levelsOf d ctx block).map DummyLevel.equations := by
  rw [levelsOf, (levels_eq_descents hok).1, List.map_cons, List.map_map]
  rfl

theorem chosen_of_block {y : DummyBlock} (hok : DummySystem.block d ctx block = .ok y) :
    y.chosen = (stepsOf d ctx block).flatMap Prod.fst := (levels_eq_descents hok).2

/-- A dummy stands for each chosen derivative. -/
theorem Chosen.mem_keys (hx : Chosen d ctx known taken ys x) {v : Var} :
    v ∈ x.dummies.map Prod.fst ↔ ∃ p n w, Chooses d ctx p n w ∧ d.var w = v := by
  rw [hx.dummies, List.map_map, List.mem_map]
  constructor
  · rintro ⟨pr, hpr, rfl⟩
    obtain ⟨y, hy, hpr⟩ := List.mem_flatMap.mp hpr
    obtain ⟨block, hblock, hok⟩ := exists_of_forall₂ hx.blocks.flip y hy
    obtain ⟨p, hp⟩ := List.mem_iff_getElem?.mp hblock
    rw [chosen_of_block hok] at hpr
    obtain ⟨step, hstep, hpr⟩ := List.mem_flatMap.mp hpr
    obtain ⟨n, hn⟩ := List.mem_iff_getElem?.mp hstep
    exact ⟨p, n, pr.2, ⟨block, step, hp, hn, List.mem_map_of_mem hpr⟩, rfl⟩
  · rintro ⟨p, n, w, ⟨block, step, hp, hn, hw⟩, rfl⟩
    obtain ⟨pr, hpr, rfl⟩ := List.mem_map.mp hw
    obtain ⟨y, hy, hok⟩ := exists_of_forall₂ hx.blocks block (List.mem_of_getElem? hp)
    refine ⟨pr, List.mem_flatMap.mpr ⟨y, hy, ?_⟩, rfl⟩
    rw [chosen_of_block hok]
    exact List.mem_flatMap.mpr ⟨step, List.mem_of_getElem? hn, hpr⟩

/-- Dummies stand for derivatives only. -/
theorem Chosen.order_of_key {es : List Expr} (hx : Chosen d ctx known taken ys x)
    (h : d.Finished known es) {q : Var × Var} (hq : q ∈ x.dummies) : q.1.order ≠ 0 := by
  obtain ⟨p, n, w, hc, hw⟩ := hx.mem_keys.mp (List.mem_map_of_mem hq)
  obtain ⟨-, -, z, -, -, -, hzw⟩ := hc.exists_integral h
  rw [← hw, var_der h.sound hzw]
  simp

end DummySystem

end Flange

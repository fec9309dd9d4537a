import Flange.Proofs.Reduction.Levels
import Flange.Proofs.Reduction.Matched

/-! # Selection of dummy derivatives

Going down the levels of the blocks meets every equation once. A derivative is chosen for each
equation that is not an original one, and with a derivative all higher derivatives of the function
have been chosen before.
-/

namespace Flange

open Differentiation

namespace DummyLevel

variable {d s : Differentiation} {ctx : DummyContext} {l : DummyLevel} {block block' : List Nat}
  {i n n' p q w : Nat} {step : List (Nat × Nat) × DummyLevel} {known : List Var}
  {es : List Expr}

/-! ### Equations of a level -/

theorem derivedEqOf_of_parent? (h : d.parent? i = some p) : d.derivedEqOf p = some i := by
  simpa using List.find?_some h

theorem nodup_descend {chosen : List (Nat × Nat)} {below : DummyLevel} (h : l.equations.Nodup)
    (hd : descend d ctx l = .ok (chosen, below)) : below.equations.Nodup := by
  obtain ⟨-, -, -, heq⟩ := descend_ok hd
  rw [heq]
  refine (h.sublist (List.take_sublist _ _)).filterMap fun i i' p hi hi' => ?_
  have hp := derivedEqOf_of_parent? hi
  exact Option.some.inj (hp.symm.trans (derivedEqOf_of_parent? hi'))

theorem nodup_descents : ∀ {fuel : Nat} {l : DummyLevel}, l.equations.Nodup →
    ∀ step ∈ descents d ctx fuel l, step.2.equations.Nodup
  | 0, _, _, _, hstep => absurd hstep List.not_mem_nil
  | fuel + 1, l, h, step, hstep => by
    rw [descents] at hstep
    split at hstep
    · exact absurd hstep List.not_mem_nil
    · split at hstep
      · exact absurd hstep List.not_mem_nil
      · next hd =>
        rcases List.mem_cons.mp hstep with rfl | hstep
        · exact nodup_descend h hd
        · exact nodup_descents (nodup_descend h hd) step hstep

theorem nodup_level (hp : d.blocks[p]? = some block) (hl : l ∈ levelsOf d ctx block) :
    l.equations.Nodup := by
  have htop : (top d block).equations.Nodup := (equations_top_perm block).nodup_iff.mpr
    (nodup_block hp)
  rcases List.mem_cons.mp hl with rfl | hl
  · exact htop
  · obtain ⟨step, hstep, rfl⟩ := List.mem_map.mp hl
    exact nodup_descents htop step hstep

theorem leaf_of_block (hp : d.blocks[p]? = some block) (hi : i ∈ block) :
    d.derivedEqOf i = none := (mem_leaves.mp (block_subset_leaves hp hi)).2

variable (hd : d.Finished known es)

include hd

/-- An equation `n` levels below the top has been differentiated `n` times to give an equation of
the block. -/
theorem exists_leaf_of_level (hp : d.blocks[p]? = some block)
    (hn : (levelsOf d ctx block)[n]? = some l) (hi : i ∈ l.equations) :
    ∃ e ∈ block, Descends d i n e := by
  cases n with
  | zero =>
    obtain rfl := Option.some.inj hn
    exact ⟨i, (equations_top_perm block).mem_iff.mp hi, .refl⟩
  | succ n =>
    rw [levelsOf, List.getElem?_cons_succ, List.getElem?_map, Option.map_eq_some_iff] at hn
    obtain ⟨step, hn, rfl⟩ := hn
    obtain ⟨_, _, _, tops, _, _, h, -⟩ := exists_descent hd hp hn
    obtain ⟨e, he, hie⟩ := exists_of_forall₂ h.equations i hi
    exact ⟨e, h.inBlock he, hie⟩

/-- No equation stands at two levels of a block. -/
theorem nodup_levels (hp : d.blocks[p]? = some block) :
    ((levelsOf d ctx block).flatMap DummyLevel.equations).Nodup := by
  refine List.nodup_flatMap.mpr ⟨fun l hl => nodup_level hp hl, ?_⟩
  rw [List.pairwise_iff_getElem]
  intro m n hm hn hlt i hi hi'
  obtain ⟨e, he, hie⟩ :=
    exists_leaf_of_level hd hp (List.getElem?_eq_getElem hm) hi
  obtain ⟨e', -, hie'⟩ :=
    exists_leaf_of_level hd hp (List.getElem?_eq_getElem hn) hi'
  -- the equation of the block above the higher level would have been differentiated
  obtain ⟨k, hk⟩ := hie.exists_derivedEq hie' hlt
  simp [leaf_of_block hp he] at hk

/-- An equation is chosen for at each step that is not an original one. -/
theorem length_step (hp : d.blocks[p]? = some block) (hn : (stepsOf d ctx block)[n]? = some step) :
    step.1.length = step.2.equations.length := by
  obtain ⟨_, gs, ws, _, _, _, h, -⟩ := exists_descent hd hp hn
  rw [h.chosen, List.length_zip, ← h.square, Nat.min_self, ← h.parents.length_eq]

/-- For each chosen derivative its integral is found. -/
theorem integrals_of_step (hp : d.blocks[p]? = some block)
    (hn : (stepsOf d ctx block)[n]? = some step) :
    List.Forall₂ (fun c z => d.integral? c.2 = some z) step.1 step.2.vars := by
  obtain ⟨_, gs, ws, _, _, _, h, hint⟩ := exists_descent hd hp hn
  have hws : List.Forall₂ (fun w z => d.integral? w = some z) (step.1.map Prod.snd)
      step.2.vars := by
    rw [h.chosen, List.map_snd_zip h.square.ge]
    exact hint.flip.imp fun w z hz => integral?_eq hd.sound hz
  exact List.forall₂_map_left_iff.mp hws

/-- With a derivative that is chosen all higher derivatives are. -/
theorem Chooses.upward (h : Chooses d ctx p n w) : ∀ k, (d.var w).der k ∈ d.vars →
    ∃ n' w', Chooses d ctx p n' w' ∧ d.var w' = (d.var w).der k
  | 0, _ => ⟨n, w, h, (Var.der_zero _).symm⟩
  | k + 1, hk => by
    have hbelow : (d.var w).der k ∈ d.vars := hd.sound.der_mem (Nat.le_succ k) hk
    obtain ⟨n', w', h', hw'⟩ := h.upward k hbelow
    obtain ⟨v, hv⟩ := h'.exists_var hd
    have hder : v.der ∈ d.vars := by
      rwa [← var_eq hv, hw', Var.der_der]
    cases n' with
    | zero => exact absurd hder (hd.sound.not_mem_of_highest
        (h'.highest hd) hv)
    | succ n' =>
      obtain ⟨w'', hder, h''⟩ := h'.above hd
      exact ⟨n', w'', h'', by rw [var_der hd.sound hder, hw', Var.der_der]⟩

end DummyLevel

namespace DummySystem

open DummyLevel

variable {d : Differentiation} {ctx : DummyContext} {known : List Var} {taken : List String}
  {ys : List DummyBlock} {x : DummySystem} {es : List Expr} {y y' : DummyBlock}
  {block block' : List Nat} {i p q : Nat}

/-- Each equation stands once among those of the blocks, there are as many dummies as equations
beyond the `n` original ones, each for another derivative, and with a derivative the higher ones
have dummies too. -/
structure Selected (d : Differentiation) (n : Nat) (ys : List DummyBlock) (x : DummySystem) :
    Prop where
  equations : (ys.flatMap equationsOf).Perm (List.range d.exprs.length)
  length_dummies : x.dummies.length + n = d.exprs.length
  nodup_keys : (x.dummies.map Prod.fst).Nodup
  nodup_dummies : (x.dummies.map Prod.snd).Nodup
  key : ∀ v ∈ x.dummies.map Prod.fst, v ∈ d.vars ∧ v.order ≠ 0
  upward : ∀ v ∈ x.dummies.map Prod.fst, ∀ k, v.der k ∈ d.vars →
    v.der k ∈ x.dummies.map Prod.fst

theorem equationsOf_perm (hok : DummySystem.block d ctx block = .ok y) :
    (equationsOf y).Perm ((levelsOf d ctx block).flatMap DummyLevel.equations) := by
  rw [equationsOf, List.flatMap_def, ← levels_of_block hok]
  exact (List.reverse_perm _).flatten

variable (hd : d.Finished known es)

include hd

theorem exists_leaf_of_block (hp : d.blocks[p]? = some block)
    (hok : DummySystem.block d ctx block = .ok y) (hi : i ∈ equationsOf y) :
    ∃ e ∈ block, ∃ c, Descends d i c e := by
  obtain ⟨l, hlevel, hi⟩ := List.mem_flatMap.mp ((equationsOf_perm hok).mem_iff.mp hi)
  obtain ⟨n, hn⟩ := List.mem_iff_getElem?.mp hlevel
  obtain ⟨e, he, hie⟩ := exists_leaf_of_level hd hp hn hi
  exact ⟨e, he, n, hie⟩

/-- A block has an equation more for each derivative that is chosen in it. -/
theorem length_equationsOf (hp : d.blocks[p]? = some block)
    (hok : DummySystem.block d ctx block = .ok y) :
    (equationsOf y).length = block.length + y.chosen.length := by
  have hsteps : (stepsOf d ctx block).map (fun step => step.2.equations.length) =
      (stepsOf d ctx block).map fun step => step.1.length := by
    refine List.map_congr_left fun step hstep => ?_
    obtain ⟨n, hn⟩ := List.mem_iff_getElem?.mp hstep
    exact (length_step hd hp hn).symm
  rw [(equationsOf_perm hok).length_eq, levelsOf, List.flatMap_cons, List.length_append,
    (equations_top_perm block).length_eq, chosen_of_block hok, List.length_flatMap,
    List.length_flatMap, List.map_map]
  exact congrArg (fun m => block.length + m.sum) hsteps

/-- Blocks have no equation in common. -/
theorem disjoint_equationsOf (hp : d.blocks[p]? = some block) (hq : d.blocks[q]? = some block')
    (hlt : p < q) (hy : DummySystem.block d ctx block = .ok y)
    (hy' : DummySystem.block d ctx block' = .ok y') :
    (equationsOf y).Disjoint (equationsOf y') := by
  intro i hi hi'
  obtain ⟨e, he, c, hie⟩ := exists_leaf_of_block hd hp hy hi
  obtain ⟨e', he', c', hie'⟩ := exists_leaf_of_block hd hq hy' hi'
  obtain rfl := hie.leaf_unique hie' (leaf_of_block hp he) (leaf_of_block hq he')
  exact pairwise_getElem? (Digraph.blocks_disjoint closed_dependencies) hlt hp hq e he he'

variable (hx : Chosen d ctx known taken ys x)

include hx

theorem Chosen.nodup_equations : (ys.flatMap equationsOf).Nodup := by
  have hblock : ∀ {n : Nat} {y : DummyBlock}, ys[n]? = some y →
      ∃ block, d.blocks[n]? = some block ∧ DummySystem.block d ctx block = .ok y := by
    intro n y hn
    rcases forall₂_getElem? hx.blocks n with ⟨block, y', hblock, hy, hok⟩ | ⟨-, hnone⟩
    · exact ⟨block, hblock, Option.some.inj (hy.symm.trans hn) ▸ hok⟩
    · simp [hnone] at hn
  refine List.nodup_flatMap.mpr ⟨fun y hy => ?_, List.pairwise_iff_getElem.mpr ?_⟩
  · obtain ⟨n, hn⟩ := List.mem_iff_getElem?.mp hy
    obtain ⟨block, hp, hok⟩ := hblock hn
    exact (equationsOf_perm hok).nodup_iff.mpr (nodup_levels hd hp)
  · intro m n hm hn hlt
    obtain ⟨block, hp, hok⟩ := hblock (List.getElem?_eq_getElem hm)
    obtain ⟨block', hq, hok'⟩ := hblock (List.getElem?_eq_getElem hn)
    exact disjoint_equationsOf hd hp hq hlt hok hok'

/-- Each equation, original or derived, stands once among the equations of the blocks. -/
theorem Chosen.equations_perm : (ys.flatMap equationsOf).Perm (List.range d.exprs.length) := by
  refine (List.perm_ext_iff_of_nodup (hx.nodup_equations hd) List.nodup_range).mpr fun i => ?_
  rw [List.mem_range]
  exact ⟨(hx.count_equations hd.covered).2 i, hx.mem_equations hd.covered⟩

theorem Chosen.length_equations : (ys.flatMap equationsOf).length =
    d.blocks.flatten.length + x.dummies.length := by
  have hlengths : List.Forall₂ (fun y is => (equationsOf y).length = is.length + y.chosen.length)
      ys d.blocks := by
    refine forall₂_of_mem hx.blocks.flip fun y block hblock hok => ?_
    obtain ⟨p, hp⟩ := List.mem_iff_getElem?.mp hblock
    exact length_equationsOf hd hp hok
  rw [hx.dummies, List.length_map]
  clear hx
  generalize d.blocks = blocks at hlengths
  induction hlengths with
  | nil => rfl
  | cons hy _ ih =>
    simp only [List.flatMap_cons, List.flatten_cons, List.length_append, hy, ih]
    omega

theorem Chosen.key_mem {v : Var} (hv : v ∈ x.dummies.map Prod.fst) : v ∈ d.vars := by
  obtain ⟨p, n, w, hc, rfl⟩ := hx.mem_keys.mp hv
  obtain ⟨v, hv⟩ := hc.exists_var hd
  rw [var_eq hv]
  exact List.mem_of_getElem? hv

theorem Chosen.upward {v : Var} {k : Nat} (hv : v ∈ x.dummies.map Prod.fst)
    (hk : v.der k ∈ d.vars) : v.der k ∈ x.dummies.map Prod.fst := by
  obtain ⟨p, n, w, hc, rfl⟩ := hx.mem_keys.mp hv
  obtain ⟨n', w', hc', hw'⟩ := hc.upward hd k hk
  exact hx.mem_keys.mpr ⟨p, n', w', hc', hw'⟩

end DummySystem

namespace Reduction

open DummySystem DummyLevel

variable {s : EquationSystem} {a : Aliases} {t : Structure} {steps : Nat} {d : Differentiation}

/-- When equations that pass the structural check have been differentiated, the integral of each
derivative that is chosen on the way down the blocks is found; and when no choice fails, the
dummies and the equations they are put in are well chosen. -/
theorem selected_of_differentiate (hinputs : ∀ v ∈ s.inputs, v.order = 0)
    (hcheck : check s (lower s a).exprs = .ok t)
    (hd : t.differentiate (lower s a).exprs steps = .ok d) (ctx : DummyContext)
    (taken : List String) :
    (∀ block ∈ d.blocks, ∀ step ∈ stepsOf d ctx block,
      List.Forall₂ (fun c z => d.integral? c.2 = some z) step.1 step.2.vars) ∧
    ∀ x, d.dummies ctx d.blocks s.inputs taken = .ok x →
      ∃ ys, Chosen d ctx s.inputs taken ys x ∧ Selected d t.size ys x := by
  have hfinished := finished_of_differentiate hcheck hd hinputs
  constructor
  · intro block hblock step hstep
    obtain ⟨p, hp⟩ := List.mem_iff_getElem?.mp hblock
    obtain ⟨n, hn⟩ := List.mem_iff_getElem?.mp hstep
    exact integrals_of_step hfinished hp hn
  · intro x hx
    obtain ⟨ys, hx⟩ := dummies_ok hx
    have hperm := hx.equations_perm hfinished
    have hnodup : (x.dummies.map Prod.snd).Nodup := by
      have hall : x.structure_.functions.Nodup := hx.structure_ ▸ Structure.nodup_functions_ofExprs
      rw [(functions_perm_of_dummies hcheck hd hinputs hx).nodup_iff] at hall
      exact (List.nodup_append.mp (List.nodup_append.mp hall).2.1).1
    have hnames : x.dummies.map Prod.snd =
        (x.dummies.map Prod.fst).map fun v => ⟨dummyName v, 0⟩ := by
      rw [hx.dummies]
      simp
    refine ⟨ys, hx, ?_⟩
    exact
      { equations := hperm
        length_dummies := by
          have hcount := hx.length_equations hfinished
          rw [hperm.length_eq, List.length_range, flatten_blocks_perm.length_eq,
            hfinished.covered.length_leaves, ← (check_ok hcheck).2] at hcount
          omega
        nodup_keys := (hnames ▸ hnodup).of_map _
        nodup_dummies := hnodup
        key := by
          intro v hv
          obtain ⟨q, hq, rfl⟩ := List.mem_map.mp hv
          exact ⟨hx.key_mem hfinished hv, hx.order_of_key hfinished hq⟩
        upward := fun v hv k hk => hx.upward hfinished hv hk }

/-- Of the prescribed motion all derivatives are chosen, and so is that of its speed. -/
theorem selected_positioned : ∃ t d x ys,
    check positioned (lower positioned (.ofSystem positioned)).exprs = .ok t ∧
      t.differentiate (lower positioned (.ofSystem positioned)).exprs 20 = .ok d ∧
      d.dummies (dummyContext positioned (.ofSystem positioned)) d.blocks positioned.inputs [] =
        .ok x ∧
      x.dummies.map Prod.fst = [⟨"x", 2⟩, ⟨"x", 1⟩, ⟨"v", 1⟩] ∧ Selected d t.size ys x := by
  have hok : (do
      let t ← (check positioned (lower positioned (.ofSystem positioned)).exprs).toOption
      let d ← (t.differentiate (lower positioned (.ofSystem positioned)).exprs 20).toOption
      let x ← (d.dummies (dummyContext positioned (.ofSystem positioned)) d.blocks
        positioned.inputs []).toOption
      return x.dummies.map Prod.fst) = some [⟨"x", 2⟩, ⟨"x", 1⟩, ⟨"v", 1⟩] := by decide +kernel
  obtain ⟨t, ht, hd⟩ := Option.bind_eq_some_iff.mp hok
  obtain ⟨d, hd, hx⟩ := Option.bind_eq_some_iff.mp hd
  obtain ⟨x, hx, hkeys⟩ := Option.bind_eq_some_iff.mp hx
  have ht := ok_of_toOption ht
  have hd := ok_of_toOption hd
  have hx := ok_of_toOption hx
  obtain ⟨-, hall⟩ := selected_of_differentiate (by simp [positioned]) ht hd _ []
  obtain ⟨ys, -, hsel⟩ := hall x hx
  exact ⟨t, d, x, ys, ht, hd, hx, Option.some.inj hkeys, hsel⟩

end Reduction

end Flange

import Mathlib.Data.Fintype.Card
import Flange.Proofs.Graph.Augment
import Flange.Proofs.Reduction.Differentiation

/-! # Matching equations one after another

The invariant of the loop that matches each equation, or a derivative of it, to a highest
derivative. A failed search keeps it and makes the excess of variables over equations smaller by
one; a successful search adds the equation.
-/

namespace Flange

namespace Differentiation

variable {d d' : Differentiation} {r i j k c : Nat}

/-- Equation `i` is equation `r` differentiated `c` times. -/
inductive Descends (d : Differentiation) (r : Nat) : (c i : Nat) → Prop
  | refl : Descends d r 0 r
  | step {c i k : Nat} : Descends d r c i → d.derivedEqOf i = some k → Descends d r (c + 1) k

theorem Descends.mono (h : ∀ {i k}, d.derivedEqOf i = some k → d'.derivedEqOf i = some k)
    (hd : Descends d r c i) : Descends d' r c i := by
  induction hd with
  | refl => exact .refl
  | step _ he ih => exact .step ih (h he)

theorem Descends.assign (hd : Descends d r c i) (a : Assignment) :
    Descends { d with assign := a } r c i :=
  Descends.mono (d := d) (fun he => he) hd

theorem Descends.functional (hd : Descends d r c i) {i' : Nat} (hd' : Descends d r c i') :
    i = i' := by
  induction hd generalizing i' with
  | refl => cases hd'; rfl
  | step _ he ih =>
    cases hd' with
    | step hd' he' => exact Option.some.inj (he.symm.trans (ih hd' ▸ he'))

theorem Descends.unique {N r' c' : Nat} (h : d.Sound)
    (hp : ∀ r < N, ∀ i, d.derivedEqOf i ≠ some r) (hr : r < N) (hr' : r' < N)
    (hd : Descends d r c i) (hd' : Descends d r' c' i) : r = r' ∧ c = c' := by
  induction hd generalizing c' with
  | refl =>
    cases hd' with
    | refl => exact ⟨rfl, rfl⟩
    | step _ he => exact absurd he (hp _ hr _)
  | step hd he ih =>
    cases hd' with
    | refl => exact absurd he (hp _ hr' _)
    | step hd' he' =>
      obtain ⟨rfl, rfl⟩ := ih (h.derivedEq_inj he he' ▸ hd')
      exact ⟨rfl, rfl⟩

/-- The variables of an equation occur in its derivatives, differentiated as often. -/
theorem Descends.row_up (h : d.Sound) {v : Var} (hd : Descends d r c i) (hj : j ∈ d.row r)
    (hv : d.vars[j]? = some v) : ∃ l ∈ d.row i, d.vars[l]? = some (v.der c) := by
  induction hd with
  | refl => exact ⟨j, hj, by simpa using hv⟩
  | step _ he ih =>
    obtain ⟨l, hl, hvl⟩ := ih
    obtain ⟨m, hm⟩ := h.row_derived he hl
    obtain ⟨w, hw, hwm⟩ := h.derivedVar_iff.mp hm
    rw [hvl] at hw
    refine ⟨m, (h.mem_row_derived he).mpr (Or.inr ⟨l, hl, hm⟩), ?_⟩
    rw [hwm, ← Option.some.inj hw, Var.der_der]

/-- The variables of a derived equation come from the equation. -/
theorem Descends.row_down (h : d.Sound) {v : Var} (hd : Descends d r c i) (hj : j ∈ d.row i)
    (hv : d.vars[j]? = some v) :
    ∃ l ∈ d.row r, ∃ u : Var, ∃ e ≤ c, d.vars[l]? = some u ∧ v = u.der e := by
  induction hd generalizing j v with
  | refl => exact ⟨j, hj, v, 0, Nat.le_refl _, hv, by simp⟩
  | step _ he ih =>
    rcases (h.mem_row_derived he).mp hj with hj | ⟨m, hm, hmj⟩
    · obtain ⟨l, hl, u, e, hec, hu, rfl⟩ := ih hj hv
      exact ⟨l, hl, u, e, by omega, hu, rfl⟩
    · obtain ⟨w, hw, hwj⟩ := h.derivedVar_iff.mp hmj
      obtain ⟨l, hl, u, e, hec, hu, rfl⟩ := ih hm hw
      refine ⟨l, hl, u, e + 1, by omega, hu, ?_⟩
      rw [← Option.some.inj (hwj.symm.trans hv), Var.der_der]

/-- Of each function one derivative is the highest. -/
theorem Sound.highest_unique (h : d.Sound) {v w : Var} (hi : d.vars[i]? = some v)
    (hj : d.vars[j]? = some w) (hin : d.derivedVarOf i = none) (hjn : d.derivedVarOf j = none)
    (hname : v.name = w.name) : i = j := by
  have hdown : ∀ (n : Nat) (u : Var), u.der n ∈ d.vars → u ∈ d.vars := by
    intro n
    induction n with
    | zero => intro u hu; simpa using hu
    | succ n ih => intro u hu; exact ih u (h.below (by simpa using hu))
  have hle : ∀ {i j : Nat} {v w : Var}, d.vars[i]? = some v → d.vars[j]? = some w →
      d.derivedVarOf i = none → v.name = w.name → ¬ v.order < w.order := by
    intro i j v w hi hj hin hname hlt
    have hw : w = v.der.der (w.order - v.order - 1) := by
      cases v; cases w
      simp only [Var.der, Var.mk.injEq] at *
      exact ⟨hname.symm, by omega⟩
    have hmem := hdown _ _ (hw ▸ List.mem_of_getElem? hj)
    obtain ⟨k, hk⟩ := List.mem_iff_getElem?.mp hmem
    simp [h.derivedVar_iff.mpr ⟨v, hi, hk⟩] at hin
  have h₁ := hle hi hj hin hname
  have h₂ := hle hj hi hjn hname.symm
  have hvw : v = w := by
    cases v; cases w
    simp only [Var.mk.injEq] at *
    exact ⟨hname, by omega⟩
  exact (List.getElem?_inj (lt_of_getElem? hi) h.nodup).mp (hi.trans (hvw ▸ hj.symm))

/-- Of the `N` equations of `s`, the first `k` or a derivative of each are matched; from `b` on
none has been differentiated. -/
structure Covered (s : Differentiation) (N k b : Nat) (d : Differentiation) : Prop where
  sound : d.Sound
  exprs : s.exprs <+: d.exprs
  vars : s.vars <+: d.vars
  row : ∀ r < N, d.row r = s.row r
  originals : N ≤ d.exprs.length
  noParent : ∀ r < N, ∀ i, d.derivedEqOf i ≠ some r
  descends : ∀ i < d.exprs.length, ∃ r < N, ∃ c, Descends d r c i
  used : ∀ {j e}, d.derivedVarOf j = none → d.assigned j = some e →
    j ∈ d.row e ∧ d.derivedEqOf e = none ∧ ∃ r < k, ∃ c, Descends d r c e
  injective : ∀ {j l e}, d.derivedVarOf j = none → d.derivedVarOf l = none →
    d.assigned j = some e → d.assigned l = some e → j = l
  matched : ∀ r < k, ∃ c e j, Descends d r c e ∧ d.derivedVarOf j = none ∧ d.assigned j = some e
  fresh : ∀ r, b ≤ r → r < N → d.derivedEqOf r = none

variable {s : Differentiation} {N b : Nat} {t : Search}

theorem Covered.unique (h : Covered s N k b d) {r' c' : Nat} (hr : r < N) (hr' : r' < N)
    (hd : Descends d r c i) (hd' : Descends d r' c' i) : r = r' ∧ c = c' :=
  hd.unique h.sound h.noParent hr hr' hd'

/-- A leaf of an equation not matched so far is matched to nothing. -/
theorem Covered.rootFree (h : Covered s N k b d) (hk : k < N) (hd : Descends d k c i) :
    RootFree (fun j => d.derivedVarOf j = none ∧ j < d.assign.length) i d.assign where
  injective := fun hj hl hje hle => h.injective hj.1 hl.1 hje hle
  free := by
    intro j hj hje
    obtain ⟨-, -, r, hr, c', hd'⟩ := h.used hj.1 hje
    have := (h.unique hk (by omega) hd hd').1
    omega

theorem Covered.highest_used (h : Covered s N k b d) (e : Nat) : ∀ j ∈ d.highest e,
    (d.derivedVarOf j = none ∧ j < d.assign.length) ∧ j < d.assign.length := by
  intro j hj
  obtain ⟨hr, hn⟩ := mem_highest.mp hj
  have := h.sound.length_assign ▸ h.sound.row_lt hr
  exact ⟨⟨hn, this⟩, this⟩

theorem Sound.assign (h : d.Sound) {a : Assignment} (ha : a.length = d.assign.length) :
    ({ d with assign := a } : Differentiation).Sound :=
  ⟨h.length_derivedVar, ha.trans h.length_assign, h.length_adjacent, h.length_derivedEq, h.nodup,
    h.below, h.derivedVar_iff, h.row_lt, h.derivedEq_lt, h.derivedEq_inj, h.row_derived,
    h.mem_row_derived, h.expr_derived⟩

/-- A search that succeeds adds its equation. -/
theorem Covered.extend (h : Covered s N k (k + 1) d) (hk : k < N) (hd : Descends d k c i)
    (hi : d.derivedEqOf i = none)
    (x : Extended d.highest (fun j => d.derivedVarOf j = none ∧ j < d.assign.length) i
      ⟨d.assign, [], []⟩ t) :
    Covered s N (k + 1) (k + 1) { d with assign := t.assign } := by
  have hlen : t.assign.length = d.assign.length := x.length
  have hfree : ∀ {j}, d.derivedVarOf j = none → d.assigned j ≠ some i := by
    intro j hj hji
    have hjlt : j < d.assign.length := h.sound.length_assign ▸ h.sound.assigned_lt hji
    exact (h.rootFree hk hd).free ⟨hj, hjlt⟩ hji
  have hlt : ∀ {j e}, t.assigned j = some e → j < d.assign.length := by
    intro j e hj
    by_contra hn
    rw [Search.assigned, List.getElem?_eq_none (by omega)] at hj
    simp at hj
  refine ⟨h.sound.assign hlen, h.exprs, h.vars, h.row, h.originals, h.noParent, fun e he => ?_,
    fun {j e} hj hje => ?_, fun {j l e} hj hl hje hle => ?_, fun r hr => ?_, h.fresh⟩
  · obtain ⟨r, hr, c', hx⟩ := h.descends e he
    exact ⟨r, hr, c', hx.assign _⟩
  · have hje : t.assigned j = some e := hje
    refine ⟨?_, ?_⟩
    · rcases x.adjacent hje with hold | hnew
      · exact (h.used hj hold).1
      · exact (mem_highest.mp hnew).1
    · rcases x.covers.mp ⟨j, ⟨hj, hlt hje⟩, hfree hj, hje⟩ with rfl | ⟨l, hl, hle⟩
      · exact ⟨hi, k, Nat.lt_succ_self k, c, hd.assign _⟩
      · obtain ⟨-, hleaf, r, hr, c', hx⟩ := h.used hl.1 hle
        exact ⟨hleaf, r, Nat.lt_succ_of_lt hr, c', hx.assign _⟩
  · exact x.injective ⟨hj, hlt hje⟩ ⟨hl, hlt hle⟩ (hfree hj) (hfree hl) hje hle
  · rcases Nat.lt_or_eq_of_le (Nat.le_of_lt_succ hr) with hr | rfl
    · obtain ⟨c', e, j, hx, hj, hje⟩ := h.matched r hr
      have hjlt : j < d.assign.length := h.sound.length_assign ▸ h.sound.assigned_lt hje
      obtain ⟨l, hl, -, hle⟩ := x.covers.mpr (Or.inr ⟨j, ⟨hj, hjlt⟩, hje⟩)
      exact ⟨c', e, l, hx.assign _, hl.1, hle⟩
    · obtain ⟨l, hl, -, hle⟩ := x.covers.mpr (Or.inl rfl)
      exact ⟨c, i, l, hd.assign _, hl.1, hle⟩

/-- What a failed search has coloured can be differentiated. -/
theorem Covered.singular (h : Covered s N k b d) (hlt : i < d.exprs.length)
    (hi : d.derivedEqOf i = none)
    (x : Exhausted d.highest (fun j => d.derivedVarOf j = none ∧ j < d.assign.length) i
      ⟨d.assign, [], []⟩ t) (r : RootFree (fun j => d.derivedVarOf j = none ∧ j < d.assign.length)
        i d.assign) : d.Singular t where
  nodup_vars := x.coloured.nodup
  nodup_eqs := by simpa using x.coloured.nodup_equations (x.assign ▸ r)
  vars := by
    intro j hj
    have := (x.coloured.used hj).1
    exact ⟨this.1, h.sound.length_assign ▸ this.2⟩
  eqs := by
    intro e he
    rcases x.red_cases he with rfl | ⟨j, hj, hje⟩
    · exact ⟨hlt, hi⟩
    · obtain ⟨hrow, hleaf, -⟩ := h.used (x.coloured.used hj).1.1 hje
      exact ⟨h.sound.lt_of_mem_row hrow, hleaf⟩
  rows := by
    intro e he j hj
    rcases hn : d.derivedVarOf j with _ | l
    · exact Or.inl (x.closed he (by simp) j (mem_highest.mpr ⟨hj, hn⟩))
    · exact Or.inr ⟨l, rfl⟩

section Failed

variable (h : Covered s N k b d)
  (x : Exhausted d.highest (fun j => d.derivedVarOf j = none ∧ j < d.assign.length) i
    ⟨d.assign, [], []⟩ t)
  (y : Differentiated t d d')

include x y in
/-- The match of a highest derivative is an old one, or that of a coloured variable carried over. -/
theorem match_cases (hj : d'.derivedVarOf j = none) {e : Nat} (hje : d'.assigned j = some e) :
    (j ∉ t.redVariables ∧ d.derivedVarOf j = none ∧ d.assigned j = some e) ∨
      ∃ l ∈ t.redVariables, ∃ f ∈ t.redEquations, d'.derivedVarOf l = some j ∧
        d.assigned l = some f ∧ d'.derivedEqOf f = some e ∧ d.exprs.length ≤ e := by
  rcases Nat.lt_or_ge j d.vars.length with hlt | hge
  · obtain ⟨hjr, hjn⟩ := y.highest_old hj
    exact Or.inl ⟨hjr, hjn, y.assigned_old j hlt ▸ hje⟩
  · rcases y.assigned_new j hge with hn | ⟨l, hl, hlj, hl'⟩
    · simp [hn] at hje
    · obtain ⟨f, hf, hlf⟩ := x.assigned_of_red hl
      obtain ⟨g, hg, hfg⟩ := y.derivedEq f hf
      rw [hl', show d.assigned l = some f from hlf, Option.bind_some] at hje
      exact Or.inr ⟨l, hl, f, hf, hlj, hlf, hje, Option.some.inj (hfg.symm.trans hje) ▸ hg⟩

variable (hsing : d.Singular t)

include h y in
theorem Covered.noParent_differentiated (hr : r < N) (e : Nat) : d'.derivedEqOf e ≠ some r := by
  intro he
  by_cases hred : e ∈ t.redEquations
  · obtain ⟨f, hf, hef⟩ := y.derivedEq e hred
    have := Option.some.inj (hef.symm.trans he)
    have := h.originals
    omega
  · exact h.noParent r hr e (y.derivedEq_other e hred ▸ he)

include h y hsing in
theorem Covered.descends_differentiated {e : Nat} (he : e < d'.exprs.length) :
    ∃ r < N, ∃ c, Descends d' r c e := by
  rcases Nat.lt_or_ge e d.exprs.length with hlt | hge
  · obtain ⟨r, hr, c, hx⟩ := h.descends e hlt
    exact ⟨r, hr, c, hx.mono (y.derivedEq_of hsing)⟩
  · obtain ⟨f, hf, hfe⟩ := y.derivedEq_onto e hge he
    obtain ⟨r, hr, c, hx⟩ := h.descends f (hsing.eqs f hf).1
    exact ⟨r, hr, c + 1, (hx.mono (y.derivedEq_of hsing)).step hfe⟩

include h x y hsing in
theorem Covered.used_differentiated (hroot : RootFree
      (fun j => d.derivedVarOf j = none ∧ j < d.assign.length) i d.assign)
    (hj : d'.derivedVarOf j = none) {e : Nat} (hje : d'.assigned j = some e) :
    j ∈ d'.row e ∧ d'.derivedEqOf e = none ∧ ∃ r < k, ∃ c, Descends d' r c e := by
  rcases match_cases x y hj hje with ⟨hjr, hjn, hold⟩ | ⟨l, hl, f, hf, hlj, hlf, hfe, hge⟩
  · obtain ⟨hrow, hleaf, r, hr, c, hx⟩ := h.used hjn hold
    have hjlt : j < d.assign.length := h.sound.length_assign ▸ h.sound.assigned_lt hold
    have hred : e ∉ t.redEquations := x.not_red_of_assigned hroot ⟨hjn, hjlt⟩ hjr hold
    exact ⟨y.row e (h.sound.lt_of_mem_row hrow) ▸ hrow, (y.derivedEq_other e hred).trans hleaf,
      r, hr, c, hx.mono (y.derivedEq_of hsing)⟩
  · obtain ⟨hrow, -, r, hr, c, hx⟩ := h.used (x.coloured.used hl).1.1 hlf
    refine ⟨(y.sound.mem_row_derived hfe).mpr (Or.inr ⟨l, ?_, hlj⟩), y.leaf_new h.sound hsing hge,
      r, hr, c + 1, (hx.mono (y.derivedEq_of hsing)).step hfe⟩
    rw [y.row f (hsing.eqs f hf).1]
    exact hrow

include h x y in
theorem Covered.injective_differentiated {l e : Nat} (hj : d'.derivedVarOf j = none)
    (hl : d'.derivedVarOf l = none) (hje : d'.assigned j = some e) (hle : d'.assigned l = some e) :
    j = l := by
  have hlt : ∀ {j}, d.derivedVarOf j = none → d.assigned j = some e → e < d.exprs.length :=
    fun hj hje => h.sound.lt_of_mem_row (h.used hj hje).1
  rcases match_cases x y hj hje with ⟨-, hjn, hje⟩ | ⟨m, hm, f, -, hmj, hmf, hfe, hge⟩ <;>
    rcases match_cases x y hl hle with ⟨-, hln, hle⟩ | ⟨p, hp, g, -, hpl, hpg, hge', hge''⟩
  · exact h.injective hjn hln hje hle
  · exact absurd (hlt hjn hje) (Nat.not_lt_of_le hge'')
  · exact absurd (hlt hln hle) (Nat.not_lt_of_le hge)
  · obtain rfl : f = g := y.sound.derivedEq_inj hfe hge'
    obtain rfl : m = p :=
      h.injective (x.coloured.used hm).1.1 (x.coloured.used hp).1.1 hmf hpg
    exact Option.some.inj (hmj.symm.trans hpl)

include h x y hsing in
theorem Covered.matched_differentiated (hr : r < k) :
    ∃ c e j, Descends d' r c e ∧ d'.derivedVarOf j = none ∧ d'.assigned j = some e := by
  obtain ⟨c, e, j, hx, hj, hje⟩ := h.matched r hr
  have hx := hx.mono (y.derivedEq_of hsing)
  by_cases hjr : j ∈ t.redVariables
  · obtain ⟨l, hl, hjl⟩ := y.derivedVar j hjr
    obtain ⟨f, hf, hjf⟩ := x.assigned_of_red hjr
    obtain rfl : e = f := Option.some.inj (hje.symm.trans hjf)
    obtain ⟨g, -, heg⟩ := y.derivedEq e hf
    refine ⟨c + 1, g, l, hx.step heg, y.highest_new h.sound hsing hl, ?_⟩
    rw [y.assigned_derived j hjr l hjl, hje, Option.bind_some, heg]
  · exact ⟨c, e, j, hx, (y.derivedVar_other j hjr).trans hj,
      (y.assigned_old j (h.sound.assigned_lt hje)).trans hje⟩

include h x in
/-- The search for the `k`-th equation colours none that is still to be matched. -/
theorem Covered.not_red (hk : k < N) (hd : Descends d k c i) (hkr : k < r) (hr : r < N) :
    r ∉ t.redEquations := by
  intro hred
  rcases x.red_cases hred with rfl | ⟨j, hj, hje⟩
  · have := (h.unique hk hr hd .refl).1
    omega
  · obtain ⟨-, -, r', hr', c', hx⟩ := h.used (x.coloured.used hj).1.1 hje
    have := (h.unique hr (by omega) .refl hx).1
    omega

end Failed

/-- A failed search leads to a state in which its equation is replaced by the derivative, and the
excess of variables is one less. -/
theorem Covered.differentiate (h : Covered s N k (k + 1) d) (hk : k < N) (hd : Descends d k c i)
    (hlt : i < d.exprs.length) (hi : d.derivedEqOf i = none)
    (x : Exhausted d.highest (fun j => d.derivedVarOf j = none ∧ j < d.assign.length) i
      ⟨d.assign, [], []⟩ t) (hit : i ∈ t.redEquations) :
    Covered s N k (k + 1) (d.differentiate t) ∧
      (∃ e, (d.differentiate t).derivedEqOf i = some e ∧ (d.differentiate t).derivedEqOf e = none ∧
        e < (d.differentiate t).exprs.length ∧ Descends (d.differentiate t) k (c + 1) e) ∧
      (d.differentiate t).vars.length + d.exprs.length + 1 =
        d.vars.length + (d.differentiate t).exprs.length := by
  have hroot := h.rootFree hk hd
  have hsing := h.singular hlt hi x hroot
  have y := h.sound.differentiated hsing
  have hcard := x.coloured.card
  generalize d.differentiate t = d' at y
  refine ⟨?_, ?_, ?_⟩
  · exact
      { sound := y.sound
        exprs := h.exprs.trans y.exprs
        vars := h.vars.trans y.vars
        row := fun r hr => (y.row r (hr.trans_le h.originals)).trans (h.row r hr)
        originals := h.originals.trans y.exprs.length_le
        noParent := fun r hr e => h.noParent_differentiated y hr e
        descends := fun e he => h.descends_differentiated y hsing he
        used := fun hj hje => h.used_differentiated x y hsing hroot hj hje
        injective := fun hj hl hje hle => h.injective_differentiated x y hj hl hje hle
        matched := fun r hr => h.matched_differentiated x y hsing hr
        fresh := fun r hkr hr =>
          (y.derivedEq_other r (h.not_red x hk hd hkr hr)).trans (h.fresh r hkr hr) }
  · obtain ⟨e, he, hie⟩ := y.derivedEq i hit
    exact ⟨e, hie, y.leaf_new h.sound hsing he, (y.sound.derivedEq_lt hie).2,
      (hd.mono (y.derivedEq_of hsing)).step hie⟩
  · rw [y.length_vars, y.length_exprs, hcard]
    omega

/-! ### The loop -/

/-- A variable or derivative in each of the `N` equations of `s`, of different functions. -/
structure Transversal (s : Differentiation) (N : Nat) (τ : Nat → Var) : Prop where
  mem : ∀ r < N, ∃ j ∈ s.row r, s.vars[j]? = some (τ r)
  names : ∀ r < N, ∀ r' < N, (τ r).name = (τ r').name → r = r'

/-- With a transversal there are always as many variables as equations: each derived equation has
the derivative of its choice. -/
theorem Covered.length_le (h : Covered s N k b d) {τ : Nat → Var} (hτ : s.Transversal N τ) :
    d.exprs.length ≤ d.vars.length := by
  choose! origin horigin times htimes using h.descends
  have hvar : ∀ i < d.exprs.length,
      ∃ l < d.vars.length, d.vars[l]? = some ((τ (origin i)).der (times i)) := by
    intro i hi
    obtain ⟨j, hj, hv⟩ := hτ.mem _ (horigin i hi)
    rw [← h.row _ (horigin i hi)] at hj
    obtain ⟨l, hl, hvl⟩ := (htimes i hi).row_up h.sound hj (getElem?_of_extends h.vars hv)
    exact ⟨l, h.sound.row_lt hl, hvl⟩
  choose! place hplace hvars using hvar
  have hcard := Finset.card_le_card_of_injOn (s := Finset.range d.exprs.length)
    (t := Finset.range d.vars.length) place (fun i hi => by simpa using hplace i (by simpa using hi))
    fun i hi i' hi' he => by
      have hi : i < d.exprs.length := by simpa using hi
      have hi' : i' < d.exprs.length := by simpa using hi'
      have hv := Option.some.inj ((hvars i hi).symm.trans (he ▸ hvars i' hi'))
      have hr := hτ.names _ (horigin i hi) _ (horigin i' hi') (by simpa using congrArg Var.name hv)
      have ht : times i = times i' := by simpa [hr] using congrArg Var.order hv
      exact (htimes i hi).functional (hr ▸ ht ▸ htimes i' hi')
  simpa using hcard

theorem matchFrom_covered : ∀ {steps : Nat} {i c : Nat} {d d' : Differentiation},
    Covered s N k (k + 1) d → k < N → Descends d k c i → i < d.exprs.length →
      d.derivedEqOf i = none → matchFrom steps i d = some d' →
        Covered s N (k + 1) (k + 1) d' ∧
          d'.vars.length + d.exprs.length ≤ d.vars.length + d'.exprs.length
  | 0, _, _, _, _, _, _, _, _, _, hm => by simp [matchFrom] at hm
  | steps + 1, i, c, d, d', h, hk, hd, hlt, hi, hm => by
    have ho := augment_outcome (h.highest_used) (h.rootFree hk hd)
    rw [matchFrom] at hm
    rcases ha : augment d.highest d.assign i with ⟨_ | _, t⟩ <;> rw [ha] at ho hm
    · obtain ⟨hc, ⟨e, hie, hen, helt, hde⟩, hlen⟩ := h.differentiate hk hd hlt hi ho.1 ho.2
      simp only [hie] at hm
      obtain ⟨h', hle⟩ := matchFrom_covered hc hk hde helt hen hm
      exact ⟨h', by omega⟩
    · simp only [Option.some.injEq] at hm
      subst hm
      exact ⟨h.extend hk hd hi ho, Nat.le_refl _⟩

theorem matchFrom_isSome {τ : Nat → Var} (hτ : s.Transversal N τ) : ∀ {steps i c : Nat}
    {d : Differentiation}, Covered s N k (k + 1) d → k < N → Descends d k c i →
      i < d.exprs.length → d.derivedEqOf i = none → d.vars.length < d.exprs.length + steps →
        ∃ d', matchFrom steps i d = some d'
  | 0, _, _, d, h, _, _, _, _, hs => by have := h.length_le hτ; omega
  | steps + 1, i, c, d, h, hk, hd, hlt, hi, hs => by
    have ho := augment_outcome (h.highest_used) (h.rootFree hk hd)
    rw [matchFrom]
    rcases ha : augment d.highest d.assign i with ⟨_ | _, t⟩ <;> rw [ha] at ho
    · obtain ⟨hc, ⟨e, hie, hen, helt, hde⟩, hlen⟩ := h.differentiate hk hd hlt hi ho.1 ho.2
      simp only [hie]
      exact matchFrom_isSome hτ hc hk hde helt hen (by omega)
    · exact ⟨_, rfl⟩

theorem Covered.weaken (h : Covered s N k k d) : Covered s N k (k + 1) d :=
  ⟨h.sound, h.exprs, h.vars, h.row, h.originals, h.noParent, h.descends, h.used, h.injective,
    h.matched, fun r hr => h.fresh r (by omega)⟩

theorem matchAll_covered {steps : Nat} : ∀ {m k : Nat} {d d' : Differentiation},
    Covered s N k k d → k + m = N → matchAll steps (List.range' k m) d = .ok d' →
      Covered s N N N d'
  | 0, k, d, d', h, hkm, hm => by
    obtain rfl : k = N := by omega
    obtain rfl : d = d' := by simpa [matchAll] using hm
    exact h
  | m + 1, k, d, d', h, hkm, hm => by
    rw [List.range'_succ, matchAll] at hm
    rcases hf : matchFrom steps k d with _ | e <;> rw [hf] at hm
    · simp at hm
    · have hlt : k < d.exprs.length := by have := h.originals; omega
      exact matchAll_covered (matchFrom_covered h.weaken (by omega) .refl hlt
        (h.fresh k (by omega) (by omega)) hf).1 (by omega) hm

theorem matchAll_isOk {τ : Nat → Var} (hτ : s.Transversal N τ) {steps : Nat} :
    ∀ {m k : Nat} {d : Differentiation}, Covered s N k k d → k + m = N →
      d.vars.length < d.exprs.length + steps → ∃ d', matchAll steps (List.range' k m) d = .ok d'
  | 0, _, d, _, _, _ => ⟨d, rfl⟩
  | m + 1, k, d, h, hkm, hs => by
    have hlt : k < d.exprs.length := by have := h.originals; omega
    have hk := h.fresh k (by omega) (by omega)
    obtain ⟨e, he⟩ := matchFrom_isSome hτ h.weaken (by omega) .refl hlt hk hs
    obtain ⟨h', hle⟩ := matchFrom_covered h.weaken (by omega) .refl hlt hk he
    rw [List.range'_succ, matchAll, he]
    exact matchAll_isOk hτ h' (by omega) (by omega)

theorem kind_of_matchAll_error {steps : Nat} {e : ModelError} : ∀ {ks : List Nat}
    {d : Differentiation}, matchAll steps ks d = .error e → e.kind = .reduction
  | [], d, h => by simp [matchAll] at h
  | k :: ks, d, h => by
    rw [matchAll] at h
    rcases hf : matchFrom steps k d with _ | d' <;> rw [hf] at h
    · obtain rfl := Except.error.inj h
      rfl
    · exact kind_of_matchAll_error h

/-- When all equations are matched, their variables form a transversal: what two of the equations
are matched to are derivatives of different functions. -/
theorem Covered.transversal (h : Covered s N N N d) (hs : s.Sound) : ∃ τ, s.Transversal N τ := by
  have hchoice : ∀ r < N, ∃ v : Var, (∃ j ∈ s.row r, s.vars[j]? = some v) ∧
      ∃ c e j w, Descends d r c e ∧ d.derivedVarOf j = none ∧ d.assigned j = some e ∧
        d.vars[j]? = some w ∧ w.name = v.name := by
    intro r hr
    obtain ⟨c, e, j, hx, hj, hje⟩ := h.matched r hr
    obtain ⟨w, hw⟩ : ∃ w, d.vars[j]? = some w :=
      ⟨_, List.getElem?_eq_getElem (h.sound.assigned_lt hje)⟩
    obtain ⟨l, hl, v, f, -, hv, rfl⟩ := hx.row_down h.sound (h.used hj hje).1 hw
    rw [h.row r hr] at hl
    obtain ⟨u, hu⟩ : ∃ u, s.vars[l]? = some u := ⟨_, List.getElem?_eq_getElem (hs.row_lt hl)⟩
    obtain rfl : u = v := Option.some.inj ((getElem?_of_extends h.vars hu).symm.trans hv)
    exact ⟨u, ⟨l, hl, hu⟩, c, e, j, _, hx, hj, hje, hw, rfl⟩
  choose! τ hmem hmatch using hchoice
  refine ⟨τ, hmem, fun r hr r' hr' hname => ?_⟩
  obtain ⟨c, e, j, w, hx, hj, hje, hw, hwn⟩ := hmatch r hr
  obtain ⟨c', e', j', w', hx', hj', hje', hw', hwn'⟩ := hmatch r' hr'
  obtain rfl : j = j' := h.sound.highest_unique hw hw' hj hj' (by rw [hwn, hwn', hname])
  obtain rfl : e = e' := Option.some.inj (hje.symm.trans hje')
  exact (h.unique hr hr' hx hx').1

end Differentiation

end Flange

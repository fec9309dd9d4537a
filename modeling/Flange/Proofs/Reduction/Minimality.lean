import Mathlib.Data.Finset.Max
import Flange.Proofs.Reduction.Lowering
import Flange.Proofs.Reduction.WellPosed

/-! # Least differentiation

No equation is differentiated more often than any perfect matching of equations to highest
derivatives requires. The equations that a failed search colours are ends of alternating paths from
its root; were one of them differentiated often enough already, so would be those before it on the
path, up to the root, and the coloured variables would be too few for them.
-/

namespace Flange

/-! ### Alternating paths -/

/-- The equation is the end of a path from `root` that alternates between any variable of an
equation and the equation assigned to the variable. -/
inductive Alternating (adj : Nat → List Nat) (a : Assignment) (root : Nat) : Nat → Prop
  | root : Alternating adj a root root
  | step {e j f : Nat} : Alternating adj a root e → j ∈ adj e → (a[j]?).join = some f →
      Alternating adj a root f

namespace Search

variable {adj : Nat → List Nat} {a : Assignment} {root : Nat}

/-- The assignment is still `a`, and what is coloured is on alternating paths. -/
structure OnPaths (adj : Nat → List Nat) (a : Assignment) (root : Nat) (s : Search) : Prop where
  assign : s.assign = a
  equations : ∀ e ∈ s.redEquations, Alternating adj a root e

theorem OnPaths.colourEquation {s : Search} {i : Nat} (h : OnPaths adj a root s)
    (hi : Alternating adj a root i) : OnPaths adj a root (s.colourEquation i) := by
  refine ⟨by simp [h.assign], fun e he => ?_⟩
  unfold Search.colourEquation at he
  split at he
  · exact h.equations e he
  · rcases List.mem_append.mp he with he | he
    · exact h.equations e he
    · exact List.mem_singleton.mp he ▸ hi

theorem onPaths_reassign {deeper : Nat → Search → Bool × Search} {i : Nat}
    (hi : Alternating adj a root i)
    (hdeeper : ∀ {k s t}, Alternating adj a root k → OnPaths adj a root s →
      deeper k s = (false, t) → OnPaths adj a root t) :
    ∀ {js : List Nat} {s t : Search}, js ⊆ adj i → OnPaths adj a root s →
      reassign deeper i js s = (false, t) → OnPaths adj a root t
  | [], s, t, _, h, hrun => by
    obtain rfl := (Prod.mk.inj hrun).2
    exact h
  | j :: js, s, t, hjs, h, hrun => by
    obtain ⟨hj, hjs⟩ := List.cons_subset.mp hjs
    rw [reassign] at hrun
    split at hrun
    · exact onPaths_reassign hi hdeeper hjs h hrun
    · rcases hk : s.assigned j with _ | k <;> simp only [hk] at hrun
      · simp at hrun
      · have hk : Alternating adj a root k := hi.step hj (h.assign ▸ hk)
        rcases hd : deeper k (s.colourVariable j) with ⟨_ | _, u⟩ <;> simp only [hd] at hrun
        · have h' : OnPaths adj a root (s.colourVariable j) := ⟨h.assign, h.equations⟩
          exact onPaths_reassign hi hdeeper hjs (hdeeper hk h' hd) hrun
        · simp at hrun

theorem onPaths_augmentFrom : ∀ {fuel i : Nat} {s t : Search}, Alternating adj a root i →
    OnPaths adj a root s → augmentFrom adj fuel i s = (false, t) → OnPaths adj a root t
  | 0, i, s, t, _, h, hrun => by
    obtain rfl := (Prod.mk.inj hrun).2
    exact h
  | fuel + 1, i, s, t, hi, h, hrun => by
    rw [augmentFrom] at hrun
    split at hrun
    · simp at hrun
    · exact onPaths_reassign hi onPaths_augmentFrom (List.Subset.refl _) (h.colourEquation hi) hrun

/-- A failed search colours only ends of alternating paths. -/
theorem alternating_of_augment {t : Search} (hrun : augment adj a root = (false, t)) {e : Nat}
    (he : e ∈ t.redEquations) : Alternating adj a root e :=
  (onPaths_augmentFrom .root ⟨rfl, by simp⟩ hrun).equations e he

end Search

section Own

variable {adj : Nat → List Nat} {used E F : Nat → Prop} {root : Nat} {a : Assignment} {t : Search}
  {own : Nat → Nat}

open Classical in
/-- Let each coloured equation of `E` have a coloured variable of `F` of its own, and let all coloured
equations of a variable of `F` be in `E`. Then there are as many variables of `F` as equations of
`E`, so all of these are assigned to them, and the root is not among them. -/
theorem Exhausted.assigned_of_own (x : Exhausted adj used root ⟨a, [], []⟩ t)
    (hfree : RootFree used root a)
    (hadj : ∀ {j e}, j ∈ t.redVariables → (a[j]?).join = some e → j ∈ adj e)
    (hown : ∀ e ∈ t.redEquations, E e → own e ∈ t.redVariables ∧ F (own e))
    (hinj : ∀ e ∈ t.redEquations, ∀ f ∈ t.redEquations, E e → E f → own e = own f → e = f)
    (hback : ∀ {j e}, e ∈ t.redEquations → F j → j ∈ adj e → E e) :
    ∀ e ∈ t.redEquations, E e →
      e ≠ root ∧ ∃ j ∈ t.redVariables, F j ∧ (a[j]?).join = some e := by
  have hused : ∀ {j}, j ∈ t.redVariables → used j := fun hj => (x.coloured.used hj).1
  obtain ⟨S, hS⟩ : ∃ S, S = t.redEquations.toFinset.filter E := ⟨_, rfl⟩
  obtain ⟨V, hV⟩ : ∃ V, V = t.redVariables.toFinset.filter F := ⟨_, rfl⟩
  have hmemS : ∀ {e}, e ∈ S ↔ e ∈ t.redEquations ∧ E e := by simp [hS]
  have hmemV : ∀ {j}, j ∈ V ↔ j ∈ t.redVariables ∧ F j := by simp [hV]
  have hcard : S.card ≤ V.card := by
    refine Finset.card_le_card_of_injOn own (fun e he => ?_) fun e he f hf hef => ?_
    · obtain ⟨he, hE⟩ := hmemS.mp he
      exact hmemV.mpr (hown e he hE)
    · obtain ⟨he, hE⟩ := hmemS.mp he
      obtain ⟨hf, hE'⟩ := hmemS.mp hf
      exact hinj e he f hf hE hE' hef
  have heq : ∀ j ∈ V, ∃ e ∈ S, e ≠ root ∧ (a[j]?).join = some e := by
    intro j hj
    obtain ⟨hj, hF⟩ := hmemV.mp hj
    obtain ⟨e, he, hje⟩ := x.assigned_of_red hj
    exact ⟨e, hmemS.mpr ⟨he, hback he hF (hadj hj hje)⟩,
      fun her => hfree.free (hused hj) (her ▸ hje), hje⟩
  choose! equation heqS hne hassign using heq
  have himage : V.image equation = S := by
    refine Finset.eq_of_subset_of_card_le (fun e he => ?_) ?_
    · obtain ⟨j, hj, rfl⟩ := Finset.mem_image.mp he
      exact heqS j hj
    · rw [Finset.card_image_of_injOn]
      · exact hcard
      · intro j hj l hl hjl
        exact hfree.injective (hused (hmemV.mp hj).1) (hused (hmemV.mp hl).1) (hassign j hj)
          (hjl ▸ hassign l hl)
  intro e he hE
  obtain ⟨j, hj, rfl⟩ := Finset.mem_image.mp (himage ▸ hmemS.mpr ⟨he, hE⟩ : e ∈ V.image equation)
  exact ⟨hne j hj, j, (hmemV.mp hj).1, (hmemV.mp hj).2, hassign j hj⟩

/-- Then no coloured equation is in `E` at all: neither is the root, nor any equation behind it on an
alternating path. -/
theorem Exhausted.not_of_own (x : Exhausted adj used root ⟨a, [], []⟩ t)
    (hroot : root ∈ t.redEquations) (hfree : RootFree used root a)
    (hpaths : ∀ e ∈ t.redEquations, Alternating adj a root e)
    (hadj : ∀ {j e}, j ∈ t.redVariables → (a[j]?).join = some e → j ∈ adj e)
    (hown : ∀ e ∈ t.redEquations, E e → own e ∈ t.redVariables ∧ F (own e))
    (hinj : ∀ e ∈ t.redEquations, ∀ f ∈ t.redEquations, E e → E f → own e = own f → e = f)
    (hback : ∀ {j e}, e ∈ t.redEquations → F j → j ∈ adj e → E e) :
    ∀ e ∈ t.redEquations, ¬ E e := by
  have hassigned := x.assigned_of_own hfree hadj hown hinj hback
  have hpath : ∀ {e}, Alternating adj a root e → e ∈ t.redEquations ∧ ¬ E e := by
    intro e hpath
    induction hpath with
    | root => exact ⟨hroot, fun hE => (hassigned root hroot hE).1 rfl⟩
    | @step e j f _ hj hjf ih =>
      obtain ⟨he, hno⟩ := ih
      have hjr : j ∈ t.redVariables := x.closed he (by simp) j hj
      have hf : f ∈ t.redEquations := by
        obtain ⟨g, hg, hjg⟩ := x.assigned_of_red hjr
        exact Option.some.inj (hjf.symm.trans hjg) ▸ hg
      refine ⟨hf, fun hE => hno ?_⟩
      obtain ⟨-, l, hl, hF, hlf⟩ := hassigned f hf hE
      have hlj : l = j :=
        hfree.injective (x.coloured.used hl).1 (x.coloured.used hjr).1 hlf hjf
      exact hback he (hlj ▸ hF) hj
  exact fun e he => (hpath (hpaths e he)).2

end Own

namespace Differentiation

variable {s d : Differentiation} {N k b r i j c : Nat} {n : Nat → Nat} {τ : Nat → Var} {t : Search}
  {w : Var}

/-- `w` is among the variables of equation `r` of `s` after `n r` differentiations. -/
def OccursAfter (s : Differentiation) (n : Nat → Nat) (r : Nat) (w : Var) : Prop :=
  ∃ j ∈ s.row r, ∃ v, s.vars[j]? = some v ∧ ∃ m ≤ n r, w = v.der m

/-- Variables of the `N` equations of `s` after `n r` differentiations of each equation `r`, of
different functions and the highest derivatives of these that occur. -/
structure Highest (s : Differentiation) (N : Nat) (n : Nat → Nat) (τ : Nat → Var) : Prop where
  mem : ∀ r < N, s.OccursAfter n r (τ r)
  top : ∀ r < N, ∀ q < N, ∀ w, s.OccursAfter n q w → w.name = (τ r).name → w.order ≤ (τ r).order
  names : ∀ r < N, ∀ q < N, (τ r).name = (τ q).name → r = q

/-- No equation is differentiated more often than `n` says, and every highest derivative and every
variable that is a derivative of another one occurs. -/
structure Within (N : Nat) (n : Nat → Nat) (d : Differentiation) : Prop where
  times : ∀ i < d.exprs.length, ∃ r < N, ∃ c ≤ n r, Descends d r c i
  occurs : ∀ j < d.vars.length, (d.derivedVarOf j = none ∨ ∃ l, d.derivedVarOf l = some j) →
    ∃ i, j ∈ d.row i

/-- An equation that has been differentiated as often as `n` says. -/
def Exhausts (N : Nat) (n : Nat → Nat) (d : Differentiation) (i : Nat) : Prop :=
  ∃ r < N, Descends d r (n r) i

/-- A differentiated equation keeps its variables, with their derivatives up to its own order. -/
theorem Descends.row_upto (h : d.Sound) {v : Var} {m : Nat} (hd : Descends d r c i) (hm : m ≤ c)
    (hj : j ∈ d.row r) (hv : d.vars[j]? = some v) :
    ∃ l ∈ d.row i, d.vars[l]? = some (v.der m) := by
  induction hd with
  | refl => exact ⟨j, hj, by simpa [Nat.le_zero.mp hm] using hv⟩
  | step hd he ih =>
    rcases Nat.lt_or_eq_of_le hm with hm | rfl
    · obtain ⟨l, hl, hvl⟩ := ih (Nat.le_of_lt_succ hm)
      exact ⟨l, (h.mem_row_derived he).mpr (Or.inl hl), hvl⟩
    · exact (hd.step he).row_up h hj hv

theorem Covered.var_of_row (h : Covered s N k b d) (hs : s.Sound) (hr : r < N) (hj : j ∈ d.row r) :
    j ∈ s.row r ∧ d.vars[j]? = s.vars[j]? := by
  rw [h.row r hr] at hj
  obtain ⟨v, hv⟩ : ∃ v, s.vars[j]? = some v := ⟨_, List.getElem?_eq_getElem (hs.row_lt hj)⟩
  exact ⟨hj, (getElem?_of_extends h.vars hv).trans hv.symm⟩

/-- What occurs in an equation that is differentiated `c` times. -/
theorem Covered.mem_row_iff (h : Covered s N k b d) (hs : s.Sound) (hr : r < N)
    (hd : Descends d r c i) : (∃ l ∈ d.row i, d.vars[l]? = some w) ↔
      s.OccursAfter (fun _ => c) r w := by
  constructor
  · rintro ⟨l, hl, hw⟩
    obtain ⟨j, hj, v, m, hm, hv, rfl⟩ := hd.row_down h.sound hl hw
    obtain ⟨hj', hvars⟩ := h.var_of_row hs hr hj
    exact ⟨j, hj', v, hvars ▸ hv, m, hm, rfl⟩
  · rintro ⟨j, hj, v, hv, m, hm, rfl⟩
    exact hd.row_upto h.sound hm (h.row r hr ▸ hj) (getElem?_of_extends h.vars hv)

theorem OccursAfter.mono {n' : Nat → Nat} (h : s.OccursAfter n r w) (hn : n r ≤ n' r) :
    s.OccursAfter n' r w := by
  obtain ⟨j, hj, v, hv, m, hm, rfl⟩ := h
  exact ⟨j, hj, v, hv, m, hm.trans hn, rfl⟩

theorem OccursAfter.der (h : s.OccursAfter (fun _ => c) r w) (hc : c < n r) :
    s.OccursAfter n r w.der := by
  obtain ⟨j, hj, v, hv, m, hm, rfl⟩ := h
  exact ⟨j, hj, v, hv, m + 1, Nat.succ_le_of_lt (Nat.lt_of_le_of_lt hm hc), by rw [Var.der_der]⟩

/-- An equation that has a variable whose derivative occurs nowhere cannot be differentiated any
more. -/
theorem Covered.exhausts (h : Covered s N k b d) (hs : s.Sound) (hn : Within N n d)
    (hw : d.vars[j]? = some w) (hno : ∀ q < N, ¬ s.OccursAfter n q w.der) (hj : j ∈ d.row i) :
    Exhausts N n d i := by
  obtain ⟨r, hr, c, hc, hd⟩ := hn.times i (h.sound.lt_of_mem_row hj)
  rcases Nat.lt_or_eq_of_le hc with hc | rfl
  · exact absurd (((h.mem_row_iff hs hr hd).mp ⟨j, hj, hw⟩).der hc) (hno r hr)
  · exact ⟨r, hr, hd⟩

/-- An exhausted equation has its own highest derivative, which is not differentiated any more. -/
theorem Covered.exists_top (h : Covered s N k b d) (hs : s.Sound) (hτ : Highest s N n τ)
    (hn : Within N n d) (hr : r < N) (hd : Descends d r (n r) i) :
    ∃ j ∈ d.highest i, d.vars[j]? = some (τ r) ∧ ∀ q < N, ¬ s.OccursAfter n q (τ r).der := by
  have hno : ∀ q < N, ¬ s.OccursAfter n q (τ r).der := by
    intro q hq hocc
    have := hτ.top r hr q hq _ hocc rfl
    rw [Var.order_der] at this
    omega
  obtain ⟨j, hj, hv⟩ := (h.mem_row_iff hs hr hd).mpr (hτ.mem r hr)
  refine ⟨j, mem_highest.mpr ⟨hj, ?_⟩, hv, hno⟩
  rcases hl : d.derivedVarOf j with _ | l
  · rfl
  · obtain ⟨v, hv', hvl⟩ := h.sound.derivedVar_iff.mp hl
    obtain rfl : τ r = v := Option.some.inj (hv.symm.trans hv')
    obtain ⟨e, he⟩ := hn.occurs l (h.sound.derivedVar_lt hl).2 (Or.inr ⟨j, hl⟩)
    obtain ⟨q, hq, c, hc, hqe⟩ := hn.times e (h.sound.lt_of_mem_row he)
    exact absurd (((h.mem_row_iff hs hq hqe).mp ⟨l, he, hvl⟩).mono hc) (hno q hq)

/-- A variable whose derivative occurs nowhere. -/
def Spent (s : Differentiation) (N : Nat) (n : Nat → Nat) (d : Differentiation) (j : Nat) : Prop :=
  ∀ w, d.vars[j]? = some w → ∀ q < N, ¬ s.OccursAfter n q w.der

theorem Covered.exhausts_of_spent (h : Covered s N k b d) (hs : s.Sound) (hn : Within N n d)
    (hj : Spent s N n d j) (hi : j ∈ d.row i) : Exhausts N n d i := by
  have hv := List.getElem?_eq_getElem (h.sound.row_lt hi)
  exact h.exhausts hs hn hv (hj _ hv) hi

/-- No equation that a failed search colours has been differentiated as often as `n` says. -/
theorem Covered.not_exhausts (h : Covered s N k b d) (hs : s.Sound) (hτ : Highest s N n τ)
    (hn : Within N n d) (hk : k < N) (hd : Descends d k c i)
    (hrun : augment d.highest d.assign i = (false, t)) :
    ∀ e ∈ t.redEquations, ¬ Exhausts N n d e := by
  have hroot := h.rootFree hk hd
  have hout := augment_outcome h.highest_used hroot
  rw [hrun] at hout
  obtain ⟨x, hit⟩ := hout
  have hown : ∀ e ∈ t.redEquations, Exhausts N n d e → ∃ j ∈ t.redVariables, Spent s N n d j ∧
      ∃ r < N, Descends d r (n r) e ∧ d.vars[j]? = some (τ r) := by
    rintro e he ⟨r, hr, hre⟩
    obtain ⟨j, hj, hv, hno⟩ := h.exists_top hs hτ hn hr hre
    refine ⟨j, x.closed he (by simp) j hj, fun w hw => ?_, r, hr, hre, hv⟩
    rwa [← Option.some.inj (hv.symm.trans hw)]
  choose! own hred hspent origin horigin hdesc hvars using hown
  refine x.not_of_own hit hroot (fun e he => Search.alternating_of_augment hrun he)
    (fun {j e} hj hje => ?_) (fun e he hE => ⟨hred e he hE, hspent e he hE⟩)
    (fun e he f hf hE hE' hef => ?_)
    fun {j e} _ hj hje => h.exhausts_of_spent hs hn hj (mem_highest.mp hje).1
  · have hused := (x.coloured.used hj).1.1
    exact mem_highest.mpr ⟨(h.used hused hje).1, hused⟩
  · have hτef : some (τ (origin e)) = some (τ (origin f)) := by
      rw [← hvars e he hE, ← hvars f hf hE', hef]
    have horig := hτ.names _ (horigin e he hE) _ (horigin f hf hE') (by rw [Option.some.inj hτef])
    exact (hdesc e he hE).functional (horig ▸ hdesc f hf hE')

/-- Variables and equations stay within what a failed search adds. -/
theorem Within.differentiate (hn : Within N n d) (h : Covered s N k (k + 1) d) (hs : s.Sound)
    (hτ : Highest s N n τ) (hk : k < N) (hd : Descends d k c i) (hlt : i < d.exprs.length)
    (hi : d.derivedEqOf i = none) (hrun : augment d.highest d.assign i = (false, t)) :
    Within N n (d.differentiate t) := by
  have hroot := h.rootFree hk hd
  have hout := augment_outcome h.highest_used hroot
  rw [hrun] at hout
  obtain ⟨x, -⟩ := hout
  have hno := h.not_exhausts hs hτ hn hk hd hrun
  have hsing := h.singular hlt hi x hroot
  have y := h.sound.differentiated hsing
  generalize d.differentiate t = d' at y
  have hdesc : ∀ {r c i}, Descends d r c i → Descends d' r c i :=
    fun hd => hd.mono fun he => y.derivedEq_of hsing he
  constructor
  · intro e he
    rcases Nat.lt_or_ge e d.exprs.length with hlt | hge
    · obtain ⟨r, hr, c, hc, hx⟩ := hn.times e hlt
      exact ⟨r, hr, c, hc, hdesc hx⟩
    · obtain ⟨f, hf, hfe⟩ := y.derivedEq_onto e hge he
      obtain ⟨r, hr, c, hc, hx⟩ := hn.times f (hsing.eqs f hf).1
      have hlt : c < n r := Nat.lt_of_le_of_ne hc fun hcn => hno f hf ⟨r, hr, hcn ▸ hx⟩
      exact ⟨r, hr, c + 1, hlt, (hdesc hx).step hfe⟩
  · intro j hj hor
    rcases Nat.lt_or_ge j d.vars.length with hlt | hge
    · obtain ⟨e, he⟩ := hn.occurs j hlt (by
        rcases hor with hnone | ⟨l, hl⟩
        · exact Or.inl (y.highest_old hnone).2
        · have hlr : l ∉ t.redVariables := fun hr => by
            obtain ⟨m, hm, hlm⟩ := y.derivedVar l hr
            have := Option.some.inj (hl.symm.trans hlm)
            omega
          exact Or.inr ⟨l, y.derivedVar_other l hlr ▸ hl⟩)
      exact ⟨e, y.row e (h.sound.lt_of_mem_row he) ▸ he⟩
    · obtain ⟨l, hl, hlj⟩ := y.derivedVar_onto j hge hj
      obtain ⟨e, he, hle⟩ := x.assigned_of_red hl
      obtain ⟨f, -, hef⟩ := y.derivedEq e he
      have hrow := (h.used (x.coloured.used hl).1.1 hle).1
      refine ⟨f, (y.sound.mem_row_derived hef).mpr (Or.inr ⟨l, ?_, hlj⟩)⟩
      exact y.row e (h.sound.lt_of_mem_row hrow) ▸ hrow

theorem Within.assign (hn : Within N n d) (a : Assignment) : Within N n { d with assign := a } where
  times := fun e he => by
    obtain ⟨r, hr, c, hc, hx⟩ := hn.times e he
    exact ⟨r, hr, c, hc, hx.assign a⟩
  occurs := hn.occurs

theorem matchFrom_within (hs : s.Sound) (hτ : Highest s N n τ) : ∀ {steps i c : Nat}
    {d d' : Differentiation}, Covered s N k (k + 1) d → Within N n d → k < N → Descends d k c i →
      i < d.exprs.length → d.derivedEqOf i = none → matchFrom steps i d = some d' → Within N n d'
  | 0, _, _, _, _, _, _, _, _, _, _, hm => by simp [matchFrom] at hm
  | steps + 1, i, c, d, d', h, hn, hk, hd, hlt, hi, hm => by
    have ho := augment_outcome (h.highest_used) (h.rootFree hk hd)
    rw [matchFrom] at hm
    rcases ha : augment d.highest d.assign i with ⟨_ | _, t⟩ <;> rw [ha] at ho hm
    · obtain ⟨hc, ⟨e, hie, hen, helt, hde⟩, -⟩ := h.differentiate hk hd hlt hi ho.1 ho.2
      simp only [hie] at hm
      exact matchFrom_within hs hτ hc (hn.differentiate h hs hτ hk hd hlt hi ha) hk hde helt hen hm
    · simp only [Option.some.injEq] at hm
      subst hm
      exact hn.assign _

theorem matchAll_within (hs : s.Sound) (hτ : Highest s N n τ) {steps : Nat} : ∀ {m k : Nat}
    {d d' : Differentiation}, Covered s N k k d → Within N n d → k + m = N →
      matchAll steps (List.range' k m) d = .ok d' → Within N n d'
  | 0, k, d, d', _, hn, _, hm => by
    obtain rfl : d = d' := by simpa [matchAll] using hm
    exact hn
  | m + 1, k, d, d', h, hn, hkm, hm => by
    rw [List.range'_succ, matchAll] at hm
    rcases hf : matchFrom steps k d with _ | e <;> rw [hf] at hm
    · simp at hm
    · have hlt : k < d.exprs.length := by have := h.originals; omega
      have hk := h.fresh k (by omega) (by omega)
      exact matchAll_within hs hτ (matchFrom_covered h.weaken (by omega) .refl hlt hk hf).1
        (matchFrom_within hs hτ h.weaken hn (by omega) .refl hlt hk hf) (by omega) hm

/-- Equation `r` has been differentiated `c` times. -/
def Times (d : Differentiation) (r c : Nat) : Prop :=
  ∃ i, Descends d r c i ∧ d.derivedEqOf i = none

theorem Covered.exists_times (h : Covered s N N b d) (hr : r < N) : ∃ c, Times d r c := by
  obtain ⟨c, e, j, hx, hj, hje⟩ := h.matched r hr
  exact ⟨c, e, hx, (h.used hj hje).2.1⟩

theorem Covered.times_le (h : Covered s N k b d) (hn : Within N n d) (hr : r < N)
    (hc : Times d r c) : c ≤ n r := by
  obtain ⟨i, hx, -⟩ := hc
  have hlt : i < d.exprs.length := by
    cases hx with
    | refl => exact Nat.lt_of_lt_of_le hr h.originals
    | step _ he => exact (h.sound.derivedEq_lt he).2
  obtain ⟨q, hq, c', hc', hx'⟩ := hn.times i hlt
  obtain ⟨rfl, rfl⟩ := h.unique hr hq hx hx'
  exact hc'

end Differentiation

namespace Structure

open Differentiation

variable {s : Structure} {known : List Var} {es : List Expr} {n : Nat → Nat} {v w : Var}
  {adj : Adjacency Var}

/-- The variables of an equation after differentiations, each of which keeps them and adds their
derivatives. -/
def rowAfter (vs : List Var) : Nat → List Var
  | 0 => vs
  | n + 1 => rowAfter vs n ++ (rowAfter vs n).map fun v => v.der

/-- The variables of the equations, each equation `r` differentiated `n r` times. -/
def rowsAfter (s : Structure) (n : Nat → Nat) : Adjacency Var :=
  s.perEquation.mapIdx fun r vs => rowAfter vs (n r)

/-- No higher derivative of the function occurs. -/
def IsHighest (adj : Adjacency Var) (v : Var) : Prop :=
  ∀ w ∈ adj.flatten, w.name = v.name → w.order ≤ v.order

instance (adj : Adjacency Var) (v : Var) : Decidable (IsHighest adj v) := by
  unfold IsHighest
  infer_instance

/-- The highest derivatives that occur. -/
def highestDerivatives (adj : Adjacency Var) : List Var :=
  adj.flatten.filter fun v => IsHighest adj v

/-- The equations, each equation `r` differentiated `n r` times, can be matched to the highest
derivatives that then occur. -/
def Matchable (s : Structure) (n : Nat → Nat) : Prop :=
  PerfectMatching ((s.rowsAfter n).map fun vs => vs.filter fun v => IsHighest (s.rowsAfter n) v)
    (highestDerivatives (s.rowsAfter n))

theorem mem_rowAfter {vs : List Var} {m : Nat} :
    w ∈ rowAfter vs m ↔ ∃ v ∈ vs, ∃ l ≤ m, w = v.der l := by
  induction m generalizing w with
  | zero => simp [rowAfter]
  | succ m ih =>
    simp only [rowAfter, List.mem_append, List.mem_map, ih]
    constructor
    · rintro (⟨v, hv, l, hl, rfl⟩ | ⟨_, ⟨v, hv, l, hl, rfl⟩, rfl⟩)
      · exact ⟨v, hv, l, Nat.le_succ_of_le hl, rfl⟩
      · exact ⟨v, hv, l + 1, Nat.succ_le_succ hl, Var.der_der ..⟩
    · rintro ⟨v, hv, l, hl, rfl⟩
      rcases Nat.lt_or_eq_of_le hl with hl | rfl
      · exact Or.inl ⟨v, hv, l, Nat.le_of_lt_succ hl, rfl⟩
      · exact Or.inr ⟨v.der m, ⟨v, hv, m, Nat.le_refl m, rfl⟩, Var.der_der ..⟩

theorem getElem?_rowsAfter {r : Nat} :
    (s.rowsAfter n)[r]? = (s.perEquation[r]?).map fun vs => rowAfter vs (n r) := by
  rw [rowsAfter, List.getElem?_mapIdx]

theorem length_rowsAfter : (s.rowsAfter n).length = s.perEquation.length := by
  simp [rowsAfter]

theorem mem_flatten_rowsAfter : w ∈ (s.rowsAfter n).flatten ↔
    ∃ r < s.perEquation.length, w ∈ rowAfter (s.perEquation.getD r []) (n r) := by
  rw [List.mem_flatten]
  constructor
  · rintro ⟨ws, hws, hw⟩
    obtain ⟨r, hr⟩ := List.mem_iff_getElem?.mp hws
    rw [getElem?_rowsAfter] at hr
    obtain ⟨vs, hvs, rfl⟩ := Option.map_eq_some_iff.mp hr
    refine ⟨r, lt_of_getElem? hvs, ?_⟩
    rwa [List.getD_eq_getElem?_getD, hvs]
  · rintro ⟨r, hr, hw⟩
    rw [List.getD_eq_getElem _ _ hr] at hw
    refine ⟨_, List.mem_iff_getElem?.mpr ⟨r, ?_⟩, hw⟩
    rw [getElem?_rowsAfter, List.getElem?_eq_getElem hr, Option.map_some]

theorem mem_highestDerivatives :
    v ∈ highestDerivatives adj ↔ v ∈ adj.flatten ∧ IsHighest adj v := by
  rw [highestDerivatives, List.mem_filter, decide_eq_true_eq]

/-- Of each function one derivative is the highest that occurs. -/
theorem IsHighest.eq (hv : IsHighest adj v) (hw : IsHighest adj w) (hv' : v ∈ adj.flatten)
    (hw' : w ∈ adj.flatten) (hname : v.name = w.name) : v = w := by
  have h₁ := hv w hw' hname.symm
  have h₂ := hw v hv' hname
  cases v; cases w
  simp only [Var.mk.injEq] at *
  exact ⟨hname, by omega⟩

theorem exists_highest (hv : v ∈ adj.flatten) : ∃ w ∈ highestDerivatives adj, w.name = v.name := by
  obtain ⟨w, hw, hmax⟩ := Finset.exists_max_image
    (adj.flatten.toFinset.filter fun w => w.name = v.name) Var.order ⟨v, by simpa using hv⟩
  simp only [Finset.mem_filter, List.mem_toFinset] at hw hmax
  exact ⟨w, mem_highestDerivatives.mpr ⟨hw.1, fun u hu huw => hmax u ⟨hu, huw.trans hw.2⟩⟩, hw.2⟩

/-- A matching gives each equation the highest derivative of a function of its own, and leaves no
function out. -/
theorem Matchable.exists_choice (h : s.Matchable n) : ∃ f : Nat → Var,
    (∀ r < s.perEquation.length, f r ∈ rowAfter (s.perEquation.getD r []) (n r) ∧
      IsHighest (s.rowsAfter n) (f r)) ∧
    (∀ r < s.perEquation.length, ∀ q < s.perEquation.length, (f r).name = (f q).name → r = q) ∧
    ∀ v ∈ (s.rowsAfter n).flatten, ∃ r < s.perEquation.length, (f r).name = v.name := by
  obtain ⟨f, hf, hinj, honto⟩ := h
  rw [List.length_map, length_rowsAfter] at hf hinj honto
  have hmem : ∀ r < s.perEquation.length, f r ∈ rowAfter (s.perEquation.getD r []) (n r) ∧
      IsHighest (s.rowsAfter n) (f r) := by
    intro r hr
    have hf := hf r hr
    rw [List.getD_eq_getElem?_getD, List.getElem?_map, getElem?_rowsAfter,
      List.getElem?_eq_getElem hr] at hf
    rw [List.getD_eq_getElem _ _ hr]
    simpa using hf
  have hocc : ∀ r < s.perEquation.length, f r ∈ (s.rowsAfter n).flatten := fun r hr =>
    mem_flatten_rowsAfter.mpr ⟨r, hr, (hmem r hr).1⟩
  refine ⟨f, hmem, fun r hr q hq hname => ?_, fun v hv => ?_⟩
  · exact hinj r hr q hq ((hmem r hr).2.eq (hmem q hq).2 (hocc r hr) (hocc q hq) hname)
  · obtain ⟨w, hw, hwv⟩ := exists_highest hv
    obtain ⟨r, hr, rfl⟩ := honto w hw
    exact ⟨r, hr, hwv⟩

/-! ### The equations that are differentiated -/

theorem OfFirstOrder.occursAfter_start (h : s.OfFirstOrder) {r : Nat}
    (hr : r < s.perEquation.length) :
    (start s es).OccursAfter n r w ↔ w ∈ rowAfter (s.perEquation.getD r []) (n r) := by
  have hall : ∀ v ∈ s.perEquation.getD r [], v ∈ s.all := fun v hv => by
    rw [List.getD_eq_getElem _ _ hr] at hv
    exact h.perEquation (List.getElem_mem hr) hv
  rw [OccursAfter, row_start, mem_rowAfter]
  constructor
  · rintro ⟨j, hj, v, hv, m, hm, rfl⟩
    obtain ⟨u, hu, rfl⟩ := List.mem_map.mp hj
    obtain rfl : u = v := Option.some.inj ((getElem?_idxOf (hall u hu)).symm.trans hv)
    exact ⟨u, hu, m, hm, rfl⟩
  · rintro ⟨v, hv, m, hm, rfl⟩
    exact ⟨_, List.mem_map_of_mem hv, v, getElem?_idxOf (hall v hv), m, hm, rfl⟩

theorem OfFirstOrder.exists_highest_start (h : s.OfFirstOrder) (hm : s.Matchable n) :
    ∃ τ, Differentiation.Highest (start s es) s.perEquation.length n τ := by
  obtain ⟨f, hf, hnames, -⟩ := hm.exists_choice
  refine ⟨f, fun r hr => (h.occursAfter_start hr).mpr (hf r hr).1, fun r hr q hq w hw hname => ?_,
    hnames⟩
  exact (hf r hr).2 w (mem_flatten_rowsAfter.mpr ⟨q, hq, (h.occursAfter_start hq).mp hw⟩) hname

theorem mem_perEquation_ofExprs {e : Expr} (he : e ∈ es)
    (hv : v ∈ e.unknownDerivatives known ∨ v ∈ e.unknownFunctions known) :
    ∃ vs ∈ (ofExprs known es).perEquation, v ∈ vs := by
  refine ⟨_, List.mem_map_of_mem he, ?_⟩
  rw [mem_sortVars, List.mem_append]
  exact hv

/-- Derivatives, and functions that are nowhere differentiated, occur in the equations. -/
theorem exists_row_ofExprs (hv : v ∈ (ofExprs known es).derivatives ∨
    v ∈ (ofExprs known es).algebraic) : ∃ vs ∈ (ofExprs known es).perEquation, v ∈ vs := by
  rcases hv with hv | hv
  · obtain ⟨e, he, hv⟩ := mem_derivatives_ofExprs.mp hv
    exact mem_perEquation_ofExprs he (Or.inl hv)
  · obtain ⟨⟨e, he, hv⟩, -⟩ := mem_algebraic_ofExprs.mp hv
    exact mem_perEquation_ofExprs he (Or.inr hv)

theorem mem_flatten_of_row {vs : List Var} (hvs : vs ∈ s.perEquation) (hv : v ∈ vs) :
    v ∈ (s.rowsAfter n).flatten := by
  obtain ⟨r, hr, rfl⟩ := List.mem_iff_getElem.mp hvs
  refine mem_flatten_rowsAfter.mpr ⟨r, hr, mem_rowAfter.mpr ⟨v, ?_, 0, Nat.zero_le _, by simp⟩⟩
  rwa [List.getD_eq_getElem _ _ hr]

/-- A matching needs as many equations as functions. -/
theorem Matchable.size_eq (hfirst : FirstOrder known es) (hm : (ofExprs known es).Matchable n) :
    (ofExprs known es).size = (ofExprs known es).perEquation.length := by
  have h := ofFirstOrder_ofExprs hfirst
  obtain ⟨f, hf, hnames, honto⟩ := hm.exists_choice
  -- the function of each choice
  have hfun : ∀ r < (ofExprs known es).perEquation.length,
      (f r).base ∈ (ofExprs known es).functions := by
    intro r hr
    obtain ⟨v, hv, m, -, hvm⟩ := mem_rowAfter.mp (hf r hr).1
    rw [List.getD_eq_getElem _ _ hr] at hv
    rw [hvm, Var.base_der, functions, List.mem_append]
    rcases h.mem_all.mp (h.perEquation (List.getElem_mem hr) hv) with hv | ⟨x, hx, rfl⟩ | hv
    · exact Or.inl (Var.base_of_order (h.order_state hv) ▸ hv)
    · exact Or.inl (by rwa [Var.base_der, Var.base_of_order (h.order_state hx)])
    · exact Or.inr (Var.base_of_order (h.order_algebraic hv) ▸ hv)
  -- the choice of each function
  have hchoice : ∀ x ∈ (ofExprs known es).functions,
      ∃ r < (ofExprs known es).perEquation.length, (f r).name = x.name := by
    intro x hx
    rcases List.mem_append.mp hx with hx | hx
    · obtain ⟨v, hv, rfl⟩ := mem_states_ofExprs.mp hx
      obtain ⟨vs, hvs, hv⟩ := exists_row_ofExprs (Or.inl hv)
      exact honto v (mem_flatten_of_row hvs hv)
    · obtain ⟨vs, hvs, hx⟩ := exists_row_ofExprs (Or.inr hx)
      exact honto x (mem_flatten_of_row hvs hx)
  choose! g hg hgname using hchoice
  rw [← length_functions]
  apply Nat.le_antisymm
  · have hnodup : ((ofExprs known es).functions.map g).Nodup := by
      refine List.Nodup.map_on (fun x hx y hy hxy => ?_) nodup_functions_ofExprs
      have hname : x.name = y.name := by rw [← hgname x hx, hxy, hgname y hy]
      rw [← Var.base_of_order (order_of_mem_functions hx),
        ← Var.base_of_order (order_of_mem_functions hy), Var.base_eq_iff, hname]
    have hsub : (ofExprs known es).functions.map g ⊆
        List.range (ofExprs known es).perEquation.length := fun r hr => by
      obtain ⟨x, hx, rfl⟩ := List.mem_map.mp hr
      exact List.mem_range.mpr (hg x hx)
    simpa using (hnodup.subperm hsub).length_le
  · have hnodup : ((List.range (ofExprs known es).perEquation.length).map fun r =>
        (f r).base).Nodup := by
      refine List.Nodup.map_on (fun r hr q hq hrq => ?_) List.nodup_range
      exact hnames r (List.mem_range.mp hr) q (List.mem_range.mp hq) (Var.base_eq_iff.mp hrq)
    have hsub : ((List.range (ofExprs known es).perEquation.length).map fun r => (f r).base) ⊆
        (ofExprs known es).functions := fun x hx => by
      obtain ⟨r, hr, rfl⟩ := List.mem_map.mp hx
      exact hfun r (List.mem_range.mp hr)
    simpa using (hnodup.subperm hsub).length_le

theorem within_start (hfirst : FirstOrder known es) :
    Within es.length n (start (ofExprs known es) es) := by
  have h := ofFirstOrder_ofExprs hfirst
  refine ⟨fun i hi => ⟨i, hi, 0, Nat.zero_le _, .refl⟩, fun j hj hor => ?_⟩
  obtain ⟨v, hv⟩ : ∃ v, (ofExprs known es).all[j]? = some v := ⟨_, List.getElem?_eq_getElem hj⟩
  have hoccurs : v ∈ (ofExprs known es).derivatives ∨ v ∈ (ofExprs known es).algebraic := by
    rcases mem_all_ofExprs.mp (List.mem_of_getElem? hv) with hstate | hrest
    · exfalso
      rcases hor with hnone | ⟨l, hl⟩
      · obtain ⟨k, hk⟩ := List.mem_iff_getElem?.mp (h.mem_all.mpr (Or.inr (Or.inl ⟨v, hstate, rfl⟩)))
        simp [h.derivedVarOf_start.mpr ⟨v, hv, hk⟩] at hnone
      · obtain ⟨u, -, hu⟩ := h.derivedVarOf_start.mp hl
        obtain rfl := Option.some.inj (hv.symm.trans hu)
        simpa using h.order_state hstate
    · exact hrest
  obtain ⟨vs, hvs, hv'⟩ := exists_row_ofExprs hoccurs
  obtain ⟨r, hr, rfl⟩ := List.mem_iff_getElem.mp hvs
  refine ⟨r, ?_⟩
  rw [row_start, List.getD_eq_getElem _ _ hr]
  refine List.mem_map.mpr ⟨v, hv', ?_⟩
  have hidx := getElem?_idxOf (List.mem_of_getElem? hv)
  exact (List.getElem?_inj (List.idxOf_lt_length_of_mem (List.mem_of_getElem? hv)) h.nodup_all).mp
    (hidx.trans hv.symm)

/-- Of first-order equations none is differentiated more often than a matching needs. -/
theorem times_le_of_matchable (hfirst : FirstOrder known es) {steps : Nat} {d : Differentiation}
    (hd : (ofExprs known es).differentiate es steps = .ok d) (hm : (ofExprs known es).Matchable n) :
    ∀ r < es.length, (∃ c, Times d r c) ∧ ∀ c, Times d r c → c ≤ n r := by
  have h := ofFirstOrder_ofExprs hfirst
  have hes : (ofExprs known es).perEquation.length = es.length := by simp [ofExprs]
  have hsound := h.sound_start hes
  have hstart := h.covered_start hes
  have hhighest : ∃ τ, Differentiation.Highest (start (ofExprs known es) es) _ n τ :=
    h.exists_highest_start hm
  obtain ⟨τ, hτ⟩ := hhighest
  rw [hes] at hτ
  rw [Structure.differentiate, hm.size_eq hfirst, hes, List.range_eq_range'] at hd
  have hcovered := matchAll_covered hstart (by omega) hd
  have hwithin := matchAll_within hsound hτ hstart (within_start hfirst) (by omega) hd
  exact fun r hr => ⟨hcovered.exists_times hr, fun c => hcovered.times_le hwithin hr⟩

/-- Where differentiation comes to an end, each of the equations, lowered to first order, has been
differentiated no more often than any matching of differentiated equations to highest derivatives
needs. -/
theorem differentiation_is_least {taken : List String} {steps : Nat} {d : Differentiation}
    (hd : (ofExprs known (lowerOrder known taken es).exprs).differentiate
      (lowerOrder known taken es).exprs steps = .ok d) (n : Nat → Nat)
    (hm : (ofExprs known (lowerOrder known taken es).exprs).Matchable n) :
    ∀ r < (lowerOrder known taken es).exprs.length,
      (∃ c, Times d r c) ∧ ∀ c, Times d r c → c ≤ n r :=
  times_le_of_matchable firstOrder_lowerOrder hd hm

/-- `y = x'` with `x` prescribed by an input: only the second equation is differentiated. -/
theorem differentiation_is_least_prescribed :
    let u : Var := ⟨"u", 0⟩
    let es : List Expr := [.sum (.prod (.num (-1)) (.var ⟨"y", 0⟩)) (.var ⟨"x", 1⟩),
      .sum (.prod (.num (-1)) (.var u)) (.var ⟨"x", 0⟩)]
    let l := (lowerOrder [u] [] es).exprs
    (ofExprs [u] l).Matchable id ∧ ∃ steps d, (ofExprs [u] l).differentiate l steps = .ok d ∧
      (∀ c, Times d 0 c → c = 0) ∧ ∀ c, Times d 1 c → c ≤ 1 := by
  intro u es l
  have hm : (ofExprs [u] l).Matchable id := by
    refine ⟨fun r => if r = 0 then ⟨"y", 0⟩ else ⟨"x", 1⟩, ?_, ?_, ?_⟩ <;> decide +kernel
  have hsize : (ofExprs [u] l).size = l.length := by decide +kernel
  have hlen : (ofExprs [u] l).perEquation.length = l.length := by simp [ofExprs]
  have hfirst : (ofExprs [u] l).OfFirstOrder := ofFirstOrder_ofExprs firstOrder_lowerOrder
  have hp : PerfectMatching (ofExprs [u] l).extended (ofExprs [u] l).all := by
    refine ⟨fun r => if r = 0 then ⟨"y", 0⟩ else if r = 1 then ⟨"x", 0⟩ else ⟨"x", 1⟩, ?_, ?_, ?_⟩ <;>
      decide +kernel
  obtain ⟨d, hd⟩ : ∃ d, (ofExprs [u] l).differentiate l ((ofExprs [u] l).all.length + 1) = .ok d :=
    hfirst.differentiate_isOk hlen hsize hp (by omega)
  have hleast := differentiation_is_least hd id hm
  refine ⟨hm, _, d, hd, fun c hc => ?_, ?_⟩
  · exact Nat.le_zero.mp ((hleast 0 (by decide +kernel)).2 c hc)
  · exact (hleast 1 (by decide +kernel)).2

end Structure

end Flange

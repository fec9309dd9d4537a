import Flange.Proofs.Reduction.Triangular

/-! # Names of new variables

A reduction makes variables for derivatives that it lowers, as dummies, and for derivatives that it
keeps. Only the lowering looks at the names in use. The others are fresh as long as no variable of
the system has a name that is made for them, and then no two quantities become one variable.
-/

namespace Flange

/-- A difference of two variables contains the first. -/
theorem Expr.mem_symbolList_sub {v w : Var} (h : v ≠ w) :
    Symbol.var v ∈ (Expr.var v - Expr.var w).symbolList := by
  by_contra hv
  -- otherwise its value would not depend on that of `v`
  let ρ : Valuation ℝ := ⟨0, fun _ => 0, fun _ => 0⟩
  let ρ' : Valuation ℝ := ⟨0, fun _ => 0, fun u => if u = v then 1 else 0⟩
  have hvalue : ∀ τ : Valuation ℝ, (Expr.var v - Expr.var w).eval τ = τ.var v - τ.var w := by
    intro τ
    have hsub : (Expr.var v - Expr.var w).Denotes False τ (τ.var v - τ.var w) :=
      Expr.denotes_sub (Expr.denotes_var v) (Expr.denotes_var w)
    exact hsub.eval
  have hsame : (Expr.var v - Expr.var w).eval ρ = (Expr.var v - Expr.var w).eval ρ' := by
    refine Expr.eval_congr fun s hs => ?_
    cases s with
    | var u =>
      have hne : u ≠ v := by
        rintro rfl
        exact hv hs
      simp [ρ, ρ', Valuation.symbol, hne]
    | _ => rfl
  rw [hvalue, hvalue] at hsame
  simp [ρ, ρ', h.symm] at hsame

/-! ### New variables -/

namespace Lowered

variable {v x : Var} {vs known : List Var} {taken : List String} {es : List Expr}

theorem exists_relation : ∀ {x : Var} {vs : List Var}, (∀ v ∈ vs, v.order = 0) → v ∈ vs →
    ∃ e ∈ relations x vs, v ∈ e.functions
  | x, w :: vs, ho, hv => by
    rw [relations]
    rcases List.mem_cons.mp hv with rfl | hv
    · have hne : v ≠ x.der := by
        rintro rfl
        simpa using ho _ List.mem_cons_self
      refine ⟨_, List.mem_cons_self, Expr.mem_functions.mpr ⟨v, ?_, ?_⟩⟩
      · exact Expr.mem_vars.mpr (Expr.mem_symbolList_sub hne)
      · exact Var.base_of_order (ho v List.mem_cons_self)
    · obtain ⟨e, he, hmem⟩ := exists_relation (x := w)
        (fun u hu => ho u (List.mem_cons_of_mem w hu)) hv
      exact ⟨e, List.mem_cons_of_mem _ he, hmem⟩

/-- A new variable is in an equation. -/
theorem exists_expr_of_mem_newVars (hv : v ∈ (lowerOrder known taken es).newVars) :
    ∃ e ∈ (lowerOrder known taken es).exprs, v ∈ e.functions := by
  have hnew : NewVars taken (lowerOrder known taken es).newVars := newVars_lowerOrder
  rw [lowerOrder_eq] at hv hnew ⊢
  obtain ⟨c, hc, hmem⟩ := List.mem_flatMap.mp hv
  obtain ⟨e, he, hve⟩ := exists_relation (x := c.1)
    (fun u hu => hnew.order u (List.mem_flatMap.mpr ⟨c, hc, hu⟩)) hmem
  exact ⟨e, List.mem_append_right _ (List.mem_flatMap.mpr ⟨c, hc, he⟩), hve⟩

end Lowered

/-! ### Names that are made -/

namespace SemiExplicit

/-- `name` is not `der` and does not start with `der_`: no name that is made from it for a lowered
derivative is one that is made for a kept derivative. -/
def Unlike (name : String) : Prop := ¬ "der_".toList <+: name.toList ++ ['_']

theorem prefix_of_append {cs : List Char} (ds : List Char)
    (h : "der_".toList <+: cs ++ '_' :: ds) : "der_".toList <+: cs ++ ['_'] := by
  have hder : "der_".toList = ['d', 'e', 'r', '_'] := by decide
  rw [hder] at h ⊢
  match cs with
  | [] | [_] | [_, _] => simp at h
  | [a, b, c] => simpa using h
  | a :: b :: c :: e :: cs => simpa using h

theorem Unlike.lowered {v : Var} (h : Unlike v.name) (j n : Nat) :
    Unlike ((v.base.der (j + 1)).flatName ++ String.ofList (List.replicate n '_')) := by
  intro hpre
  have hname : (v.base.der (j + 1)).flatName =
      v.name ++ "_" ++ String.ofList (List.replicate (j + 1) 't') := by
    simp [Var.flatName, Var.base, Var.der]
  rw [hname] at hpre
  refine h (prefix_of_append (List.replicate (j + 1) 't' ++ List.replicate n '_' ++ ['_']) ?_)
  simpa using hpre

theorem unlike_newVars {known : List Var} {taken : List String} {es : List Expr}
    (hes : ∀ e ∈ es, e.Over fun f => Unlike f.name) :
    ∀ v ∈ (lowerOrder known taken es).newVars, Unlike v.name := by
  intro v hv
  obtain ⟨e, he, w, hw, j, n, hname⟩ := name_of_mem_newVars hv
  rw [hname]
  have hbase : Unlike w.base.name := hes e he _ (Expr.mem_vars.mp hw)
  exact Unlike.lowered (v := w) hbase j n

theorem unlike_dummyName (v : Var) : Unlike (DummySystem.dummyName v) := by
  have hder : "der_".toList = ['d', 'e', 'r', '_'] := by decide
  have hd : "d_".toList = ['d', '_'] := by decide
  simp [Unlike, DummySystem.dummyName, hder, hd]

theorem not_unlike_derivativeName (v : Var) : ¬ Unlike (derivativeName v) := by
  simp [Unlike, derivativeName]

theorem renamed_of_derivative {v : Var} (hv : v.isDerivative = true) :
    renamed v = ⟨derivativeName v, 0⟩ := if_pos hv

variable {known : List Var} {es : List Expr} {p : Progress}

/-- Kept derivatives get different names. -/
theorem Complete.nodup_renamed (hp : Complete known es p) (hfirst : FirstOrder known es)
    (hkeys : p.keys.Nodup) : ((p.retained.filter Var.isDerivative).map renamed).Nodup := by
  have hone : ∀ v ∈ p.retained.filter Var.isDerivative, v.order = 1 := by
    intro v hv
    obtain ⟨hv, hd⟩ := List.mem_filter.mp hv
    rcases hp.retained_cases hfirst hv with ⟨ha, -⟩ | ⟨-, ho⟩
    · have ho := Structure.order_of_mem_functions (List.mem_append_right _ ha)
      simp [Var.isDerivative, ho] at hd
    · exact ho
  have hnodup := (List.nodup_append.mp hkeys).2.1.filter Var.isDerivative
  exact hnodup.map_on fun v hv w hw => eq_of_renamed_eq (hone v hv) (hone w hw)

end SemiExplicit

/-! ### Freshness -/

/-- The unknowns, the inputs, what is declared and what is observed. -/
def EquationSystem.Uses (s : EquationSystem) (v : Var) : Prop :=
  v ∈ s.unknowns ∨ v ∈ s.inputs ∨ (∃ q ∈ s.quantities, q.1 = .var v) ∨
    v ∈ s.observed.map Prod.fst

/-- Unknowns and declared variables cover the variables of the equations. -/
structure EquationSystem.Covered (s : EquationSystem) : Prop where
  order_unknown : ∀ u ∈ s.unknowns, u.order = 0
  order_input : ∀ u ∈ s.inputs, u.order = 0
  exprs : ∀ e ∈ s.exprs, ∀ f ∈ e.functions, f ∈ s.unknowns ∨ ∃ q ∈ s.quantities, q.1 = .var f

/-- No variable has a name that could be made for a dummy or a kept derivative, and the names of
inputs, of observed and of declared variables are known to be taken. -/
structure EquationSystem.Plain (s : EquationSystem) : Prop where
  dummy : ∀ v, s.Uses v → ∀ n, v.name ≠ "d_" ++ n
  derivative : ∀ v, s.Uses v → SemiExplicit.Unlike v.name
  listed : ∀ v, v ∈ s.inputs ∨ (∃ q ∈ s.quantities, q.1 = .var v) ∨
    v ∈ s.observed.map Prod.fst → v.name ∈ Reduction.takenNames s

/-- What was observed before is no unknown any more and in no equation. -/
structure EquationSystem.Settled (s : EquationSystem) : Prop where
  order : ∀ v ∈ s.observed.map Prod.fst, v.order = 0
  nodup : (s.observed.map Prod.fst).Nodup
  unknowns : ∀ u ∈ s.unknowns, u ∉ s.observed.map Prod.fst
  exprs : ∀ e ∈ s.exprs, ∀ f ∈ e.functions, f ∉ s.observed.map Prod.fst

namespace Reduction

/-- The variables that a reduction makes are different from those of the system and from each
other. -/
structure NamesFresh (s : EquationSystem) (o : ReductionOptions) : Prop where
  unused : ∀ v ∈ introduced s o, ¬ s.Uses v
  distinct : (introduced s o).Nodup

/-- The names that are made without looking are not in use. -/
structure Unclashed (s : EquationSystem) (o : ReductionOptions) (a : Aliases) (x : DummySystem) :
    Prop where
  dummies : ∀ p ∈ x.dummies, ¬ s.Uses ⟨DummySystem.dummyName p.1, 0⟩
  kept : ∀ v ∈ (finalProgress o x).retained, v.isDerivative = true →
    ¬ s.Uses ⟨SemiExplicit.derivativeName v, 0⟩
  keptLowered : ∀ v ∈ (finalProgress o x).retained, v.isDerivative = true →
    ⟨SemiExplicit.derivativeName v, 0⟩ ∉ (lower s a).newVars ++ x.lowered.newVars
  lowered : ∀ v ∈ (lower s a).newVars ++ x.lowered.newVars,
    ¬ (v ∈ s.inputs ∨ (∃ q ∈ s.quantities, q.1 = .var v) ∨ v ∈ s.observed.map Prod.fst)

variable {s : EquationSystem} {o : ReductionOptions} {a : Aliases} {t : Structure}
  {d : Differentiation} {x : DummySystem} {y : SemiExplicit} {v : Var}

/-- Aliases bring no function into the equations. -/
theorem uses_aliases (hs : s.Covered) (ha : eliminateAliases s o = .ok a) :
    ∀ e ∈ a.exprs, e.Over s.Uses := by
  have hstart : ∀ e ∈ s.exprs, e.Over s.Uses := fun e he => Expr.over_iff.mpr fun f hf =>
    (hs.exprs e he f hf).imp_right fun hf => Or.inr (Or.inl hf)
  have hkeeps := eliminateAliases_keeps
    (P := fun a => a.unknowns ⊆ s.unknowns ∧ ∀ e ∈ a.exprs, e.Over s.Uses) ha
    (fun hstep h => ⟨List.Subset.trans hstep.subset h.1, Aliases.over_step hstep
      (fun u hu => hs.order_unknown u (h.1 hu)) (fun u hu => Or.inl (h.1 hu)) h.2⟩)
    ⟨List.Subset.refl _, hstart⟩
  exact hkeeps.2

namespace Passed

variable (h : Passed s o a t d x y)

include h

/-- Names for lowered derivatives are not taken. -/
theorem lowered_free : ∀ v ∈ (lower s a).newVars ++ x.lowered.newVars,
    v.name ∉ takenNames s := by
  obtain ⟨ys, hx⟩ := h.chosen
  intro v hv ht
  rcases List.mem_append.mp hv with hv | hv
  · exact newVars_lowerOrder.free v hv ht
  · rw [hx.lowered] at hv
    exact newVars_lowerOrder.free v hv (List.mem_append_left _ ht)

/-- The second lowering looks at the names of the first. -/
theorem nodup_lowered : ((lower s a).newVars ++ x.lowered.newVars).Nodup := by
  obtain ⟨ys, hx⟩ := h.chosen
  rw [hx.lowered]
  refine List.nodup_append.mpr ⟨newVars_lowerOrder.nodup, newVars_lowerOrder.nodup, ?_⟩
  rintro v hv _ hw rfl
  refine newVars_lowerOrder.free v hw (List.mem_append_right _ (List.mem_map.mpr ⟨v, hv, ?_⟩))
  simp [Var.flatName, newVars_lowerOrder.order v hv]

/-- A dummy that was another dummy, a function of the checked equations or a variable of the second
lowering would leave too few unknowns, and the reduction would be refused. -/
theorem nodup_functions (horder : ∀ v ∈ s.inputs, v.order = 0) :
    (t.functions ++ (x.dummies.map Prod.snd ++ x.lowered.newVars)).Nodup := by
  rw [← (h.functions_perm horder).nodup_iff, h.pairing_eq.2.1]
  exact Structure.nodup_functions_ofExprs

theorem dummies_not_lowered (horder : ∀ v ∈ s.inputs, v.order = 0) :
    ∀ v ∈ x.dummies.map Prod.snd, v ∉ (lower s a).newVars := by
  intro v hv hnew
  have hnodup := h.nodup_functions horder
  have hperm := h.functions_perm horder
  have hfun : v ∈ x.structure_.functions :=
    hperm.mem_iff.mpr (List.mem_append_right _ (List.mem_append_left _ hv))
  rw [h.pairing_eq.2.1] at hfun
  have hinput := ((Structure.mem_functions_ofExprs horder).mp hfun).1
  have hchecked : v ∈ t.functions := by
    rw [h.structure_eq]
    exact (Structure.mem_functions_ofExprs horder).mpr
      ⟨hinput, Lowered.exists_expr_of_mem_newVars hnew⟩
  exact (List.nodup_append.mp hnodup).2.2 v hchecked v (List.mem_append_left _ hv) rfl

/-- What is made is made once, unless a kept derivative gets the name of a lowered one. -/
theorem nodup_introduced (horder : ∀ v ∈ s.inputs, v.order = 0)
    (hkept : ∀ v ∈ (finalProgress o x).retained, v.isDerivative = true →
      ⟨SemiExplicit.derivativeName v, 0⟩ ∉ (lower s a).newVars ++ x.lowered.newVars) :
    (introduced s o).Nodup := by
  obtain ⟨ys, hx⟩ := h.chosen
  obtain ⟨hfirst, -, hlowered⟩ := List.nodup_append.mp h.nodup_lowered
  rw [h.introduced_eq]
  refine List.nodup_append.mpr ⟨List.nodup_append.mpr ⟨hfirst, ?_, ?_⟩, ?_, ?_⟩
  · exact (List.nodup_append.mp (h.nodup_functions horder)).2.1
  · rintro v hv _ hw rfl
    rcases List.mem_append.mp hw with hw | hw
    · exact h.dummies_not_lowered horder v hw hv
    · exact hlowered v hv v hw rfl
  · exact (h.complete_final horder).nodup_renamed h.firstOrder h.nodup_keys
  · rintro v hv _ hw rfl
    obtain ⟨u, hu, rfl⟩ := List.mem_map.mp hw
    obtain ⟨hu, hd⟩ := List.mem_filter.mp hu
    rw [SemiExplicit.renamed_of_derivative hd] at hv
    have hnew := hkept u hu hd
    rw [List.mem_append, not_or] at hnew
    rcases List.mem_append.mp hv with hv | hv
    · exact hnew.1 hv
    · refine (List.mem_append.mp hv).elim (fun hv => ?_) hnew.2
      obtain ⟨p, hp, heq⟩ := List.mem_map.mp hv
      rw [hx.dummy_eq hp, Var.mk.injEq] at heq
      exact SemiExplicit.not_unlike_derivativeName u
        (heq.1 ▸ SemiExplicit.unlike_dummyName p.1)

/-- What a reduction makes, by what it is made for. -/
theorem mem_introduced : v ∈ introduced s o ↔ v ∈ (lower s a).newVars ++ x.lowered.newVars ∨
    (∃ p ∈ x.dummies, v = ⟨DummySystem.dummyName p.1, 0⟩) ∨
      ∃ u ∈ (finalProgress o x).retained, u.isDerivative = true ∧
        v = ⟨SemiExplicit.derivativeName u, 0⟩ := by
  obtain ⟨ys, hx⟩ := h.chosen
  have hdummy : v ∈ x.dummies.map Prod.snd ↔
      ∃ p ∈ x.dummies, v = ⟨DummySystem.dummyName p.1, 0⟩ := by
    rw [List.mem_map]
    exact exists_congr fun p => and_congr_right fun hp => by rw [hx.dummy_eq hp, eq_comm]
  have hkept : v ∈ ((finalProgress o x).retained.filter Var.isDerivative).map
      SemiExplicit.renamed ↔ ∃ u ∈ (finalProgress o x).retained, u.isDerivative = true ∧
        v = ⟨SemiExplicit.derivativeName u, 0⟩ := by
    simp only [List.mem_map, List.mem_filter, and_assoc]
    refine exists_congr fun u => and_congr_right fun _ => and_congr_right fun hd => ?_
    rw [SemiExplicit.renamed_of_derivative hd, eq_comm]
  rw [h.introduced_eq, List.mem_append, List.mem_append, List.mem_append, List.mem_append, hdummy,
    hkept, or_comm (b := v ∈ x.lowered.newVars), ← or_assoc, or_assoc]

/-- Names are fresh exactly when those that are made without looking are not in use. -/
theorem namesFresh_iff (hs : s.Covered) : NamesFresh s o ↔ Unclashed s o a x := by
  constructor
  · intro hn
    have hunused : ∀ {v}, _ → ¬ s.Uses v := fun hv => hn.unused _ (h.mem_introduced.mpr hv)
    constructor
    case dummies => exact fun p hp => hunused (Or.inr (Or.inl ⟨p, hp, rfl⟩))
    case kept => exact fun v hv hd => hunused (Or.inr (Or.inr ⟨v, hv, hd, rfl⟩))
    case keptLowered =>
      intro v hv hd hlowered
      have hdistinct := hn.distinct
      rw [h.introduced_eq] at hdistinct
      refine (List.nodup_append.mp hdistinct).2.2 _ ?_ _ (List.mem_map_of_mem
        (List.mem_filter.mpr ⟨hv, hd⟩)) (SemiExplicit.renamed_of_derivative hd).symm
      rcases List.mem_append.mp hlowered with hl | hl
      · exact List.mem_append_left _ hl
      · exact List.mem_append_right _ (List.mem_append_right _ hl)
    case lowered => exact fun v hv hk => hunused (Or.inl hv) (Or.inr hk)
  · intro hu
    refine ⟨fun v hv huses => ?_, h.nodup_introduced hs.order_input hu.keptLowered⟩
    rcases h.mem_introduced.mp hv with hv | ⟨p, hp, rfl⟩ | ⟨w, hw, hd, rfl⟩
    · rcases huses with hk | hk
      · exact h.lowered_free v hv (name_mem_takenNames hs.order_unknown hk)
      · exact hu.lowered v hv hk
    · exact hu.dummies p hp huses
    · exact hu.kept w hw hd huses

/-- Lowered derivatives are not named like kept ones, when no variable of the system is. -/
theorem unlike_lowered (hs : s.Covered) (hp : s.Plain) :
    ∀ v ∈ (lower s a).newVars ++ x.lowered.newVars, SemiExplicit.Unlike v.name := by
  obtain ⟨ys, hx⟩ := h.chosen
  have haliases : ∀ e ∈ a.exprs, e.Over fun f => SemiExplicit.Unlike f.name :=
    fun e he => (uses_aliases hs h.aliases e he).imp hp.derivative
  have hfirst : ∀ v ∈ (lower s a).newVars, SemiExplicit.Unlike v.name :=
    SemiExplicit.unlike_newVars haliases
  have hdummies : ∀ e ∈ DummySystem.equations d ys x.dummies,
      e.Over fun f => SemiExplicit.Unlike f.name := by
    refine hx.equations_over ?_ fun p hp => ?_
    · exact h.covered.exprs_over rfl (over_lowerOrder haliases hfirst)
    · rw [hx.dummy_eq hp]
      exact SemiExplicit.unlike_dummyName p.1
  intro v hv
  rcases List.mem_append.mp hv with hv | hv
  · exact hfirst v hv
  · rw [hx.lowered] at hv
    exact SemiExplicit.unlike_newVars hdummies v hv

theorem unclashed_of_plain (hs : s.Covered) (hp : s.Plain) : Unclashed s o a x := by
  constructor
  case dummies =>
    intro p _ huses
    exact hp.dummy ⟨DummySystem.dummyName p.1, 0⟩ huses p.1.flatName rfl
  case kept =>
    intro v _ _ huses
    have hname := hp.derivative ⟨SemiExplicit.derivativeName v, 0⟩ huses
    exact SemiExplicit.not_unlike_derivativeName v hname
  case keptLowered =>
    intro v _ _ hl
    have hname := h.unlike_lowered hs hp ⟨SemiExplicit.derivativeName v, 0⟩ hl
    exact SemiExplicit.not_unlike_derivativeName v hname
  case lowered => exact fun v hv hk => h.lowered_free v hv (hp.listed v hk)

/-- What aliases leave and observe is what the system has. -/
theorem apart_of_namesFresh (hs : s.Covered) (hset : s.Settled) (hn : NamesFresh s o) :
    Apart s o a s.Uses := by
  have hstart : (Aliases.ofSystem s).Separate (s.unknowns ++ s.observed.map Prod.fst) :=
    ⟨List.subset_append_left _ _, fun u hu => List.mem_append_right _ hu, hset.unknowns,
      fun e he => Expr.over_iff.mpr (hset.exprs e he)⟩
  have horder : ∀ u ∈ s.unknowns ++ s.observed.map Prod.fst, u.order = 0 := fun u hu =>
    (List.mem_append.mp hu).elim (hs.order_unknown u) (hset.order u)
  have hsep : a.Separate (s.unknowns ++ s.observed.map Prod.fst) :=
    eliminateAliases_keeps h.aliases (fun hstep h => h.step horder hstep) hstart
  constructor
  case unused => exact hn.unused
  case distinct => exact hn.distinct
  case closed => exact fun e he => (uses_aliases hs h.aliases e he).imp fun _ => Or.inl
  case observed =>
    intro v hv
    rcases List.mem_append.mp (hsep.observed v hv) with hv | hv
    · exact Or.inl hv
    · exact Or.inr (Or.inr (Or.inr hv))
  case eliminated => exact hsep.exprs
  case nodup => exact eliminateAliases_keeps h.aliases Aliases.nodup_keys_step hset.nodup

end Passed

end Reduction

open Reduction

/-- The names of new variables are fresh exactly when no dummy and no kept derivative gets a name
in use, and so they are when no variable has a name of that kind. With fresh names each variable
of the reduced system is a state, algebraic or observed, once. -/
theorem EquationSystem.introduced_fresh {s : EquationSystem} {o : ReductionOptions}
    {r : ReducedSystem} (hs : s.Covered) (hr : (reduce s o).outcome = .ok r) :
    (∃ a t d x, results? s o = some (a, t, d, x) ∧ (NamesFresh s o ↔ Unclashed s o a x)) ∧
    (s.Plain → NamesFresh s o) ∧
    (s.Settled → NamesFresh s o →
      (r.states ++ (r.algebraic ++ r.observed.map Prod.fst)).Nodup) := by
  obtain ⟨a, t, d, x, y, h, rfl⟩ := reduce_ok.mp hr
  refine ⟨⟨a, t, d, x, h.results?_eq, h.namesFresh_iff hs⟩,
    fun hp => (h.namesFresh_iff hs).mpr (h.unclashed_of_plain hs hp), fun hset hn => ?_⟩
  let r := ReducedSystem.ofSemiExplicit y s a.strong a.weak
  have hstates : r.states.Perm y.states := ReducedSystem.states_perm h.length_rates
  have halgebraic : r.algebraic.Perm y.algebraic := ReducedSystem.algebraic_perm
  have hobserved : r.observed.Perm y.observed := ReducedSystem.observed_perm
  have hperm := hstates.append (halgebraic.append (hobserved.map Prod.fst))
  exact hperm.nodup_iff.mpr (h.distinct hs.order_input (h.apart_of_namesFresh hs hset hn))

/-! ### A variable with the name of a dummy -/

/-- `d_x_t = z` where `z = 3 x`, with a prescribed motion `x` whose derivative gets the dummy
`d_x_t`. -/
def shadowed : EquationSystem :=
  let x : Var := ⟨"x", 0⟩
  let y : Var := ⟨"y", 0⟩
  let z : Var := ⟨"z", 0⟩
  let w : Var := ⟨"d_x_t", 0⟩
  let eqs : List Eqn :=
    [⟨⟨.var x, .fn .exp .time⟩, .comp, .nobody⟩, ⟨⟨.var y, .var x.der⟩, .comp, .nobody⟩,
      ⟨⟨.var z, .prod (.num 3) (.var x)⟩, .comp, .nobody⟩, ⟨⟨.var w, .var z⟩, .comp, .nobody⟩]
  { equations := eqs, exprs := eqs.map Eqn.residual, unknowns := [x, y, z, w] }

theorem covered_prescribed : prescribed.Covered := ⟨by decide, by decide, by decide +kernel⟩

theorem covered_shadowed : shadowed.Covered := ⟨by decide, by decide, by decide +kernel⟩

theorem plain_prescribed : prescribed.Plain := by
  have huses : ∀ v, prescribed.Uses v → v = ⟨"x", 0⟩ ∨ v = ⟨"y", 0⟩ := by
    intro v hv
    simpa [EquationSystem.Uses, prescribed] using hv
  constructor
  case dummy =>
    intro v hv n heq
    have hlen := congrArg String.length heq
    rw [String.length_append, show "d_".length = 2 by decide] at hlen
    have hone : v.name.length = 1 := by
      rcases huses v hv with rfl | rfl <;> decide
    omega
  case derivative =>
    intro v hv
    unfold SemiExplicit.Unlike
    rcases huses v hv with rfl | rfl <;> decide
  case listed => simp [prescribed]

/-- The dummy of `x'` is fresh next to `x` and `y`, but not next to an unknown `d_x_t`: there it
takes the place of the unknown, which is observed as `exp t` then instead of `3 exp t`. -/
theorem EquationSystem.introduced_fresh_prescribed :
    (prescribed.Covered ∧ ∃ r, (reduce prescribed).outcome = .ok r ∧ NamesFresh prescribed {} ∧
      (r.states ++ (r.algebraic ++ r.observed.map Prod.fst)).Nodup) ∧
    (shadowed.Covered ∧ ∃ r, (reduce shadowed).outcome = .ok r ∧ ¬ NamesFresh shadowed {} ∧
      r.observed.lookup ⟨"d_x_t", 0⟩ = some (.fn .exp .time) ∧
      r.observed.lookup ⟨"z", 0⟩ = some (.prod (.num 3) (.fn .exp .time))) := by
  constructor
  · obtain ⟨r, hr⟩ := prescribed.reduced
    have hsettled : prescribed.Settled :=
      ⟨by decide, by decide, by decide, by decide +kernel⟩
    obtain ⟨-, hfresh, honce⟩ := EquationSystem.introduced_fresh covered_prescribed hr
    exact ⟨covered_prescribed, r, hr, hfresh plain_prescribed,
      honce hsettled (hfresh plain_prescribed)⟩
  · have hobserved : (reduce shadowed).outcome.toOption.map (fun r =>
        (r.observed.lookup ⟨"d_x_t", 0⟩, r.observed.lookup ⟨"z", 0⟩)) =
        some (some (.fn .exp .time), some (.prod (.num 3) (.fn .exp .time))) := by decide +kernel
    obtain ⟨r, hr, hr'⟩ := Option.map_eq_some_iff.mp hobserved
    have hmade : ⟨"d_x_t", 0⟩ ∈ introduced shadowed {} := by decide +kernel
    have hused : shadowed.Uses ⟨"d_x_t", 0⟩ := Or.inl (by decide)
    exact ⟨covered_shadowed, r, ok_of_toOption hr, fun hn => hn.unused _ hmade hused,
      congrArg Prod.fst hr', congrArg Prod.snd hr'⟩

end Flange

import Flange.Proofs.Reduction.Refusal
import Flange.Proofs.Solution.Faithful

/-! # Triangular form

The variables of a reduced system are its states, its algebraic variables and what it observes,
each of them once. Rates and constraints are about states, algebraic variables and inputs, and
nothing that is observed comes into any expression.
-/

namespace Flange

namespace SemiExplicit

variable {known : List Var} {es : List Expr} {p : Progress} {observed : Observed} {v : Var}
  {e : Expr}

/-! ### What is in the expressions -/

theorem Complete.settled_solved (hp : Complete known es p) :
    ∀ q ∈ solvedVars p, q.2.Within (Symbol.Only (Settled known es p.retained)) := by
  intro q hq
  obtain ⟨r, hr, rfl⟩ := List.mem_map.mp (List.mem_of_mem_filter hq)
  exact within_renames (hp.within r hr)

theorem Complete.settled_rates (hp : Complete known es p) (hfirst : FirstOrder known es)
    (he : e ∈ (ofProgress (.ofExprs known es) observed p).rates) :
    e.Within (Symbol.Only (Settled known es p.retained)) := by
  rw [rates_ofProgress] at he
  obtain ⟨x, hx, rfl⟩ := List.mem_map.mp he
  rcases hp.rate_cases (der_mem_targets hfirst hx) with ⟨q, hq, -, heq⟩ | ⟨hkept, heq⟩
  · exact heq ▸ within_renames (hp.within q hq)
  · rw [heq, Expr.within_var]
    exact Or.inr ⟨order_renamed _, Or.inr (Or.inr (List.mem_map_of_mem hkept))⟩

theorem Complete.settled_constraints (hp : Complete known es p)
    (he : e ∈ (ofProgress (.ofExprs known es) observed p).constraints) :
    e.Within (Symbol.Only (Settled known es p.retained)) := by
  obtain ⟨g, hg, rfl⟩ := List.mem_map.mp he
  exact within_renames (hp.constraints g hg)

/-- Where no derivative is observed at first, the only derivatives left are those of known
functions. -/
theorem Complete.base_of_leftover (hp : Complete known es p) (hfirst : FirstOrder known es)
    (hobs : ∀ q ∈ observed, q.2.Within (Symbol.Only fun v => v.order = 0))
    (hv : v ∈ (ofProgress (.ofExprs known es) observed p).leftover) : v.base ∈ known := by
  obtain ⟨e, he, hv, ho⟩ := mem_leftover.mp hv
  have hsettled : Settled known es p.retained v ∨ v.order = 0 := by
    rcases List.mem_append.mp he with he | he
    · refine Or.inl ?_
      rcases List.mem_append.mp he with he | he
      · exact hp.settled_rates hfirst he _ (Expr.mem_vars.mp hv)
      · exact hp.settled_constraints he _ (Expr.mem_vars.mp hv)
    · obtain ⟨q, hq, rfl⟩ := List.mem_map.mp he
      rw [observed_ofProgress] at hq
      rcases Observed.of_mem_foldl_set hq with hq | hq
      · exact Or.inl (hp.settled_solved q hq _ (Expr.mem_vars.mp hv))
      · obtain ⟨r, hr, rfl⟩ := List.mem_map.mp hq
        have hsub : (r.2.substitute ((solvedVars p).map fun q => (Symbol.var q.1, q.2))).Within
            (Symbol.Only fun v => Settled known es p.retained v ∨ v.order = 0) := by
          refine Expr.within_substitute fun t ht => ?_
          change (Expr.replaceSymbol _ t).Within _
          rcases Expr.replaceSymbol_cases ((solvedVars p).map fun q => (Symbol.var q.1, q.2)) t with
            ⟨f, hf, heq⟩ | ⟨w, f, rfl, hw, -, -, -⟩ | ⟨-, -, heq⟩
          · obtain ⟨q, hq, hqf⟩ := List.mem_map.mp (mem_of_lookup hf)
            obtain ⟨-, rfl⟩ := Prod.mk.inj hqf
            rw [heq]
            exact (hp.settled_solved q hq).mono fun u hu => hu.imp fun _ => Or.inl
          · exact absurd (hobs r hr _ ht) hw
          · rw [heq, Expr.within_sym]
            exact (hobs r hr t ht : Symbol.Only _ t).imp fun _ => Or.inr
        exact hsub _ (Expr.mem_vars.mp hv)
  exact (hsettled.resolve_right ho).resolve_right fun h => ho h.1

/-! ### The variables -/

/-- A variable that is kept is an algebraic one or the derivative of a state. -/
theorem Complete.retained_cases (hp : Complete known es p) (hfirst : FirstOrder known es)
    (hv : v ∈ p.retained) :
    (v ∈ (Structure.ofExprs known es).algebraic ∧ renamed v = v) ∨
      v.isDerivative = true ∧ v.order = 1 := by
  rcases List.mem_append.mp (hp.covers.mp (Or.inr hv)) with hv | hv
  · obtain ⟨e, he, hd⟩ := Structure.mem_derivatives_ofExprs.mp hv
    have ho := hfirst e he v hd
    exact Or.inr ⟨by simp [Var.isDerivative, ho], ho⟩
  · have ho := Structure.order_of_mem_functions (List.mem_append_right _ hv)
    exact Or.inl ⟨hv, renamed_of_order ho⟩

/-- The names of kept derivatives are those of no function of the equations and of nothing that
was observed before. -/
def KeptFree (known : List Var) (es : List Expr) (p : Progress) (observed : Observed) : Prop :=
  ∀ v ∈ p.retained, v.isDerivative = true →
    renamed v ∉ (Structure.ofExprs known es).functions ∧ renamed v ∉ observed.map Prod.fst

/-- Different first derivatives get different names. -/
theorem eq_of_renamed_eq {v w : Var} (hv : v.order = 1) (hw : w.order = 1)
    (h : renamed v = renamed w) : v = w := by
  have hname : v.name = w.name := by
    simpa [renamed, Var.isDerivative, hv, hw, derivativeName] using h
  rw [← Var.der_base v, ← Var.der_base w, hv, hw, Var.base, Var.base, hname]

theorem Complete.nodup_algebraic (hp : Complete known es p) (hfirst : FirstOrder known es)
    (hkeys : p.keys.Nodup) (hfree : KeptFree known es p observed) :
    (p.retained.map renamed).Nodup := by
  refine (List.nodup_append.mp hkeys).2.1.map_on fun v hv w hw heq => ?_
  rcases hp.retained_cases hfirst hv with ⟨hva, hvr⟩ | ⟨hvd, hvo⟩ <;>
    rcases hp.retained_cases hfirst hw with ⟨hwa, hwr⟩ | ⟨hwd, hwo⟩
  · rwa [hvr, hwr] at heq
  · rw [hvr] at heq
    exact absurd (List.mem_append_right _ (heq ▸ hva)) (hfree w hw hwd).1
  · rw [hwr] at heq
    exact absurd (List.mem_append_right _ (heq ▸ hwa)) (hfree v hv hvd).1
  · exact eq_of_renamed_eq hvo hwo heq

theorem Complete.mem_of_solvedVars (hp : Complete known es p)
    (hv : v ∈ (solvedVars p).map Prod.fst) :
    v ∈ p.solved.map Prod.fst ∧ v ∈ (Structure.ofExprs known es).algebraic := by
  obtain ⟨q, hq, rfl⟩ := List.mem_map.mp hv
  obtain ⟨hq, hd⟩ := List.mem_filter.mp hq
  obtain ⟨r, hr, rfl⟩ := List.mem_map.mp hq
  have hmem : r.1 ∈ p.solved.map Prod.fst := List.mem_map_of_mem hr
  refine ⟨hmem, (List.mem_append.mp (hp.covers.mp (Or.inl hmem))).resolve_left fun h => ?_⟩
  obtain ⟨e, -, h⟩ := Structure.mem_derivatives_ofExprs.mp h
  have ho := (Structure.mem_unknownDerivatives.mp h).2.1
  simp [Var.isDerivative, ho] at hd

theorem Complete.mem_functions_of_solvedVars (hp : Complete known es p)
    (hv : v ∈ (solvedVars p).map Prod.fst) : v ∈ (Structure.ofExprs known es).functions :=
  List.mem_append_right _ (hp.mem_of_solvedVars hv).2

/-- States, what is kept under its new name and what is observed are different variables. -/
theorem Complete.distinct (hp : Complete known es p) (hfirst : FirstOrder known es)
    (hkeys : p.keys.Nodup) (hfree : KeptFree known es p observed)
    (hobs : (observed.map Prod.fst).Nodup)
    (hnew : ∀ v ∈ observed.map Prod.fst, v ∉ (Structure.ofExprs known es).functions) :
    let y := ofProgress (.ofExprs known es) observed p
    (y.states ++ (y.algebraic ++ y.observed.map Prod.fst)).Nodup := by
  intro y
  have hkey : ∀ v ∈ y.observed.map Prod.fst, (v ∈ p.solved.map Prod.fst ∧
      v ∈ (Structure.ofExprs known es).algebraic) ∨ v ∈ observed.map Prod.fst := fun v hv =>
    (mem_keys_ofProgress.mp hv).imp_left hp.mem_of_solvedVars
  have hfun : ∀ v ∈ (Structure.ofExprs known es).algebraic,
      v ∈ (Structure.ofExprs known es).functions := fun v hv => List.mem_append_right _ hv
  have hstate : ∀ v ∈ y.states, v ∈ (Structure.ofExprs known es).functions :=
    fun v hv => List.mem_append_left _ hv
  have hapart : ∀ v ∈ y.states, v ∉ (Structure.ofExprs known es).algebraic :=
    fun v hv ha => (Structure.mem_algebraic_ofExprs.mp ha).2 hv
  refine List.nodup_append.mpr ⟨nodup_sortVars _, List.nodup_append.mpr
    ⟨hp.nodup_algebraic hfirst hkeys hfree, ?_, ?_⟩, ?_⟩
  · rw [observed_ofProgress]
    exact Observed.nodup_keys_foldl_set (by simpa [Function.comp_def] using hobs)
  · rintro z hz _ hk rfl
    obtain ⟨v, hv, rfl⟩ := List.mem_map.mp hz
    rcases hp.retained_cases hfirst hv with ⟨hva, hvr⟩ | ⟨hvd, -⟩
    · rw [hvr] at hk
      rcases hkey v hk with ⟨hs, -⟩ | hk
      · exact (List.nodup_append.mp hkeys).2.2 _ hs _ hv rfl
      · exact hnew v hk (hfun v hva)
    · rcases hkey _ hk with ⟨-, ha⟩ | hk
      · exact (hfree v hv hvd).1 (hfun _ ha)
      · exact (hfree v hv hvd).2 hk
  · rintro z hz _ hk rfl
    rcases List.mem_append.mp hk with hk | hk
    · obtain ⟨v, hv, rfl⟩ := List.mem_map.mp hk
      rcases hp.retained_cases hfirst hv with ⟨hva, hvr⟩ | ⟨hvd, -⟩
      · exact hapart _ hz (hvr.symm ▸ hva)
      · exact (hfree v hv hvd).1 (hstate _ hz)
    · rcases hkey z hk with ⟨-, ha⟩ | hk
      · exact hapart z hz ha
      · exact hnew z hk (hstate z hz)

end SemiExplicit

/-! ### Reduced systems -/

/-- Each variable is a state, algebraic or observed, and only once; each state has a rate, and
there are as many constraints as algebraic variables; rates and constraints are about states,
algebraic variables and inputs; no expression contains a derivative or anything observed. -/
structure ReducedSystem.Triangular (r : ReducedSystem) : Prop where
  distinct : (r.states ++ (r.algebraic ++ r.observed.map Prod.fst)).Nodup
  length_rates : r.rates.length = r.states.length
  length_constraints : r.constraints.length = r.algebraic.length
  closed : ∀ e ∈ r.rates ++ r.constraints, ∀ v ∈ e.vars,
    v ∈ r.states ∨ v ∈ r.algebraic ∨ v ∈ r.inputs
  unobserved : ∀ e ∈ r.rates ++ r.constraints ++ r.observed.map Prod.snd, ∀ v ∈ e.vars,
    v.order = 0 ∧ v ∉ r.observed.map Prod.fst

/-- The equations are about unknowns and inputs, and nothing is observed yet. -/
structure EquationSystem.Fresh (s : EquationSystem) : Prop where
  wellFormed : s.WellFormed
  observed : s.observed = []
  closed : ∀ e ∈ s.exprs, e.Over fun f => f ∈ s.unknowns ∨ f ∈ s.inputs

namespace Reduction

/-- The variables that a reduction makes: for derivatives that it lowers, as dummies, and for
derivatives that it keeps. -/
def introduced (s : EquationSystem) (o : ReductionOptions) : List Var :=
  match results? s o with
  | none => []
  | some (a, _, _, x) =>
    ((lower s a).newVars ++ (x.dummies.map Prod.snd ++ x.lowered.newVars)) ++
      ((finalProgress o x).retained.filter Var.isDerivative).map SemiExplicit.renamed

/-- The variables that a reduction makes are different from each other and from the unknowns. -/
structure NamesFree (s : EquationSystem) (o : ReductionOptions) : Prop where
  unused : ∀ v ∈ introduced s o, v ∉ s.unknowns
  distinct : (introduced s o).Nodup

variable {s : EquationSystem} {o : ReductionOptions} {a : Aliases} {t : Structure}
  {d : Differentiation} {x : DummySystem} {y : SemiExplicit} {v : Var}

theorem closed_aliases (hs : s.Fresh) (ha : eliminateAliases s o = .ok a) :
    ∀ e ∈ a.exprs, e.Over fun f => f ∈ a.unknowns ∨ f ∈ s.inputs := by
  have hkeeps := eliminateAliases_keeps (P := fun a => a.Tracks s.unknowns s.inputs ∧
    ∀ e ∈ a.exprs, e.Over fun f => f ∈ a.unknowns ∨ f ∈ s.inputs) ha
    (fun hstep h => ⟨h.1.step hs.wellFormed.order_unknown hstep,
      Aliases.closed_step hstep (fun u hu => hs.wellFormed.order_unknown u (h.1.subset hu)) h.2⟩)
    ⟨⟨List.Subset.refl _, fun _ => Or.inl, hs.wellFormed.observed⟩, hs.closed⟩
  exact hkeeps.2

theorem undifferentiated_aliases (hs : s.Fresh) (ha : eliminateAliases s o = .ok a) :
    ∀ q ∈ a.observed, q.2.Within (Symbol.Only fun v => v.order = 0) := by
  have hnil : (Aliases.ofSystem s).observed = [] := hs.observed
  have hkeeps := eliminateAliases_keeps (P := fun a => a.unknowns ⊆ s.unknowns ∧
    ∀ q ∈ a.observed, q.2.Within (Symbol.Only fun v => v.order = 0)) ha
    (fun hstep h => ⟨List.Subset.trans hstep.subset h.1,
      Aliases.undifferentiated_step hstep (fun u hu => hs.wellFormed.order_unknown u (h.1 hu)) h.2⟩)
    ⟨List.Subset.refl _, by simp [hnil]⟩
  exact hkeeps.2

theorem nodup_aliases (hs : s.Fresh) (ha : eliminateAliases s o = .ok a) :
    (a.observed.map Prod.fst).Nodup := by
  have hnil : (Aliases.ofSystem s).observed = [] := hs.observed
  exact eliminateAliases_keeps ha Aliases.nodup_keys_step (by simp [hnil])

/-- What satisfies `P` is all that the elimination of aliases leaves in the equations, next to
inputs, and all that it observes, and the variables that the reduction makes are different from it
and from each other. -/
structure Apart (s : EquationSystem) (o : ReductionOptions) (a : Aliases) (P : Var → Prop) :
    Prop where
  unused : ∀ v ∈ introduced s o, ¬ P v
  distinct : (introduced s o).Nodup
  closed : ∀ e ∈ a.exprs, e.Over fun f => P f ∨ f ∈ s.inputs
  observed : ∀ v ∈ a.observed.map Prod.fst, P v
  eliminated : ∀ e ∈ a.exprs, e.Over fun f => f ∉ a.observed.map Prod.fst
  nodup : (a.observed.map Prod.fst).Nodup

namespace Passed

variable (h : Passed s o a t d x y)

include h

/-- The functions of the equations that are solved were left in the equations by the elimination of
aliases, or they were made. -/
theorem of_mem_functions (horder : ∀ v ∈ s.inputs, v.order = 0)
    (hv : v ∈ (Structure.ofExprs s.inputs x.exprs).functions) : (∃ e ∈ a.exprs, v ∈ e.functions) ∨
      v ∈ (lower s a).newVars ++ (x.dummies.map Prod.snd ++ x.lowered.newVars) := by
  have hperm := h.functions_perm horder
  obtain ⟨-, hst, -⟩ := h.pairing_eq
  rw [h.structure_eq, hst] at hperm
  rcases List.mem_append.mp (hperm.mem_iff.mp hv) with hv | hv
  · obtain ⟨-, e, he, hv⟩ := (Structure.mem_functions_ofExprs horder).mp hv
    have hover : e.Over fun f => (∃ e ∈ a.exprs, f ∈ e.functions) ∨ f ∈ (lower s a).newVars :=
      over_lowerOrder (fun e he => Expr.over_iff.mpr fun f hf => Or.inl ⟨e, he, hf⟩)
        (fun _ => Or.inr) e he
    exact (Expr.over_iff.mp hover v hv).imp_right (List.mem_append_left _)
  · exact Or.inr (List.mem_append_right _ hv)

theorem introduced_eq : introduced s o =
    ((lower s a).newVars ++ (x.dummies.map Prod.snd ++ x.lowered.newVars)) ++
      ((finalProgress o x).retained.filter Var.isDerivative).map SemiExplicit.renamed := by
  rw [introduced, h.results?_eq]

omit h in
theorem length_rates (h : Passed s o a t d x y) : y.states.length = y.rates.length := by
  rw [h.pairing_eq.2.2]
  exact SemiExplicit.length_rates_ofProgress _ _ _

section Inputs

variable (horder : ∀ v ∈ s.inputs, v.order = 0)

include horder

theorem length_constraints : y.constraints.length = y.algebraic.length := by
  have hb := (h.complete_final horder).balanced
  rw [h.pairing_eq.2.2]
  simpa [SemiExplicit.ofProgress] using hb

theorem closed : ∀ e ∈ y.rates ++ y.constraints, ∀ v ∈ e.vars,
    v ∈ y.states ∨ v ∈ y.algebraic ∨ v ∈ s.inputs := by
  obtain ⟨-, -, hleft, -⟩ := h.progress
  have hp := h.complete_final horder
  intro e he v hv
  have ho := SemiExplicit.order_of_leftover hleft (List.mem_append_left _ he) hv
  rw [h.pairing_eq.2.2] at he ⊢
  have hsettled : e.Within (Symbol.Only (SemiExplicit.Settled s.inputs x.exprs
      (finalProgress o x).retained)) :=
    (List.mem_append.mp he).elim (hp.settled_rates h.firstOrder) hp.settled_constraints
  rcases hsettled _ (Expr.mem_vars.mp hv) with hk | ⟨-, hst | hk | hr⟩
  · exact Or.inr (Or.inr (Var.base_of_order ho ▸ hk))
  · exact Or.inl hst
  · exact Or.inr (Or.inr hk)
  · exact Or.inr (Or.inl hr)

variable {P : Var → Prop} (hp : Apart s o a P)

include hp

/-- What aliases eliminated is in no equation any more. -/
theorem eliminated_not_mem_functions :
    ∀ v ∈ a.observed.map Prod.fst, v ∉ (Structure.ofExprs s.inputs x.exprs).functions := by
  intro v hv hf
  rcases h.of_mem_functions horder hf with ⟨e, he, hf⟩ | hf
  · exact Expr.over_iff.mp (hp.eliminated e he) v hf hv
  · exact hp.unused v (h.introduced_eq ▸ List.mem_append_left _ hf) (hp.observed v hv)

theorem keptFree :
    SemiExplicit.KeptFree s.inputs x.exprs (finalProgress o x) a.observed := by
  have hdistinct := hp.distinct
  rw [h.introduced_eq] at hdistinct
  intro v hv hd
  have hmade : SemiExplicit.renamed v ∈
      ((finalProgress o x).retained.filter Var.isDerivative).map SemiExplicit.renamed :=
    List.mem_map_of_mem (List.mem_filter.mpr ⟨hv, hd⟩)
  have hunused := hp.unused _ (h.introduced_eq ▸ List.mem_append_right _ hmade)
  refine ⟨fun hf => ?_, fun hk => hunused (hp.observed _ hk)⟩
  have hinput := ((Structure.mem_functions_ofExprs horder).mp hf).1
  rcases h.of_mem_functions horder hf with ⟨e, he, hf⟩ | hf
  · exact hunused ((Expr.over_iff.mp (hp.closed e he) _ hf).resolve_right hinput)
  · exact (List.nodup_append.mp hdistinct).2.2 _ hf _ hmade rfl

theorem distinct : (y.states ++ (y.algebraic ++ y.observed.map Prod.fst)).Nodup := by
  rw [h.pairing_eq.2.2]
  exact (h.complete_final horder).distinct h.firstOrder h.nodup_keys (h.keptFree horder hp)
    hp.nodup (h.eliminated_not_mem_functions horder hp)

end Inputs

variable (hs : s.Fresh)

include hs

theorem not_mem_inputs : ∀ v ∈ y.observed.map Prod.fst, v ∉ s.inputs := by
  have hsep := separate hs.wellFormed hs.observed h.aliases
  rw [h.pairing_eq.2.2]
  intro v hv hk
  rcases SemiExplicit.mem_keys_ofProgress.mp hv with hv | hv
  · have hf := (h.complete_final hs.wellFormed.order_input).mem_functions_of_solvedVars hv
    exact ((Structure.mem_functions_ofExprs hs.wellFormed.order_input).mp hf).1 hk
  · exact hs.wellFormed.disjoint v (hsep.observed v hv) hk

theorem closed_observed : ∀ q ∈ y.observed, ∀ v ∈ q.2.vars,
    v ∈ y.states ∨ v ∈ y.algebraic ∨ v ∈ s.inputs ∨ v ∈ unused s a := by
  intro q hq v hv
  have hacc := (h.accounts hs.wellFormed).observed q
    (ReducedSystem.mem_observed_ofSemiExplicit.mpr hq) v hv
  rwa [ReducedSystem.mem_states_ofSemiExplicit h.length_rates,
    ReducedSystem.mem_algebraic_ofSemiExplicit] at hacc

variable (hn : NamesFree s o)

include hn

/-- An unknown that is in no equation is solved for nowhere. -/
theorem unused_not_mem_functions :
    ∀ v ∈ unused s a, v ∉ (Structure.ofExprs s.inputs x.exprs).functions := by
  have horder := hs.wellFormed.order_input
  have hperm := h.functions_perm horder
  obtain ⟨-, hst, -⟩ := h.pairing_eq
  rw [h.structure_eq, hst] at hperm
  intro v hv hf
  obtain ⟨hu, hnone⟩ := mem_unused.mp hv
  rcases List.mem_append.mp (hperm.mem_iff.mp hf) with hf | hf
  · obtain ⟨-, e, he, hf⟩ := (Structure.mem_functions_ofExprs horder).mp hf
    exact hnone e he hf
  · refine hn.unused v ?_ ((tracks hs.wellFormed h.aliases).subset hu)
    rw [h.introduced_eq]
    exact List.mem_append_left _ (List.mem_append_right _ hf)

theorem apart : Apart s o a (· ∈ s.unknowns) := by
  have hsep := separate hs.wellFormed hs.observed h.aliases
  exact ⟨hn.unused, hn.distinct, fun e he => (closed_aliases hs h.aliases e he).imp
    fun f hf => hf.imp_left fun hf => hsep.subset hf, hsep.observed, hsep.exprs,
    nodup_aliases hs h.aliases⟩

theorem unobserved : ∀ e ∈ y.exprs, ∀ v ∈ e.vars, v.order = 0 ∧ v ∉ y.observed.map Prod.fst := by
  obtain ⟨-, -, hleft, -⟩ := h.progress
  have hsep := separate hs.wellFormed hs.observed h.aliases
  have hp := h.complete_final hs.wellFormed.order_input
  have hnodup := h.distinct hs.wellFormed.order_input (h.apart hs hn)
  intro e he v hv
  have ho := SemiExplicit.order_of_leftover hleft he hv
  refine ⟨ho, fun hkey => ?_⟩
  have hcases : v ∈ y.states ∨ v ∈ y.algebraic ∨ v ∈ s.inputs ∨ v ∈ unused s a := by
    rcases List.mem_append.mp he with he | he
    · exact (h.closed hs.wellFormed.order_input e he v hv).imp_right (Or.imp_right Or.inl)
    · obtain ⟨q, hq, rfl⟩ := List.mem_map.mp he
      exact h.closed_observed hs q hq v hv
  rcases hcases with hst | ha | hk | hu
  · exact (List.nodup_append.mp hnodup).2.2 v hst v (List.mem_append_right _ hkey) rfl
  · exact (List.nodup_append.mp (List.nodup_append.mp hnodup).2.1).2.2 v ha v hkey rfl
  · exact h.not_mem_inputs hs v hkey hk
  · rw [h.pairing_eq.2.2] at hkey
    rcases SemiExplicit.mem_keys_ofProgress.mp hkey with hkey | hkey
    · exact h.unused_not_mem_functions hs hn v hu (hp.mem_functions_of_solvedVars hkey)
    · exact hsep.disjoint v (mem_unused.mp hu).1 hkey

theorem triangular : (ReducedSystem.ofSemiExplicit y s a.strong a.weak).Triangular := by
  let r := ReducedSystem.ofSemiExplicit y s a.strong a.weak
  have hstates : r.states.Perm y.states := ReducedSystem.states_perm h.length_rates
  have hrates : r.rates.Perm y.rates := ReducedSystem.rates_perm h.length_rates
  have halgebraic : r.algebraic.Perm y.algebraic := ReducedSystem.algebraic_perm
  have hobserved : r.observed.Perm y.observed := ReducedSystem.observed_perm
  constructor
  · exact (hstates.append (halgebraic.append (hobserved.map Prod.fst))).nodup_iff.mpr
      (h.distinct hs.wellFormed.order_input (h.apart hs hn))
  · rw [hrates.length_eq, hstates.length_eq, h.length_rates]
  · rw [halgebraic.length_eq, ← h.length_constraints hs.wellFormed.order_input]
    rfl
  · intro e he v hv
    rw [hstates.mem_iff, halgebraic.mem_iff]
    exact h.closed hs.wellFormed.order_input e ((hrates.append_right _).mem_iff.mp he) v hv
  · intro e he v hv
    rw [(hobserved.map Prod.fst).mem_iff]
    exact h.unobserved hs hn e
      (((hrates.append_right _).append (hobserved.map Prod.snd)).mem_iff.mp he) v hv

end Passed

/-- What is asked for when the equations are solved are derivatives of inputs. -/
theorem input_of_inputDerivatives (hs : s.Fresh) {e : ModelError}
    (hr : (reduce s o).outcome = .error (.model e))
    (hc : e.cause = .reduction .inputDerivatives) :
    ∀ u ∈ e.symbols, ∃ v, u = .var v ∧ v.order ≠ 0 ∧ v.base ∈ s.inputs := by
  obtain ⟨a, t, d, x, ha, ht, hd, hx, he⟩ := (reduce_error hr).solved_of_cause hc
  obtain ⟨ys, hchosen⟩ := DummySystem.dummies_ok hx
  have hcount := hchosen.count
  rw [hchosen.structure_] at he hcount
  obtain ⟨m, hm, hsymbols⟩ := Structure.semiExplicit_inputDerivatives he hc
    (by simpa [SemiExplicit.targets] using hcount)
  have hfirst : FirstOrder s.inputs x.exprs := by
    rw [hchosen.exprs, hchosen.lowered]
    exact firstOrder_lowerOrder
  have hp : SemiExplicit.Complete s.inputs x.exprs (SemiExplicit.solveBlocks o.solveBlocks x.exprs
      (SemiExplicit.candidates (.ofExprs s.inputs x.exprs)) m) :=
    hm.complete hs.wellFormed.order_input
  rw [hsymbols]
  refine List.forall_mem_map.mpr fun v hv => ⟨v, rfl, ?_, ?_⟩
  · obtain ⟨-, -, -, ho⟩ := SemiExplicit.mem_leftover.mp hv
    exact ho
  · exact hp.base_of_leftover hfirst (undifferentiated_aliases hs ha) hv

end Reduction

open Reduction

/-- A reduced system is in triangular form when the names that the reduction makes are free, and
the only derivatives for which a reduction is refused at its end are derivatives of inputs. -/
theorem EquationSystem.reduce_triangular {s : EquationSystem} {o : ReductionOptions}
    (hs : s.Fresh) (hn : NamesFree s o) :
    (∀ r, (reduce s o).outcome = .ok r → r.Triangular) ∧
    ∀ e, (reduce s o).outcome = .error (.model e) → e.cause = .reduction .inputDerivatives →
      ∀ u ∈ e.symbols, ∃ v, u = .var v ∧ v.order ≠ 0 ∧ v.base ∈ s.inputs := by
  refine ⟨fun r hr => ?_, fun e he hc => input_of_inputDerivatives hs he hc⟩
  obtain ⟨a, t, d, x, y, h, rfl⟩ := reduce_ok.mp hr
  exact h.triangular hs hn

/-- The equations of a fresh system contain unknowns and inputs only. -/
theorem EquationSystem.fresh_of_functions {s : EquationSystem} (hs : s.WellFormed)
    (hobs : s.observed = [])
    (h : ∀ e ∈ s.exprs, ∀ f ∈ e.functions, f ∈ s.unknowns ∨ f ∈ s.inputs) : s.Fresh :=
  ⟨hs, hobs, fun e he => Expr.over_iff.mpr (h e he)⟩

/-- A motion may be prescribed by a formula, but an input has no derivative. -/
theorem EquationSystem.reduce_triangular_prescribed :
    (∃ r, (reduce prescribed).outcome = .ok r ∧ r.Triangular) ∧
    let x : Var := ⟨"x", 0⟩
    let y : Var := ⟨"y", 0⟩
    let u : Var := ⟨"u", 0⟩
    let eqs : List Eqn :=
      [⟨⟨.var x, .var u⟩, .comp, .nobody⟩, ⟨⟨.var y, .var x.der⟩, .comp, .nobody⟩]
    let s : EquationSystem :=
      { equations := eqs, exprs := eqs.map Eqn.residual, unknowns := [x, y], inputs := [u] }
    ∃ e, (reduce s).outcome = .error (.model e) ∧ e.symbols = [.var u.der] ∧
      ∀ w ∈ e.symbols, ∃ v, w = .var v ∧ v.order ≠ 0 ∧ v.base ∈ s.inputs := by
  constructor
  · have hs : prescribed.Fresh :=
      fresh_of_functions prescribed.wellFormed rfl (by decide +kernel)
    have hmade : introduced prescribed {} = [⟨"d_x_t", 0⟩] := by decide +kernel
    have hn : NamesFree prescribed {} := by
      constructor <;> rw [hmade] <;> decide
    obtain ⟨r, hr⟩ := prescribed.reduced
    exact ⟨r, hr, (EquationSystem.reduce_triangular hs hn).1 r hr⟩
  · intro x y u eqs s
    have hs : s.Fresh :=
      fresh_of_functions ⟨by decide, by decide, by decide, by simp [s]⟩ rfl (by decide +kernel)
    have hmade : introduced s {} = [⟨"d_x_t", 0⟩] := by decide +kernel
    have hn : NamesFree s {} := by
      constructor <;> rw [hmade] <;> decide
    have hcause : (match (reduce s).outcome with
        | .error (.model e) => some (e.cause, e.symbols)
        | _ => none) = some (.reduction .inputDerivatives, [.var u.der]) := by decide +kernel
    cases hr : (reduce s).outcome with
    | ok r => simp [hr] at hcause
    | error f =>
      cases f with
      | model e =>
        rw [hr] at hcause
        obtain ⟨hc, hsymbols⟩ := Prod.mk.inj (Option.some.inj hcause)
        exact ⟨e, rfl, hsymbols, (EquationSystem.reduce_triangular hs hn).2 e hr hc⟩
      | _ => simp [hr] at hcause

end Flange

import Flange.Proofs.Assembly.Meaning
import Flange.Proofs.System

/-! # Assembled systems are closed

The functions in the equations of an assembled system are its unknowns and inputs, and every one of
these is in some equation. Its parameters are known, and its initial values are those of unknowns.
It is otherwise when a quantity was given a symbol that is not of its kind: a parameter that was
declared as a variable is in the equations, and has no value.
-/

namespace Flange

/-- The function `v`, or a derivative of it, occurs in the expression. -/
def Expr.Involves (e : Expr) (v : Var) : Prop := ∃ k, Symbol.var (v.der k) ∈ e.symbolList

theorem Expr.involves_iff {e : Expr} {v : Var} (hv : v.order = 0) :
    e.Involves v ↔ v ∈ e.functions := by
  rw [mem_functions]
  constructor
  · rintro ⟨k, hk⟩
    exact ⟨v.der k, mem_vars.mpr hk, by rw [Var.base_der, Var.base_of_order hv]⟩
  · rintro ⟨w, hw, rfl⟩
    exact ⟨w.order, by rw [Var.der_base]; exact mem_vars.mp hw⟩

/-- The ports use symbols that the component declares. -/
def Component.OwnsPorts (c : Component) : Prop := ∀ p ∈ c.ports,
  p.potential.symbol ∈ c.quantities.map Quantity.symbol ∧
    p.flow.symbol ∈ c.quantities.map Quantity.symbol

/-- The symbol is what the kind asks for: that of a parameter is plain, any other is a function. -/
def Quantity.Fits (q : Quantity) : Prop :=
  if q.kind = .param then ∃ n, q.symbol = .par n else ∃ f, q.symbol = .var ⟨f, 0⟩

/-- Time, a constant, or the symbol of a quantity that it fits. -/
def Diagram.Provides (d : Diagram) (u : Symbol) : Prop :=
  u = .time ∨ (∃ p ∈ mathConstants, u = .par p.1) ∨
    ∃ c ∈ d.components, ∃ q ∈ c.quantities, q.symbol = u ∧ q.Fits

namespace Diagram

variable {d : Diagram}

theorem provides_par {n : String} : d.Provides (.par n) ↔ (∃ p ∈ mathConstants, n = p.1) ∨
    ∃ c ∈ d.components, ∃ q ∈ c.quantities, q.symbol = .par n ∧ q.kind = .param := by
  have hfits : ∀ q : Quantity, q.symbol = .par n → (q.Fits ↔ q.kind = .param) := by
    intro q hq
    rw [Quantity.Fits, hq]
    split
    · next hkind => simp [hkind]
    · next hkind => simp [hkind]
  constructor
  · rintro (h | ⟨p, hp, h⟩ | ⟨c, hc, q, hq, hsymbol, h⟩)
    · exact absurd h Symbol.noConfusion
    · exact Or.inl ⟨p, hp, Symbol.par.inj h⟩
    · exact Or.inr ⟨c, hc, q, hq, hsymbol, (hfits q hsymbol).mp h⟩
  · rintro (⟨p, hp, rfl⟩ | ⟨c, hc, q, hq, hsymbol, h⟩)
    · exact Or.inr (Or.inl ⟨p, hp, rfl⟩)
    · exact Or.inr (Or.inr ⟨c, hc, q, hq, hsymbol, (hfits q hsymbol).mpr h⟩)

theorem provides_var {v : Var} (hv : v.order = 0) : d.Provides (.var v) ↔
    ∃ c ∈ d.components, ∃ q ∈ c.quantities, q.symbol = .var v ∧ q.kind ≠ .param := by
  have hfits : ∀ q : Quantity, q.symbol = .var v → (q.Fits ↔ q.kind ≠ .param) := by
    intro q hq
    rw [Quantity.Fits, hq]
    split
    · next hkind => simp [hkind]
    · next hkind => simpa [hkind] using ⟨v.name, by rw [← hv]⟩
  constructor
  · rintro (h | ⟨p, hp, h⟩ | ⟨c, hc, q, hq, hsymbol, h⟩)
    · exact absurd h Symbol.noConfusion
    · exact absurd h Symbol.noConfusion
    · exact ⟨c, hc, q, hq, hsymbol, (hfits q hsymbol).mp h⟩
  · rintro ⟨c, hc, q, hq, hsymbol, h⟩
    exact Or.inr (Or.inr ⟨c, hc, q, hq, hsymbol, (hfits q hsymbol).mpr h⟩)

end Diagram

namespace EquationSystem

/-- Every unknown and every input is in some equation, the initial values are those of unknowns,
each given once, and the incidence says which unknown is in which equation. -/
structure Gathered (s : EquationSystem) : Prop where
  nodup : (s.unknowns ++ s.inputs).Nodup
  used : ∀ v ∈ s.unknowns ++ s.inputs, v.order = 0 ∧ ∃ e ∈ s.exprs, e.Involves v
  nodup_initial : ((s.strong ++ s.weak).map Prod.fst).Nodup
  initial : ∀ p ∈ s.strong ++ s.weak, p.1 ∈ s.unknowns
  incidence : (incidence s.exprs s.unknowns).length = s.exprs.length ∧
    ∀ (i : Nat) (e : Expr) (vs : List Var), s.exprs[i]? = some e →
      (incidence s.exprs s.unknowns)[i]? = some vs → ∀ v, v ∈ vs ↔ v ∈ s.unknowns ∧ e.Involves v

/-- The equations contain the unknowns, the inputs, known parameters and time, and nothing else. -/
structure Closed (s : EquationSystem) : Prop extends s.Gathered where
  functions : ∀ v, v ∈ s.unknowns ++ s.inputs ↔ v.order = 0 ∧ ∃ e ∈ s.exprs, e.Involves v
  symbols : ∀ e ∈ s.exprs, ∀ u ∈ e.symbolList, u = .time ∨
    (∃ n ∈ s.knowns.map Prod.fst, u = .par n) ∨ ∃ v ∈ s.unknowns ++ s.inputs, ∃ k, u = .var (v.der k)

theorem mem_incidence {exprs : List Expr} {unknowns vs : List Var} {i : Nat} {e : Expr} {v : Var}
    (hunknowns : ∀ v ∈ unknowns, v.order = 0) (he : exprs[i]? = some e)
    (hvs : (EquationSystem.incidence exprs unknowns)[i]? = some vs) :
    v ∈ vs ↔ v ∈ unknowns ∧ e.Involves v := by
  rw [EquationSystem.incidence, List.getElem?_map, he, Option.map_some, Option.some.injEq] at hvs
  rw [← hvs, unknownsIn, mem_sortVars, List.mem_filter, List.contains_iff_mem, and_comm]
  constructor
  · rintro ⟨hv, hmem⟩
    exact ⟨hv, (Expr.involves_iff (hunknowns v hv)).mpr hmem⟩
  · rintro ⟨hv, hmem⟩
    exact ⟨hv, (Expr.involves_iff (hunknowns v hv)).mp hmem⟩

end EquationSystem

namespace Assembly

open ConnectionGraph

variable {l : Library} {d : Diagram} {verbose : Bool} {s : EquationSystem} {k : Checked}
  {cs : List Component} {c : Component} {q : Quantity} {qs : List Quantity} {g : ConnectionGraph}
  {u : Symbol} {eqs : List Eqn} {used : List Var}

/-! ### Symbols of the equations -/

/-- The equations of the connections are about the potentials and the flows of the records. -/
theorem within_connections {e : Eqn} (he : e ∈ g.equations.1) : e.residual.Within fun u =>
    ∃ r ∈ g.records, u = r.potential.symbol ∨ u = r.flow.symbol := by
  rw [equations_eq] at he
  obtain ⟨p, -, he⟩ := List.mem_flatMap.mp he
  have hrecords : ∀ r ∈ g.recordsOf p.1, r ∈ g.records := fun r => mem_of_mem_recordsOf
  rcases hrs : g.recordsOf p.1 with _ | ⟨r, rs⟩ <;> rw [hrs] at he hrecords
  · exact absurd he List.not_mem_nil
  · rw [classEquations_cons] at he
    rcases List.mem_append.mp he with he | he
    · obtain ⟨r', hr', rfl⟩ := List.mem_map.mp he
      apply Expr.within_sub
      · exact Expr.within_sym.mpr ⟨r, hrecords r List.mem_cons_self, Or.inl rfl⟩
      · exact Expr.within_sym.mpr ⟨r', hrecords r' (List.mem_cons_of_mem r hr'), Or.inl rfl⟩
    · obtain rfl := List.mem_singleton.mp he
      refine Expr.within_sub Expr.within_zero ((within_balance (r :: rs)).mono ?_)
      rintro u ⟨r', hr', rfl⟩
      exact ⟨r', hrecords r' hr', Or.inr rfl⟩

theorem base_of_fits (h : q.Fits) : q.symbol.base = q.symbol := by
  rw [Quantity.Fits] at h
  split at h
  · obtain ⟨n, hn⟩ := h
    rw [hn]
    rfl
  · obtain ⟨f, hf⟩ := h
    rw [hf]
    rfl

/-- Where no symbol is of the wrong kind, everything that a component may use is provided. -/
theorem provides_of_declares (hfits : ∀ c ∈ d.components, ∀ q ∈ c.quantities, q.Fits)
    (hc : c ∈ d.components) (h : c.declares u) : d.Provides u := by
  have h : u = .time ∨ (∃ q ∈ c.quantities, q.symbol = u) ∨ ∃ p ∈ mathConstants, u = .par p.1 := by
    simpa [Component.declares, or_assoc] using h
  rcases h with h | ⟨q, hq, hsymbol⟩ | h
  · exact Or.inl h
  · exact Or.inr (Or.inr ⟨c, hc, q, hq, hsymbol, hfits c hc q hq⟩)
  · exact Or.inr (Or.inl h)

theorem provides_of_mem (hfits : ∀ c ∈ d.components, ∀ q ∈ c.quantities, q.Fits)
    (hc : c ∈ d.components) (hu : u ∈ c.quantities.map Quantity.symbol) : d.Provides u.base := by
  obtain ⟨q, hq, rfl⟩ := List.mem_map.mp hu
  rw [base_of_fits (hfits c hc q hq)]
  exact Or.inr (Or.inr ⟨c, hc, q, hq, rfl, hfits c hc q hq⟩)

/-- Every symbol in an equation is declared by some component, or every component may use it. -/
theorem within_system (hfits : ∀ c ∈ d.components, ∀ q ∈ c.quantities, q.Fits)
    (hvalid : ∀ c ∈ d.components, c.validate = .ok ()) (hown : ∀ c ∈ d.components, c.OwnsPorts)
    (hrecords : g.records = d.components.flatMap fun c => c.ports.map c.record)
    (hperm : eqs.Perm (g.equations.1 ++ d.components.flatMap Component.equations)) :
    ∀ e ∈ eqs, e.residual.Within fun u => d.Provides u.base := by
  intro e he
  rcases List.mem_append.mp (hperm.mem_iff.mp he) with he | he
  · refine (within_connections he).mono ?_
    rintro u ⟨r, hr, hu⟩
    rw [hrecords] at hr
    obtain ⟨c, hc, hr⟩ := List.mem_flatMap.mp hr
    obtain ⟨p, hp, rfl⟩ := List.mem_map.mp hr
    obtain ⟨hpotential, hflow⟩ := hown c hc p hp
    rcases hu with rfl | rfl
    · exact provides_of_mem hfits hc hpotential
    · exact provides_of_mem hfits hc hflow
  · obtain ⟨c, hc, he⟩ := List.mem_flatMap.mp he
    exact (Component.within_of_validate (hvalid c hc) e he).mono
      fun u hu => provides_of_declares hfits hc hu

theorem mem_keys_iff {ps : Constants} {n : String} :
    n ∈ ps.map Prod.fst ↔ (ps.lookup n).isSome := by
  rw [List.lookup_isSome_iff, List.mem_map]
  exact exists_congr fun p => and_congr_right fun _ => by rw [beq_iff_eq, eq_comm]

/-- What is known are the constants and the symbols of parameters, where these are plain. -/
theorem mem_knowns_iff (hdeclared : ∀ c ∈ d.components, c.Declared)
    (hk : check l d.components = .ok k) {n : String} :
    n ∈ k.knowns.map Prod.fst ↔ d.Provides (.par n) := by
  obtain ⟨k₀, hfold, rfl⟩ := exists_of_check hk
  have hpassed := passed_of_check hfold
  rw [mem_keys_iff, lookup_knowns_addConstants, Option.isSome_or, Bool.or_eq_true, ← mem_keys_iff,
    ← mem_keys_iff, Diagram.provides_par]
  apply or_congr
  · rw [List.mem_map]
    exact exists_congr fun p => and_congr_right fun _ => eq_comm
  · constructor
    · intro hn
      obtain ⟨p, hp, rfl⟩ := List.mem_map.mp hn
      obtain ⟨q, hq, hkind⟩ := hpassed.keyed.declared p hp
      rw [(extends_checkComponents hfold).quantities, List.nil_append] at hq
      obtain ⟨r, hr, heq⟩ := List.mem_map.mp hq
      obtain ⟨hsymbol, rfl⟩ := Prod.mk.inj heq
      obtain ⟨c, hc, hrc⟩ := List.mem_flatMap.mp hr
      exact ⟨c, hc, r, hrc, hsymbol, hkind⟩
    · rintro ⟨c, hc, q, hq, hsymbol, hkind⟩
      obtain ⟨v, hv⟩ := Option.isSome_iff_exists.mp ((hdeclared c hc q hq).value hkind)
      exact List.mem_map.mpr ⟨_, hpassed.knows c hc q hq hkind n hsymbol v hv, rfl⟩

/-! ### Unknowns, inputs and initial values -/

theorem mem_flatMap_functions {exprs : List Expr} {v : Var} :
    v ∈ exprs.flatMap Expr.functions ↔ v.order = 0 ∧ ∃ e ∈ exprs, e.Involves v := by
  rw [List.mem_flatMap]
  constructor
  · rintro ⟨e, he, hv⟩
    obtain ⟨w, -, rfl⟩ := Expr.mem_functions.mp hv
    exact ⟨rfl, e, he, (Expr.involves_iff rfl).mpr hv⟩
  · rintro ⟨hv, e, he, hinvolves⟩
    exact ⟨e, he, (Expr.involves_iff hv).mp hinvolves⟩

/-- Of the functions that were not declared as parameters, the unknowns and the inputs are those in
use. -/
theorem mem_unknowns_append_inputs {v : Var} :
    v ∈ (systemOf d k eqs).unknowns ++ (systemOf d k eqs).inputs ↔
      v ∈ (eqs.map Eqn.residual).flatMap Expr.functions ∧
        ∃ c ∈ d.components, ∃ q ∈ c.quantities, q.symbol = .var v ∧ q.kind ≠ .param := by
  rw [List.mem_append, mem_unknowns_systemOf, mem_inputs_systemOf]
  constructor
  · have hlive : ∀ q ∈ liveQuantities d ((eqs.map Eqn.residual).flatMap Expr.functions).eraseDups,
        q.symbol = .var v → v ∈ (eqs.map Eqn.residual).flatMap Expr.functions ∧
          ∃ c ∈ d.components, ∃ q ∈ c.quantities, q.symbol = .var v ∧ q.kind ≠ .param := by
      intro q hq hv
      obtain ⟨w, hw, hsymbol⟩ := exists_of_mem_live hq
      obtain rfl := Symbol.var.inj (hsymbol.symm.trans hv)
      obtain ⟨hmem, hlive⟩ := List.mem_filter.mp hq
      obtain ⟨c, hc, hqc⟩ := List.mem_flatMap.mp hmem
      have hkind : q.kind ≠ .param := by simpa using (Bool.and_eq_true_iff.mp hlive).1
      exact ⟨List.mem_eraseDups.mp hw, c, hc, q, hqc, hv, hkind⟩
    rintro (⟨q, hq, -, hv⟩ | ⟨q, hq, -, hv⟩)
    · exact hlive q hq hv
    · exact hlive q hq hv
  · rintro ⟨hused, c, hc, q, hq, hv, hkind⟩
    have hmem : q ∈ liveQuantities d ((eqs.map Eqn.residual).flatMap Expr.functions).eraseDups := by
      have hcontains := List.contains_iff_mem.mpr (List.mem_eraseDups.mpr hused)
      apply List.mem_filter.mpr
      rw [hv, Symbol.var?, Option.map_some, Option.getD_some, hcontains, Bool.and_true]
      exact ⟨List.mem_flatMap.mpr ⟨c, hc, hq⟩, by simpa using hkind⟩
    by_cases hkind : q.kind = .inp
    · exact Or.inr ⟨q, hmem, hkind, hv⟩
    · exact Or.inl ⟨q, hmem, hkind, hv⟩

/-- Quantities of different symbols give different variables. -/
theorem nodup_filterMap_var? (h : (qs.map Quantity.symbol).Nodup) :
    (qs.filterMap fun q => q.symbol.var?).Nodup := by
  have hmap := h.filterMap (f := Symbol.var?) ?_
  · rwa [List.filterMap_map] at hmap
  · intro a b v ha hb
    rw [Option.mem_def, var?_eq_some] at ha hb
    exact ha.trans hb.symm

theorem nodup_unknowns_append_inputs (hk : check l d.components = .ok k) :
    ((systemOf d k eqs).unknowns ++ (systemOf d k eqs).inputs).Nodup := by
  rw [systemOf]
  dsimp only
  rw [← List.filterMap_append]
  apply nodup_filterMap_var?
  have hinputs : ∀ qs : List Quantity, (qs.filter fun q => q.kind == .inp) =
      qs.filter fun q => !(q.kind != .inp) := by
    intro qs
    simp [bne]
  rw [hinputs, ((List.filter_append_perm _ _).map Quantity.symbol).nodup_iff]
  exact nodup_live hk

theorem gathered_of_assemble (hs : (assemble l d verbose).outcome = .ok s) : s.Gathered := by
  have hwell := wellFormed_of_assemble hs
  have hvalues := values_of_assemble hs
  obtain ⟨k, nodes, hk, -, hsystem⟩ := assemble_ok hs
  obtain ⟨eqs, rfl⟩ : ∃ eqs, s = systemOf d k eqs := ⟨_, hsystem⟩
  constructor
  · exact nodup_unknowns_append_inputs hk
  · intro v hv
    exact mem_flatMap_functions.mp (mem_unknowns_append_inputs.mp hv).1
  · exact hvalues.1
  · exact hvalues.2
  · constructor
    · exact List.length_map ..
    · exact fun i e vs he hvs v => EquationSystem.mem_incidence hwell.order_unknown he hvs

/-- A system is closed when its diagram provides all that the equations contain. -/
theorem closed_iff (hdeclared : ∀ c ∈ d.components, c.Declared)
    (hs : (assemble l d verbose).outcome = .ok s) :
    s.Closed ↔ ∀ e ∈ s.exprs, ∀ u ∈ e.symbolList, d.Provides u.base := by
  have hgathered := gathered_of_assemble hs
  obtain ⟨k, nodes, hk, -, hsystem⟩ := assemble_ok hs
  obtain ⟨eqs, rfl⟩ : ∃ eqs, s = systemOf d k eqs := ⟨_, hsystem⟩
  have hfunctions : ∀ v, v.order = 0 → (∃ e ∈ (systemOf d k eqs).exprs, e.Involves v) →
      (v ∈ (systemOf d k eqs).unknowns ++ (systemOf d k eqs).inputs ↔ d.Provides (.var v)) := by
    intro v hv hused
    rw [mem_unknowns_append_inputs, mem_flatMap_functions, Diagram.provides_var hv]
    exact and_iff_right ⟨hv, hused⟩
  have hinvolves : ∀ e : Expr, ∀ w : Var, .var w ∈ e.symbolList → e.Involves w.base := by
    intro e w hw
    exact ⟨w.order, by rwa [Var.der_base]⟩
  constructor
  · rintro hclosed e he u hu
    cases u with
    | time => exact Or.inl rfl
    | par n =>
      rcases hclosed.symbols e he _ hu with h | ⟨m, hm, h⟩ | ⟨v, -, i, h⟩
      · exact absurd h Symbol.noConfusion
      · obtain rfl := Symbol.par.inj h
        exact (mem_knowns_iff hdeclared hk).mp hm
      · exact absurd h Symbol.noConfusion
    | var w =>
      have hused : ∃ e ∈ (systemOf d k eqs).exprs, e.Involves w.base := ⟨e, he, hinvolves e w hu⟩
      exact (hfunctions _ (Var.order_base w) hused).mp
        ((hclosed.functions _).mpr ⟨Var.order_base w, hused⟩)
  · intro hprovides
    have hmem : ∀ v, v.order = 0 → (∃ e ∈ (systemOf d k eqs).exprs, e.Involves v) →
        v ∈ (systemOf d k eqs).unknowns ++ (systemOf d k eqs).inputs := by
      intro v hv hused
      obtain ⟨e, he, i, hi⟩ := hused
      have hprovided := hprovides e he _ hi
      rw [Symbol.base, Var.base_der, Var.base_of_order hv] at hprovided
      exact (hfunctions v hv ⟨e, he, i, hi⟩).mpr hprovided
    refine ⟨hgathered, fun v => ⟨hgathered.used v, fun h => hmem v h.1 h.2⟩, ?_⟩
    intro e he u hu
    cases u with
    | time => exact Or.inl rfl
    | par n => exact Or.inr (Or.inl ⟨n, (mem_knowns_iff hdeclared hk).mpr (hprovides e he _ hu), rfl⟩)
    | var w =>
      have hbase := hmem w.base (Var.order_base w) ⟨e, he, hinvolves e w hu⟩
      exact Or.inr (Or.inr ⟨w.base, hbase, w.order, by rw [Var.der_base]⟩)

/-- A system is closed when no quantity was given a symbol of another kind. -/
theorem closed_of_fits (hformed : ∀ c ∈ d.components, c.Formed)
    (hown : ∀ c ∈ d.components, c.OwnsPorts)
    (hfits : ∀ c ∈ d.components, ∀ q ∈ c.quantities, q.Fits)
    (hterms : ∀ ts ∈ d.connections, ∀ t ∈ ts, t.component ∈ d.components)
    (hs : (assemble l d verbose).outcome = .ok s) : s.Closed := by
  rw [closed_iff (fun c hc => (hformed c hc).declared) hs]
  obtain ⟨root, rank, g, k, eqs, hk, hrecords, -, rfl, hperm⟩ :=
    exists_graph_of_assemble (fun c hc => (hformed c hc).ports) hterms hs
  obtain ⟨-, hvalid, -⟩ := check_ok hk
  intro e he
  obtain ⟨q, hq, rfl⟩ := List.mem_map.mp he
  exact within_system hfits hvalid hown hrecords hperm q hq

/-- An assembled system has one equation for each port and those of the components. It is closed
just when every symbol in it is provided for, and it always is when no quantity was given a symbol
of another kind. -/
theorem closed_iff_provides (hformed : ∀ c ∈ d.components, c.Formed)
    (hown : ∀ c ∈ d.components, c.OwnsPorts)
    (hterms : ∀ ts ∈ d.connections, ∀ t ∈ ts, t.component ∈ d.components)
    (hs : (assemble l d verbose).outcome = .ok s) :
    s.exprs.length = (d.components.flatMap Component.ports).length +
        (d.components.flatMap Component.equations).length ∧ s.Gathered ∧
      (s.Closed ↔ ∀ e ∈ s.exprs, ∀ u ∈ e.symbolList, d.Provides u.base) ∧
      ((∀ c ∈ d.components, ∀ q ∈ c.quantities, q.Fits) → s.Closed) := by
  have hiff := closed_iff (fun c hc => (hformed c hc).declared) hs
  have hgathered := gathered_of_assemble hs
  have hfits := fun hfits => closed_of_fits hformed hown hfits hterms hs
  obtain ⟨root, rank, g, k, eqs, -, hrecords, htracks, rfl, hperm⟩ :=
    exists_graph_of_assemble (fun c hc => (hformed c hc).ports) hterms hs
  refine ⟨?_, hgathered, hiff, hfits⟩
  rw [List.length_flatMap, List.length_flatMap, ← List.sum_map_add,
    ← length_equations_eq hrecords htracks.sound, ← hperm.length_eq]
  exact List.length_map ..

/-! ### Symbols of the wrong kind -/

namespace Strutted

open Declare

/-- A flange at the angle `k x`. The symbol of the variable `k` is given and plain, that of the
parameter `x` is given and a function. -/
def strut : Template where
  interface := { template := "Strut", connectors := ["p"] }
  build _ := do
    let (phi, _) ← flange "p"
    let c ← get
    let k ← quantity "k" c.name .var {} (some (.par "k"))
    let x ← quantity "x" c.name .param { value := some ⟨1, 0⟩ } (some (.var ⟨"x", 0⟩))
    equation phi.expr (k.expr * x.expr)

def diagram : Diagram where
  components := [Rotational.Driven.part strut 0 "strut" []]

theorem keeps_strut (a : Arguments) : Keeps Component.Formed (strut.build a) := by
  apply (keeps_flange _ _ _ _ _).bind
  rintro ⟨phi, tau⟩
  apply keeps_get_bind
  intro c
  apply (keeps_quantity _ _ _ _ _).bind
  intro k
  apply (keeps_quantity _ _ _ _ _).bind
  intro x
  exact keeps_equation _ _ _

/-- In the equations there are the symbol `k`, which is not known, and the function `x`, which is
neither an unknown nor an input. -/
theorem closed_iff_provides_strutted :
    (∀ c ∈ diagram.components, c.Formed) ∧ (∀ c ∈ diagram.components, c.OwnsPorts) ∧
      (∀ ts ∈ diagram.connections, ∀ t ∈ ts, t.component ∈ diagram.components) ∧
      ∃ s, (assemble ⟨[("Strut", strut)]⟩ diagram).outcome = .ok s ∧
        (∃ e ∈ s.exprs, .par "k" ∈ e.symbolList ∧ .var ⟨"x", 0⟩ ∈ e.symbolList) ∧
        s.knowns.lookup "k" = none ∧ s.unknowns = [⟨"strut_p_phi", 0⟩, ⟨"strut_p_tau", 0⟩] ∧
        s.inputs = [] ∧ s.exprs.length = 2 ∧ ¬ s.Closed := by
  have hformed : ∀ c ∈ diagram.components, c.Formed := by
    intro c hc
    obtain rfl := List.mem_singleton.mp hc
    exact keeps_strut [] _ (Component.formed_blank strut 0 (some "strut"))
  have hown : ∀ c ∈ diagram.components, c.OwnsPorts := by
    have hall : diagram.components.all fun c => c.ports.all fun p =>
        decide (p.potential.symbol ∈ c.quantities.map Quantity.symbol) &&
          decide (p.flow.symbol ∈ c.quantities.map Quantity.symbol) := by decide +kernel
    simpa [Component.OwnsPorts] using hall
  have hterms : ∀ ts ∈ diagram.connections, ∀ t ∈ ts, t.component ∈ diagram.components := by
    simp [diagram]
  have hsymbols : (diagram.components.flatMap fun c => c.quantities.map fun q =>
      (q.symbol, q.kind)) = [(.var ⟨"strut_p_phi", 0⟩, .pot), (.var ⟨"strut_p_tau", 0⟩, .flow),
        (.par "k", .var), (.var ⟨"x", 0⟩, .param)] := by decide +kernel
  have hrun : (assemble ⟨[("Strut", strut)]⟩ diagram).outcome.toOption.map (fun s =>
      (s.exprs.any fun e =>
        decide (.par "k" ∈ e.symbolList) && decide (.var ⟨"x", 0⟩ ∈ e.symbolList),
        s.knowns.lookup "k", s.unknowns, s.inputs)) =
        some (true, none, [⟨"strut_p_phi", 0⟩, ⟨"strut_p_tau", 0⟩], []) := by decide +kernel
  obtain ⟨s, hs, hrun⟩ := Option.map_eq_some_iff.mp hrun
  have hs := ok_of_toOption hs
  simp only [Prod.mk.injEq] at hrun
  obtain ⟨hoccur, hknown, hunknowns, hinputs⟩ := hrun
  obtain ⟨e, he, hk, hx⟩ : ∃ e ∈ s.exprs,
      .par "k" ∈ e.symbolList ∧ .var ⟨"x", 0⟩ ∈ e.symbolList := by simpa using hoccur
  obtain ⟨hlength, -, hiff, -⟩ := closed_iff_provides hformed hown hterms hs
  have hports : (diagram.components.flatMap Component.ports).length = 1 := by decide +kernel
  have hequations : (diagram.components.flatMap Component.equations).length = 1 := by
    decide +kernel
  rw [hports, hequations] at hlength
  refine ⟨hformed, hown, hterms, s, hs, ⟨e, he, hk, hx⟩, hknown, hunknowns, hinputs, hlength, ?_⟩
  rw [hiff]
  intro hprovides
  obtain ⟨p, hp, heq⟩ | ⟨c, hc, q, hq, hsymbol, hkind⟩ :=
    Diagram.provides_par.mp (hprovides e he _ hk)
  · exact absurd heq (by revert p; decide)
  · -- the only quantity with that symbol is a variable
    have hmem : (q.symbol, q.kind) ∈ diagram.components.flatMap fun c =>
        c.quantities.map fun q => (q.symbol, q.kind) :=
      List.mem_flatMap.mpr ⟨c, hc, List.mem_map_of_mem hq⟩
    rw [hsymbols, hsymbol, hkind] at hmem
    exact absurd hmem (by decide)

end Strutted

end Assembly

/-! ### Components of the library -/

namespace Rotational

variable {c : Component}

theorem Shaped.formed (h : Shaped c) : c.Formed := ⟨h.plain.declared, h.shape.ports.1⟩

/-- The angle and the torque of a flange are variables of the component. -/
theorem Shaped.ownsPorts (h : Shaped c) : c.OwnsPorts := by
  have hvariable : ∀ m ∈ variableNames c.name c.interface.template c.ports,
      .var ⟨m, 0⟩ ∈ c.quantities.map Quantity.symbol := by
    rw [← h.named]
    intro m hm
    obtain ⟨q, hq, rfl⟩ := List.mem_map.mp hm
    obtain ⟨hqc, hkind⟩ := List.mem_filter.mp hq
    have hparam : q.kind ≠ .param := by
      rintro hparam
      simp [hparam] at hkind
    exact List.mem_map.mpr ⟨q, hqc, (h.plain q hqc).symbol_eq hparam⟩
  intro p hp
  have hnames : ∀ m ∈ [p.potential.name, p.flow.name],
      m ∈ variableNames c.name c.interface.template c.ports := fun m hm =>
    List.mem_append_left _ (List.mem_flatMap.mpr ⟨p, hp, hm⟩)
  obtain ⟨port, o, rfl⟩ := h.shape.exists_flange p hp
  constructor
  · exact hvariable _ (hnames _ List.mem_cons_self)
  · exact hvariable _ (hnames _ (List.mem_cons_of_mem _ List.mem_cons_self))

theorem Shaped.fits (h : Shaped c) : ∀ q ∈ c.quantities, q.Fits := by
  intro q hq
  rw [Quantity.Fits, (h.plain q hq).symbol]
  split
  · next hkind => exact ⟨q.name, by rw [hkind]; rfl⟩
  · next hkind => exact ⟨q.name, by cases hk : q.kind <;> simp_all [Quantity.symbolFor]⟩

/-- Diagrams of components of the library have closed systems. -/
theorem closed_of_assemble {l : Library} {d : Diagram} {verbose : Bool} {s : EquationSystem}
    (hbuilt : ∀ c ∈ d.components, Built c)
    (hterms : ∀ ts ∈ d.connections, ∀ t ∈ ts, t.component ∈ d.components)
    (hs : (assemble l d verbose).outcome = .ok s) : s.Closed := by
  have hshaped : ∀ c ∈ d.components, Shaped c := fun c hc => (hbuilt c hc).shaped
  exact Assembly.closed_of_fits (fun c hc => (hshaped c hc).formed)
    (fun c hc => (hshaped c hc).ownsPorts) (fun c hc => (hshaped c hc).fits) hterms hs

end Rotational

end Flange

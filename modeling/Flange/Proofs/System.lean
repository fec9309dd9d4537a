import Flange.Proofs.Reduction.Accounting
import Flange.Proofs.Unknowns

/-! # Assembled systems

The unknowns and the inputs of an assembled system are different functions, and its initial values
belong to different unknowns: each of them is a quantity of one component.
-/

namespace Flange

namespace Assembly

variable {l : Library} {d : Diagram} {verbose : Bool} {s : EquationSystem} {k : Checked}
  {used : List Var} {v : Var} {q : Quantity} {qs : List Quantity}

theorem var?_eq_some {s : Symbol} {v : Var} : s.var? = some v ↔ s = .var v := by
  cases s <;> simp [Symbol.var?]

theorem exists_of_mem_live (h : q ∈ liveQuantities d used) : ∃ v ∈ used, q.symbol = .var v := by
  have hlive := (Bool.and_eq_true_iff.mp (List.mem_filter.mp h).2).2
  cases hsymbol : q.symbol with
  | var v => exact ⟨v, by simpa [hsymbol, Symbol.var?] using hlive, rfl⟩
  | _ => simp [hsymbol, Symbol.var?] at hlive

theorem exists_of_mem_initialValues {isFixed : Bool} {p : Var × Rat}
    (h : p ∈ initialValues isFixed qs) :
    ∃ q ∈ qs, q.symbol = .var p.1 ∧ q.kind ≠ .inp ∧ q.isFixed = isFixed := by
  obtain ⟨q, hq, hp⟩ := List.mem_filterMap.mp h
  simp only [Option.bind_eq_bind, Option.bind_eq_some_iff] at hp
  obtain ⟨v, hv, r, hr, hp⟩ := hp
  split at hp
  · next hfixed =>
    obtain rfl := Option.some.inj hp
    obtain ⟨hkind, hfixed⟩ := Bool.and_eq_true_iff.mp hfixed
    exact ⟨q, hq, var?_eq_some.mp hv, by simpa using hkind, by simpa using hfixed⟩
  · simp at hp

/-- Of quantities with different symbols at most one gives a variable its initial value. -/
theorem nodup_initialValues {isFixed : Bool} (h : (qs.map Quantity.symbol).Nodup) :
    ((initialValues isFixed qs).map Prod.fst).Nodup := by
  rw [List.Nodup, List.pairwise_map, initialValues, List.pairwise_filterMap]
  refine (List.pairwise_map.mp h).imp fun {q q'} hne p hp p' hp' heq => hne ?_
  have hsymbol : ∀ {q : Quantity} {p : Var × Rat}, (do
      let v ← q.symbol.var?
      let r ← q.initial
      if q.kind != .inp && q.isFixed == isFixed then some (v, r.toRat) else none) = some p →
        q.symbol = .var p.1 := by
    intro q p hp
    have hmem : p ∈ initialValues isFixed [q] :=
      List.mem_filterMap.mpr ⟨q, List.mem_cons_self, hp⟩
    obtain ⟨r, hr, hsymbol, -⟩ := exists_of_mem_initialValues hmem
    rwa [List.mem_singleton.mp hr] at hsymbol
  rw [hsymbol hp, hsymbol hp', heq]

/-- No variable has both a fixed value and a suggested one. -/
theorem nodup_initialValues_append (h : (qs.map Quantity.symbol).Nodup) :
    ((initialValues true qs ++ initialValues false qs).map Prod.fst).Nodup := by
  rw [List.map_append]
  apply (nodup_initialValues h).append (nodup_initialValues h)
  intro v hstrong hweak
  obtain ⟨p, hp, rfl⟩ := List.mem_map.mp hstrong
  obtain ⟨p', hp', heq⟩ := List.mem_map.mp hweak
  obtain ⟨q, hq, hsymbol, -, hfixed⟩ := exists_of_mem_initialValues hp
  obtain ⟨q', hq', hsymbol', -, hfree⟩ := exists_of_mem_initialValues hp'
  rw [heq, ← hsymbol] at hsymbol'
  rw [List.inj_on_of_nodup_map h hq' hq hsymbol', hfixed] at hfree
  exact absurd hfree (by simp)

theorem mem_unknowns_systemOf {eqs : List Eqn} : v ∈ (systemOf d k eqs).unknowns ↔
    ∃ q ∈ liveQuantities d ((eqs.map Eqn.residual).flatMap Expr.functions).eraseDups,
      q.kind ≠ .inp ∧ q.symbol = .var v := by
  simp [systemOf, and_assoc, var?_eq_some]

theorem mem_inputs_systemOf {eqs : List Eqn} : v ∈ (systemOf d k eqs).inputs ↔
    ∃ q ∈ liveQuantities d ((eqs.map Eqn.residual).flatMap Expr.functions).eraseDups,
      q.kind = .inp ∧ q.symbol = .var v := by
  simp [systemOf, and_assoc, var?_eq_some]

theorem order_of_live {eqs : List Eqn}
    (hq : q ∈ liveQuantities d ((eqs.map Eqn.residual).flatMap Expr.functions).eraseDups)
    (hv : q.symbol = .var v) : v.order = 0 := by
  obtain ⟨w, hw, hsymbol⟩ := exists_of_mem_live hq
  obtain rfl := Symbol.var.inj (hsymbol.symm.trans hv)
  obtain ⟨e, -, hw⟩ := List.mem_flatMap.mp (List.mem_eraseDups.mp hw)
  obtain ⟨u, -, rfl⟩ := Expr.mem_functions.mp hw
  rfl

theorem nodup_live (hk : check l d.components = .ok k) :
    ((liveQuantities d used).map Quantity.symbol).Nodup :=
  (nodup_symbols hk).sublist (List.filter_sublist.map _)

/-- An assembled system is one of functions; none is both an unknown and an input. -/
theorem wellFormed_of_assemble (hs : (assemble l d verbose).outcome = .ok s) : s.WellFormed := by
  obtain ⟨k, nodes, hk, -, rfl⟩ := assemble_ok hs
  constructor
  · intro v hv
    obtain ⟨q, hq, -, hsymbol⟩ := mem_unknowns_systemOf.mp hv
    exact order_of_live hq hsymbol
  · intro v hv
    obtain ⟨q, hq, -, hsymbol⟩ := mem_inputs_systemOf.mp hv
    exact order_of_live hq hsymbol
  · intro v hv hinput
    obtain ⟨q, hq, hkind, hsymbol⟩ := mem_unknowns_systemOf.mp hv
    obtain ⟨q', hq', hkind', hsymbol'⟩ := mem_inputs_systemOf.mp hinput
    have hsame : q = q' :=
      List.inj_on_of_nodup_map (nodup_live hk) hq hq' (hsymbol.trans hsymbol'.symm)
    exact hkind (hsame ▸ hkind')
  · intro q hq
    exact absurd hq List.not_mem_nil

/-- Initial values belong to different unknowns. -/
theorem values_of_assemble (hs : (assemble l d verbose).outcome = .ok s) :
    ((s.strong ++ s.weak).map Prod.fst).Nodup ∧ ∀ p ∈ s.strong ++ s.weak, p.1 ∈ s.unknowns := by
  obtain ⟨k, nodes, hk, -, rfl⟩ := assemble_ok hs
  refine ⟨nodup_initialValues_append (nodup_live hk), fun p hp => ?_⟩
  obtain ⟨isFixed, hp⟩ : ∃ isFixed, p ∈ initialValues isFixed (liveQuantities d _) :=
    (List.mem_append.mp hp).elim (fun hp => ⟨true, hp⟩) fun hp => ⟨false, hp⟩
  obtain ⟨q, hq, hsymbol, hkind, -⟩ := exists_of_mem_initialValues hp
  exact mem_unknowns_systemOf.mpr ⟨q, hq, hkind, hsymbol⟩

end Assembly

end Flange

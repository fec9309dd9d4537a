import Flange.Proofs.Expr.Occurrence
import Flange.Proofs.Symbol
import Flange.Reduction.Structure

/-! # Variables of a structure

Which functions and derivatives the structure of a list of equations has.
-/

namespace Flange

/-- No derivative in the equations is of an order other than the first. -/
def FirstOrder (known : List Var) (es : List Expr) : Prop :=
  ∀ e ∈ es, ∀ v ∈ e.unknownDerivatives known, v.order = 1

namespace Structure

variable {s : Structure} {known : List Var} {es : List Expr} {v x : Var}

/-- The variables are those of the equations: functions, and derivatives of first order of some
of them. -/
structure OfFirstOrder (s : Structure) : Prop where
  nodup_all : s.all.Nodup
  nodup_states : s.states.Nodup
  nodup_algebraic : s.algebraic.Nodup
  order_state : ∀ {x}, x ∈ s.states → x.order = 0
  order_algebraic : ∀ {x}, x ∈ s.algebraic → x.order = 0
  disjoint : ∀ {x}, x ∈ s.states → x ∉ s.algebraic
  mem_all : ∀ {v}, v ∈ s.all ↔ v ∈ s.states ∨ (∃ x ∈ s.states, v = x.der) ∨ v ∈ s.algebraic
  perEquation : ∀ {vs v}, vs ∈ s.perEquation → v ∈ vs → v ∈ s.all

theorem mem_unknownDerivatives {e : Expr} : v ∈ e.unknownDerivatives known ↔
    v ∈ e.vars ∧ v.order ≠ 0 ∧ v ∉ known ∧ v.base ∉ known := by
  simp [Expr.unknownDerivatives, Expr.derivatives, Var.isDerivative]
  tauto

theorem mem_unknownFunctions {e : Expr} : v ∈ e.unknownFunctions known ↔
    v ∈ e.vars ∧ v.order = 0 ∧ v ∉ known := by
  simp [Expr.unknownFunctions, Var.isDerivative]

theorem mem_derivatives_ofExprs : v ∈ (ofExprs known es).derivatives ↔
    ∃ e ∈ es, v ∈ e.unknownDerivatives known := by simp [ofExprs]

theorem mem_states_ofExprs : v ∈ (ofExprs known es).states ↔
    ∃ w ∈ (ofExprs known es).derivatives, w.base = v := by simp [ofExprs]

theorem mem_algebraic_ofExprs : v ∈ (ofExprs known es).algebraic ↔
    (∃ e ∈ es, v ∈ e.unknownFunctions known) ∧ v ∉ (ofExprs known es).states := by simp [ofExprs]

theorem mem_all_ofExprs : v ∈ (ofExprs known es).all ↔ v ∈ (ofExprs known es).states ∨
    v ∈ (ofExprs known es).derivatives ∨ v ∈ (ofExprs known es).algebraic := by simp [ofExprs]

theorem eq_der_of_mem_derivatives (h : FirstOrder known es) (hv : v ∈ (ofExprs known es).derivatives) :
    v = v.base.der := by
  obtain ⟨e, he, hv⟩ := mem_derivatives_ofExprs.mp hv
  have := h e he v hv
  cases v
  simpa [Var.base, Var.der] using this

theorem ofFirstOrder_ofExprs (h : FirstOrder known es) : (ofExprs known es).OfFirstOrder := by
  refine ⟨nodup_sortVars _, nodup_sortVars _, nodup_sortVars _, ?_, ?_, ?_, ?_, ?_⟩
  · intro x hx
    obtain ⟨v, -, rfl⟩ := mem_states_ofExprs.mp hx
    rfl
  · intro x hx
    obtain ⟨⟨e, -, hx⟩, -⟩ := mem_algebraic_ofExprs.mp hx
    exact (mem_unknownFunctions.mp hx).2.1
  · exact fun hx ha => (mem_algebraic_ofExprs.mp ha).2 hx
  · intro v
    refine mem_all_ofExprs.trans (or_congr_right (or_congr_left ⟨fun hv => ?_, ?_⟩))
    · exact ⟨v.base, mem_states_ofExprs.mpr ⟨v, hv, rfl⟩, eq_der_of_mem_derivatives h hv⟩
    · rintro ⟨x, hx, rfl⟩
      obtain ⟨w, hw, rfl⟩ := mem_states_ofExprs.mp hx
      exact eq_der_of_mem_derivatives h hw ▸ hw
  · intro vs v hvs hv
    simp only [ofExprs, List.mem_map] at hvs
    obtain ⟨e, he, rfl⟩ := hvs
    rw [mem_sortVars, List.mem_append] at hv
    rcases hv with hv | hv
    · exact mem_all_ofExprs.mpr (Or.inr (Or.inl (mem_derivatives_ofExprs.mpr ⟨e, he, hv⟩)))
    · by_cases hs : v ∈ (ofExprs known es).states
      · exact mem_all_ofExprs.mpr (Or.inl hs)
      · exact mem_all_ofExprs.mpr (Or.inr (Or.inr (mem_algebraic_ofExprs.mpr ⟨⟨e, he, hv⟩, hs⟩)))

theorem OfFirstOrder.eq_base_or (h : s.OfFirstOrder) (hv : v ∈ s.all) :
    v = v.base ∨ v.base ∈ s.states ∧ v = v.base.der := by
  have hbase : ∀ {x : Var}, x.order = 0 → x.base = x := by
    rintro ⟨n, o⟩ rfl
    rfl
  rcases h.mem_all.mp hv with hv | ⟨x, hx, rfl⟩ | hv
  · exact Or.inl (hbase (h.order_state hv)).symm
  · have hx' : x.der.base = x := hbase (h.order_state hx)
    rw [hx']
    exact Or.inr ⟨hx, rfl⟩
  · exact Or.inl (hbase (h.order_algebraic hv)).symm

/-- Different variables of one name are a function and its derivative. -/
theorem OfFirstOrder.eq_or_der (h : s.OfFirstOrder) {w : Var} (hv : v ∈ s.all) (hw : w ∈ s.all)
    (hname : v.name = w.name) (hne : v ≠ w) :
    ∃ x ∈ s.states, (v = x ∧ w = x.der) ∨ (v = x.der ∧ w = x) := by
  have hbase : v.base = w.base := congrArg (Var.mk · 0) hname
  rcases h.eq_base_or hv with hv | ⟨hvs, hv⟩ <;> rcases h.eq_base_or hw with hw | ⟨hws, hw⟩
  · exact absurd (hv.trans (hbase.trans hw.symm)) hne
  · exact ⟨w.base, hws, Or.inl ⟨hv.trans hbase, hw⟩⟩
  · exact ⟨v.base, hvs, Or.inr ⟨hv, hw.trans hbase.symm⟩⟩
  · exact absurd (hv.trans (hbase ▸ hw.symm)) hne

theorem OfFirstOrder.length_all (h : s.OfFirstOrder) :
    s.all.length = s.size + s.states.length := by
  have hperm : s.all.Perm (s.states ++ (s.states.map Var.der ++ s.algebraic)) := by
    rw [List.perm_ext_iff_of_nodup h.nodup_all]
    · intro v
      rw [h.mem_all]
      simp [eq_comm]
    · have hders : (s.states.map Var.der).Nodup :=
        h.nodup_states.map fun v w hvw => Var.der_injective hvw
      refine List.nodup_append.mpr ⟨h.nodup_states, List.nodup_append.mpr
        ⟨hders, h.nodup_algebraic, ?_⟩, ?_⟩
      · rintro _ hv w hw rfl
        obtain ⟨x, -, rfl⟩ := List.mem_map.mp hv
        simpa using h.order_algebraic hw
      · rintro v hv _ hw rfl
        rcases List.mem_append.mp hw with hw | hw
        · obtain ⟨x, -, rfl⟩ := List.mem_map.mp hw
          simpa using h.order_state hv
        · exact h.disjoint hv hw
  rw [hperm.length_eq]
  simp [size]
  omega

/-! ### Functions -/

/-- The functions of a structure, each once. -/
def functions (s : Structure) : List Var := s.states ++ s.algebraic

theorem length_functions : s.functions.length = s.size := by simp [functions, size]

theorem nodup_functions_ofExprs : (ofExprs known es).functions.Nodup :=
  List.nodup_append.mpr ⟨nodup_sortVars _, nodup_sortVars _,
    fun _ hx _ ha h => (mem_algebraic_ofExprs.mp ha).2 (h ▸ hx)⟩

theorem order_of_mem_functions (hv : v ∈ (ofExprs known es).functions) : v.order = 0 := by
  rcases List.mem_append.mp hv with hv | hv
  · obtain ⟨w, -, rfl⟩ := mem_states_ofExprs.mp hv
    rfl
  · obtain ⟨⟨e, -, hv⟩, -⟩ := mem_algebraic_ofExprs.mp hv
    exact (mem_unknownFunctions.mp hv).2.1

/-- The functions of the equations that are not known. -/
theorem mem_functions_ofExprs (hk : ∀ v ∈ known, v.order = 0) :
    v ∈ (ofExprs known es).functions ↔ v ∉ known ∧ ∃ e ∈ es, v ∈ e.functions := by
  rw [functions, List.mem_append]
  constructor
  · rintro (hv | hv)
    · obtain ⟨w, hw, rfl⟩ := mem_states_ofExprs.mp hv
      obtain ⟨e, he, hw⟩ := mem_derivatives_ofExprs.mp hw
      obtain ⟨hw, -, -, hn⟩ := mem_unknownDerivatives.mp hw
      exact ⟨hn, e, he, Expr.mem_functions.mpr ⟨w, hw, rfl⟩⟩
    · obtain ⟨⟨e, he, hv⟩, -⟩ := mem_algebraic_ofExprs.mp hv
      obtain ⟨hv, ho, hn⟩ := mem_unknownFunctions.mp hv
      exact ⟨hn, e, he, Expr.mem_functions.mpr ⟨v, hv, Var.base_of_order ho⟩⟩
  · rintro ⟨hn, e, he, hv⟩
    obtain ⟨w, hw, rfl⟩ := Expr.mem_functions.mp hv
    by_cases ho : w.order = 0
    · rw [Var.base_of_order ho] at hn ⊢
      by_cases hs : w ∈ (ofExprs known es).states
      · exact Or.inl hs
      · exact Or.inr (mem_algebraic_ofExprs.mpr
          ⟨⟨e, he, mem_unknownFunctions.mpr ⟨hw, ho, hn⟩⟩, hs⟩)
    · exact Or.inl (mem_states_ofExprs.mpr ⟨w, mem_derivatives_ofExprs.mpr
        ⟨e, he, mem_unknownDerivatives.mpr ⟨hw, ho, fun h => ho (hk w h), hn⟩⟩, rfl⟩)

/-- Of first-order equations each state has one derivative. -/
theorem length_derivatives (h : FirstOrder known es) :
    (ofExprs known es).derivatives.length = (ofExprs known es).states.length := by
  have hbases : ((ofExprs known es).derivatives.map Var.base).Nodup := by
    refine List.Nodup.map_on (fun v hv w hw hvw => ?_) (nodup_sortVars _)
    rw [eq_der_of_mem_derivatives h hv, eq_der_of_mem_derivatives h hw, hvw]
  have hperm : (ofExprs known es).states.Perm ((ofExprs known es).derivatives.map Var.base) :=
    (List.perm_ext_iff_of_nodup (ofFirstOrder_ofExprs h).nodup_states hbases).mpr fun v => by
      rw [mem_states_ofExprs, List.mem_map]
  rw [hperm.length_eq, List.length_map]

end Structure

end Flange

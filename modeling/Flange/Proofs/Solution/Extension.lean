import Flange.Proofs.Expr.Substitution
import Flange.Proofs.Reduction.Lowering

/-! # First-order form at every point

Values for all variables and derivatives are given, those of derivatives independently of the
others. When each new variable, and its derivative, is given the value of the derivative that it
stands for, the lowered equations vanish just when the equations do. There is no other way to
satisfy the relations between the new variables.
-/

namespace Flange

namespace Lowered

variable {ρ : Valuation ℝ} {known : List Var} {taken : List String} {es : List Expr} {l : Lowered}
  {cs : List (Var × List Var)} {c c' : Var × List Var} {x y v w : Var} {vs : List Var} {j k : Nat}

/-! ### What stands for what -/

/-- The derivative that a new variable, or a derivative of it, stands for; others stand for
themselves. -/
def origin (l : Lowered) (v : Var) : Var :=
  match l.replaced.find? fun p => p.2 == v.base with
  | some p => p.1.der v.order
  | none => v

/-- New variables and their derivatives get the values of what they stand for. -/
def extend (l : Lowered) (ρ : Valuation ℝ) : Valuation ℝ :=
  { ρ with var := fun v => ρ.var (l.origin v) }

/-- Derivatives get the values of what stands for them. -/
def readBack (l : Lowered) (ρ : Valuation ℝ) : Valuation ℝ :=
  { ρ with var := fun v => ρ.var ((l.replaced.lookup v).getD v) }

theorem origin_der (l : Lowered) (v : Var) (k : Nat) : l.origin (v.der k) = (l.origin v).der k := by
  unfold origin
  rw [Var.base_der]
  split <;> simp

@[simp] theorem extend_var (l : Lowered) (ρ : Valuation ℝ) (v : Var) :
    (l.extend ρ).var v = ρ.var (l.origin v) := rfl

@[simp] theorem readBack_var (l : Lowered) (ρ : Valuation ℝ) (v : Var) :
    (l.readBack ρ).var v = ρ.var ((l.replaced.lookup v).getD v) := rfl

/-! ### Chains -/

theorem fst_chains : ∀ (orders : List (Var × Nat)) (taken : List String),
    (chains orders taken).map Prod.fst = orders.map Prod.fst
  | [], _ => rfl
  | (x, k) :: rest, taken => by rw [chains, List.map_cons, fst_chains rest, List.map_cons]

theorem getElem?_length_cons (x : Var) (vs : List Var) :
    (x :: vs)[vs.length]? = some (vs.getLast?.getD x) := by
  rw [← List.getLast?_cons, List.getLast?_eq_getElem?]
  simp

/-- Replacements of one chain: its variables, and the derivative of the last of them. -/
theorem mem_replacements_iff {p : Var × Var} : p ∈ replacements x vs ↔
    ∃ j, p.1 = x.der (j + 1) ∧ (vs[j]? = some p.2 ∨
      j = vs.length ∧ ∃ y, (x :: vs)[j]? = some y ∧ p.2 = y.der) := by
  simp only [replacements, List.mem_append, List.mem_map, List.mem_singleton]
  constructor
  · rintro (⟨⟨v, j⟩, hv, rfl⟩ | rfl)
    · exact ⟨j, rfl, Or.inl (List.mem_zipIdx_iff_getElem?.mp hv)⟩
    · exact ⟨vs.length, rfl, Or.inr ⟨rfl, _, getElem?_length_cons x vs, rfl⟩⟩
  · rintro ⟨j, hj, hv | ⟨rfl, y, hy, hpy⟩⟩
    · exact Or.inl ⟨(p.2, j), List.mem_zipIdx_iff_getElem?.mpr hv, Prod.ext hj.symm rfl⟩
    · rw [getElem?_length_cons, Option.some.injEq] at hy
      exact Or.inr (Prod.ext hj (by rw [hpy, hy]))

/-- What a lowered system replaces and adds, chain by chain. The functions that start a chain have
names that are taken, so no new variable is one of them. -/
structure Chained (known : List Var) (taken : List String) (cs : List (Var × List Var))
    (l : Lowered) : Prop where
  order : ∀ c ∈ cs, c.1.order = 0
  unknown : ∀ c ∈ cs, c.1 ∉ known
  started : ∀ c ∈ cs, c.1.name ∈ taken
  distinct : (cs.map Prod.fst).Nodup
  newVars : NewVars taken (cs.flatMap Prod.snd)
  replaced : l.replaced = cs.flatMap fun c => replacements c.1 c.2

theorem chained_lowerOrder (known : List Var) (htaken : ∀ e ∈ es, ∀ v ∈ e.vars, v.name ∈ taken) :
    Chained known taken (chains (highestOrders known es) taken) (lowerOrder known taken es) := by
  have hstart : ∀ c ∈ chains (highestOrders known es) taken,
      c.1.order = 0 ∧ c.1 ∉ known ∧ ∃ e ∈ es, c.1 ∈ e.functions := fun c hc => by
    obtain ⟨k, hk, -⟩ := exists_chain hc
    exact of_mem_highestOrders hk
  constructor
  case order => exact fun c hc => (hstart c hc).1
  case unknown => exact fun c hc => (hstart c hc).2.1
  case started =>
    intro c hc
    obtain ⟨-, -, e, he, hmem⟩ := hstart c hc
    obtain ⟨v, hv, hbase⟩ := Expr.mem_functions.mp hmem
    rw [← hbase]
    exact htaken e he v hv
  case distinct =>
    rw [fst_chains, highestOrders, List.map_map]
    exact (List.map_id _).symm ▸ nodup_sortVars _
  case newVars => exact newVars_chains _ _
  case replaced => rw [lowerOrder_eq]

namespace Chained

variable (h : Chained known taken cs l)

include h

/-- A new variable has one place in one chain. -/
theorem place_unique (hc : c ∈ cs) (hc' : c' ∈ cs) (hv : c.2[j]? = some v)
    (hv' : c'.2[k]? = some v) : c = c' ∧ j = k := by
  obtain ⟨hnodup, hdisjoint⟩ := List.nodup_flatMap.mp h.newVars.nodup
  obtain rfl : c = c' := by
    by_contra hne
    have : Std.Symm (Function.onFun List.Disjoint (Prod.snd (α := Var) (β := List Var))) :=
      ⟨fun _ _ h => h.symm⟩
    exact hdisjoint.forall hc hc' hne
      (List.mem_of_getElem? hv) (List.mem_of_getElem? hv')
  obtain ⟨hj, hjv⟩ := List.getElem?_eq_some_iff.mp hv
  obtain ⟨hk, hkv⟩ := List.getElem?_eq_some_iff.mp hv'
  exact ⟨rfl, (hnodup c hc).getElem_inj_iff.mp (hjv.trans hkv.symm)⟩

theorem order_newVar (hc : c ∈ cs) (hv : c.2[j]? = some v) : v.order = 0 :=
  h.newVars.order v (List.mem_flatMap.mpr ⟨c, hc, List.mem_of_getElem? hv⟩)

theorem mem_replaced_iff {p : Var × Var} : p ∈ l.replaced ↔
    ∃ c ∈ cs, ∃ j, p.1 = c.1.der (j + 1) ∧ (c.2[j]? = some p.2 ∨
      j = c.2.length ∧ ∃ y, (c.1 :: c.2)[j]? = some y ∧ p.2 = y.der) := by
  rw [h.replaced, List.mem_flatMap]
  exact exists_congr fun c => and_congr_right fun _ => mem_replacements_iff

theorem of_mem_replaced_newVar {p : Var × Var} (hp : p ∈ l.replaced) (ho : p.2.order = 0) :
    ∃ c ∈ cs, ∃ j, p.1 = c.1.der (j + 1) ∧ c.2[j]? = some p.2 := by
  obtain ⟨c, hc, j, hj, hv | ⟨-, y, -, hpy⟩⟩ := h.mem_replaced_iff.mp hp
  · exact ⟨c, hc, j, hj, hv⟩
  · simp [hpy] at ho

theorem mem_replaced (hc : c ∈ cs) (hv : c.2[j]? = some v) : (c.1.der (j + 1), v) ∈ l.replaced :=
  h.mem_replaced_iff.mpr ⟨c, hc, j, rfl, Or.inl hv⟩

theorem origin_newVar (hc : c ∈ cs) (hv : c.2[j]? = some v) : l.origin v = c.1.der (j + 1) := by
  have ho := h.order_newVar hc hv
  unfold origin
  rw [Var.base_of_order ho, ho]
  split
  · next p hp =>
    have hpv : p.2 = v := by simpa using List.find?_some hp
    obtain ⟨c', hc', k, hk, hvk⟩ := h.of_mem_replaced_newVar (List.mem_of_find?_eq_some hp)
      (hpv ▸ ho)
    obtain ⟨rfl, rfl⟩ := h.place_unique hc' hc hvk (hpv ▸ hv)
    rw [hk, Var.der_zero]
  · next hnone =>
    have := List.find?_eq_none.mp hnone _ (h.mem_replaced hc hv)
    simp at this

/-- A variable stands for itself unless it, or the function it is a derivative of, is new. -/
theorem origin_of_not_mem (hv : v.base ∉ cs.flatMap Prod.snd) : l.origin v = v := by
  unfold origin
  split
  · next p hp =>
    have hpv : p.2 = v.base := by simpa using List.find?_some hp
    obtain ⟨c, hc, j, -, hj⟩ := h.of_mem_replaced_newVar (List.mem_of_find?_eq_some hp)
      (hpv ▸ Var.order_base v)
    exact absurd (List.mem_flatMap.mpr ⟨c, hc, List.mem_of_getElem? (hpv ▸ hj)⟩) hv
  · rfl

theorem origin_of_taken (hv : v.name ∈ taken) : l.origin v = v :=
  h.origin_of_not_mem fun hmem => h.newVars.free _ hmem hv

/-- The entry at place `j` of a chain, its function included, stands for the derivative of
order `j`. -/
theorem origin_cons (hc : c ∈ cs) (hy : (c.1 :: c.2)[j]? = some y) : l.origin y = c.1.der j := by
  cases j with
  | zero =>
    obtain rfl : c.1 = y := by simpa using hy
    rw [h.origin_of_taken (h.started c hc), Var.der_zero]
  | succ j => exact h.origin_newVar hc (by simpa using hy)

end Chained

theorem fst_replacements (x : Var) (vs : List Var) : (replacements x vs).map Prod.fst =
    (List.range (vs.length + 1)).map fun j => x.der (j + 1) := by
  have hidx : vs.zipIdx.map (fun p => x.der (p.2 + 1)) =
      (List.range vs.length).map fun j => x.der (j + 1) := by
    rw [List.range_eq_range', ← List.zipIdx_map_snd 0 vs, List.map_map]
    rfl
  rw [replacements, List.map_append, List.map_map, List.range_succ, List.map_append, ← hidx]
  rfl

/-- The relations of a chain vanish just where each variable has the value of the derivative of the
one before it. -/
theorem relations_vanish_iff : ∀ {vs : List Var} {x : Var},
    (∀ e ∈ relations x vs, e.Denotes False ρ 0) ↔
      ∀ (j : Nat) (y v : Var), (x :: vs)[j]? = some y → vs[j]? = some v → ρ.var v = ρ.var y.der
  | [], _ => by simp [relations]
  | v :: vs, x => by
    have hhead : (Expr.var v - Expr.var x.der).Denotes False ρ 0 ↔ ρ.var v = ρ.var x.der := by
      have hsub : (Expr.var v - Expr.var x.der).Denotes False ρ (ρ.var v - ρ.var x.der) :=
        Expr.denotes_sub (Expr.denotes_var v) (Expr.denotes_var x.der)
      constructor
      · exact fun h => sub_eq_zero.mp (hsub.eval.symm.trans h.eval)
      · exact fun h => hsub.congr (sub_eq_zero.mpr h)
    rw [relations, List.forall_mem_cons, hhead, relations_vanish_iff]
    constructor
    · rintro ⟨hv, hvs⟩ j y w hy hw
      cases j with
      | zero =>
        obtain rfl : x = y := by simpa using hy
        obtain rfl : v = w := by simpa using hw
        exact hv
      | succ j => exact hvs j y w (by simpa using hy) (by simpa using hw)
    · intro h
      refine ⟨h 0 x v rfl rfl, fun j y w hy hw => h (j + 1) y w ?_ ?_⟩
      · simpa using hy
      · simpa using hw

namespace Chained

variable (h : Chained known taken cs l)

include h

theorem nodup_fst_replaced : (l.replaced.map Prod.fst).Nodup := by
  rw [h.replaced, List.map_flatMap]
  simp only [fst_replacements]
  refine List.nodup_flatMap.mpr ⟨fun c _ => ?_, ?_⟩
  · refine List.nodup_range.map fun i j hij => ?_
    have := congrArg Var.order hij
    simpa using this
  · refine (List.pairwise_map.mp h.distinct).imp_of_mem fun {c c'} hc hc' hne v hv hv' => hne ?_
    obtain ⟨i, -, rfl⟩ := List.mem_map.mp hv
    obtain ⟨j, -, hj⟩ := List.mem_map.mp hv'
    have hbase := congrArg Var.base hj
    rwa [Var.base_der, Var.base_der, Var.base_of_order (h.order c' hc'),
      Var.base_of_order (h.order c hc), eq_comm] at hbase

theorem lookup_newVar (hc : c ∈ cs) (hv : c.2[j]? = some v) :
    l.replaced.lookup (c.1.der (j + 1)) = some v :=
  lookup_of_mem h.nodup_fst_replaced (h.mem_replaced hc hv)

theorem lookup_last (hc : c ∈ cs) (hy : (c.1 :: c.2)[c.2.length]? = some y) :
    l.replaced.lookup (c.1.der (c.2.length + 1)) = some y.der := by
  refine lookup_of_mem h.nodup_fst_replaced (p := (c.1.der (c.2.length + 1), y.der)) ?_
  exact h.mem_replaced_iff.mpr ⟨c, hc, _, rfl, Or.inr ⟨rfl, y, hy, rfl⟩⟩

theorem der_of_lookup (hv : l.replaced.lookup v = some w) :
    ∃ c ∈ cs, ∃ j, v = c.1.der (j + 1) := by
  obtain ⟨c, hc, j, hj, -⟩ := h.mem_replaced_iff.mp (mem_of_lookup hv)
  exact ⟨c, hc, j, hj⟩

/-- What stands for something has its value in the extension. -/
theorem origin_of_mem_replaced {p : Var × Var} (hp : p ∈ l.replaced) : l.origin p.2 = p.1 := by
  obtain ⟨c, hc, j, hj, hv | ⟨rfl, y, hy, hpy⟩⟩ := h.mem_replaced_iff.mp hp
  · rw [hj, h.origin_newVar hc hv]
  · rw [hj, hpy, origin_der, h.origin_cons hc hy, Var.der_der]

/-- Lowering changes no value. -/
theorem denotes_substitute {e : Expr} (htaken : ∀ v ∈ e.vars, v.name ∈ taken)
    (he : e.Regular False ρ) :
    (e.substitute (replacement l.replaced)).Denotes False (l.extend ρ) (e.eval ρ) := by
  refine Expr.denotes_substitute he fun s hs => ?_
  rcases Expr.replaceSymbol_cases (replacement l.replaced) s with
    ⟨f, hf, heq⟩ | ⟨v, f, -, -, -, hf, -⟩ | ⟨-, -, heq⟩
  · obtain ⟨p, hp, rfl, rfl⟩ := lookup_replacement hf
    rw [heq]
    refine (Expr.denotes_var p.2).congr ?_
    rw [extend_var, h.origin_of_mem_replaced hp]
    rfl
  · -- no function is replaced, only derivatives
    obtain ⟨p, hp, hv, -⟩ := lookup_replacement hf
    obtain ⟨c, -, j, hj, -⟩ := h.mem_replaced_iff.mp hp
    have := congrArg Var.order ((Symbol.var.inj hv).trans hj)
    simp at this
  · rw [heq]
    refine (Expr.denotes_sym s).congr ?_
    cases s with
    | var v => exact congrArg ρ.var (h.origin_of_taken (htaken v (Expr.mem_vars.mpr hs)))
    | _ => rfl

/-- The relations hold at every extension. -/
theorem relations_extend (hc : c ∈ cs) : ∀ e ∈ relations c.1 c.2, e.Denotes False (l.extend ρ) 0 :=
  relations_vanish_iff.mpr fun j y v hy hv => by
    rw [extend_var, extend_var, origin_der, h.origin_newVar hc hv, h.origin_cons hc hy, Var.der_der]

/-- Where the relations hold, what stands for a derivative has the value of the derivative of what
comes before it. -/
theorem readBack_der (hrel : ∀ e ∈ relations c.1 c.2, e.Denotes False ρ 0) (hc : c ∈ cs)
    (hy : (c.1 :: c.2)[j]? = some y) : (l.readBack ρ).var (c.1.der (j + 1)) = ρ.var y.der := by
  have hj : j < c.2.length + 1 := (List.getElem?_eq_some_iff.mp hy).1
  rw [readBack_var]
  rcases Nat.lt_or_eq_of_le (Nat.le_of_lt_succ hj) with hj | rfl
  · have hv := List.getElem?_eq_getElem hj
    rw [h.lookup_newVar hc hv]
    exact relations_vanish_iff.mp hrel j y _ hy hv
  · rw [h.lookup_last hc hy]
    rfl

/-- Where the relations hold the values are those of an extension. -/
theorem extend_readBack (hrel : ∀ c ∈ cs, ∀ e ∈ relations c.1 c.2, e.Denotes False ρ 0)
    (hv : v.order ≤ 1) : (l.extend (l.readBack ρ)).var v = ρ.var v := by
  rw [extend_var]
  by_cases hnew : v.base ∈ cs.flatMap Prod.snd
  · obtain ⟨c, hc, hmem⟩ := List.mem_flatMap.mp hnew
    obtain ⟨j, hj⟩ := List.mem_iff_getElem?.mp hmem
    rcases Nat.le_one_iff_eq_zero_or_eq_one.mp hv with ho | ho
    · rw [Var.base_of_order ho] at hj
      rw [h.origin_newVar hc hj, readBack_var, h.lookup_newVar hc hj, Option.getD_some]
    · have hder : v.base.der = v := by simpa [ho] using Var.der_base v
      have hnext : (c.1 :: c.2)[j + 1]? = some v.base := by simpa using hj
      rw [← hder, origin_der, h.origin_newVar hc hj, Var.der_der,
        h.readBack_der (hrel c hc) hc hnext]
  · rw [h.origin_of_not_mem hnew]
    cases hlookup : l.replaced.lookup v with
    | none => rw [readBack_var, hlookup, Option.getD_none]
    | some w =>
      obtain ⟨c, hc, j, hj⟩ := h.der_of_lookup hlookup
      have horder := congrArg Var.order hj
      simp only [Var.order_der] at horder
      obtain rfl : j = 0 := by omega
      have := h.readBack_der (hrel c hc) hc (j := 0) rfl
      rwa [← hj] at this

/-- Nothing stands for a derivative of a known function. -/
theorem extend_readBack_known (hk : v.base ∈ known) (hnew : v.base ∉ cs.flatMap Prod.snd) :
    (l.extend (l.readBack ρ)).var v = ρ.var v := by
  rw [extend_var, h.origin_of_not_mem hnew, readBack_var]
  cases hlookup : l.replaced.lookup v with
  | none => rfl
  | some w =>
    obtain ⟨c, hc, j, rfl⟩ := h.der_of_lookup hlookup
    rw [Var.base_der, Var.base_of_order (h.order c hc)] at hk
    exact absurd hk (h.unknown c hc)

end Chained

/-! ### Exactness -/

/-- The lowered equations say what the equations say, at every assignment. The extension of an
assignment is described first: what each new variable stands for, with its derivatives. -/
structure Exact (known : List Var) (taken : List String) (es : List Expr) (l : Lowered) : Prop where
  /-- only known functions keep derivatives of higher order -/
  firstOrder : ∀ e ∈ l.exprs, ∀ v ∈ e.vars, v.base ∉ known → v.order ≤ 1
  newVars : NewVars taken l.newVars
  names : (l.newVars.map Var.name).Nodup
  /-- each new variable stands for a derivative below the order of one that occurs -/
  stands : ∀ v ∈ l.newVars, ∃ e ∈ es, ∃ d ∈ e.vars, d.base ∉ known ∧ ∃ j < d.order, 0 < j ∧
    l.origin v = d.base.der j ∧
      ∃ n, v.name = (d.base.der j).flatName ++ String.ofList (List.replicate n '_')
  /-- and each such derivative has a new variable -/
  stood : ∀ e ∈ es, ∀ d ∈ e.vars, d.base ∉ known → ∀ j < d.order, 0 < j →
    ∃ v ∈ l.newVars, l.origin v = d.base.der j
  derivative : ∀ (v : Var) (k : Nat), l.origin (v.der k) = (l.origin v).der k
  others : ∀ v : Var, v.base ∉ l.newVars → l.origin v = v
  /-- the relations are the last equations -/
  length : l.exprs.length = es.length + l.newVars.length
  /-- equations that are defined vanish just when the lowered ones do at the extension -/
  vanish : ∀ ρ : Valuation ℝ, (∀ e ∈ es, e.Denotes False ρ 0) ↔
    (∀ e ∈ es, e.Regular False ρ) ∧ ∀ e ∈ l.exprs, e.Denotes False (l.extend ρ) 0
  /-- an assignment at which the relations hold is an extension as far as functions, first
  derivatives and whatever occurs are concerned -/
  extension : ∀ ρ' : Valuation ℝ, (∀ e ∈ l.exprs.drop es.length, e.Denotes False ρ' 0) →
    ∃ ρ : Valuation ℝ, (∀ v : Var, v.order ≤ 1 → (l.extend ρ).var v = ρ'.var v) ∧
      ∀ e ∈ l.exprs, ∀ s ∈ e.symbolList, (l.extend ρ).symbol s = ρ'.symbol s

theorem newVars_eq (known : List Var) (taken : List String) (es : List Expr) :
    (lowerOrder known taken es).newVars =
      (chains (highestOrders known es) taken).flatMap Prod.snd := by
  rw [lowerOrder_eq]

theorem exprs_eq (known : List Var) (taken : List String) (es : List Expr) :
    (lowerOrder known taken es).exprs =
      es.map (Expr.substitute (replacement (lowerOrder known taken es).replaced)) ++
        (chains (highestOrders known es) taken).flatMap fun c => relations c.1 c.2 := by
  rw [lowerOrder_eq]

theorem nodup_names (hvs : NewVars taken vs) : (vs.map Var.name).Nodup := by
  refine hvs.nodup.map_on fun v hv w hw heq => ?_
  rw [← Var.base_of_order (hvs.order v hv), ← Var.base_of_order (hvs.order w hw)]
  exact congrArg (fun n => Var.mk n 0) heq

/-- A new variable occurs in the lowered equations with its first derivative at most. -/
theorem order_of_mem_vars (htaken : ∀ e ∈ es, ∀ v ∈ e.vars, v.name ∈ taken) {e : Expr}
    (he : e ∈ (lowerOrder known taken es).exprs) (hv : v ∈ e.vars) :
    v.order ≤ 1 ∨ v.base ∈ known ∧ v.base ∉ (lowerOrder known taken es).newVars := by
  rcases Expr.within_only.mp (order_lowerOrder e he) v hv with ho | ⟨hk, g, hg, hvg⟩
  · exact Or.inl ho
  · exact Or.inr ⟨hk, fun hnew => newVars_lowerOrder.free _ hnew (htaken g hg v hvg)⟩

/-- What comes after the equations in the lowered system is the relations of the chains. -/
theorem mem_drop_exprs {e : Expr} : e ∈ (lowerOrder known taken es).exprs.drop es.length ↔
    ∃ c ∈ chains (highestOrders known es) taken, e ∈ relations c.1 c.2 := by
  rw [exprs_eq, List.drop_left' (List.length_map _), List.mem_flatMap]

theorem vanish_iff (htaken : ∀ e ∈ es, ∀ v ∈ e.vars, v.name ∈ taken) (ρ : Valuation ℝ) :
    (∀ e ∈ es, e.Denotes False ρ 0) ↔ (∀ e ∈ es, e.Regular False ρ) ∧
      ∀ e ∈ (lowerOrder known taken es).exprs,
        e.Denotes False ((lowerOrder known taken es).extend ρ) 0 := by
  have h := chained_lowerOrder known htaken
  have hexprs := exprs_eq known taken es
  constructor
  · intro hes
    refine ⟨fun e he => (hes e he).regular, fun e he => ?_⟩
    rw [hexprs] at he
    rcases List.mem_append.mp he with he | he
    · obtain ⟨g, hg, rfl⟩ := List.mem_map.mp he
      exact (h.denotes_substitute (htaken g hg) (hes g hg).regular).congr (hes g hg).eval
    · obtain ⟨c, hc, he⟩ := List.mem_flatMap.mp he
      exact h.relations_extend hc e he
  · rintro ⟨hregular, hl⟩ e he
    have hlowered := h.denotes_substitute (htaken e he) (hregular e he)
    refine ⟨hregular e he, hlowered.eval.symm.trans (hl _ ?_).eval⟩
    rw [hexprs]
    exact List.mem_append_left _ (List.mem_map_of_mem he)

theorem exists_extension (htaken : ∀ e ∈ es, ∀ v ∈ e.vars, v.name ∈ taken) (ρ' : Valuation ℝ)
    (hrel : ∀ e ∈ (lowerOrder known taken es).exprs.drop es.length, e.Denotes False ρ' 0) :
    ∃ ρ : Valuation ℝ,
      (∀ v : Var, v.order ≤ 1 → ((lowerOrder known taken es).extend ρ).var v = ρ'.var v) ∧
      ∀ e ∈ (lowerOrder known taken es).exprs, ∀ s ∈ e.symbolList,
        ((lowerOrder known taken es).extend ρ).symbol s = ρ'.symbol s := by
  have h := chained_lowerOrder known htaken
  have hval : ∀ v : Var, v.order ≤ 1 → _ := fun v =>
    h.extend_readBack fun c hc e he => hrel e (mem_drop_exprs.mpr ⟨c, hc, he⟩)
  refine ⟨_, hval, fun e he s hs => ?_⟩
  cases s with
  | var v =>
    rcases order_of_mem_vars htaken he (Expr.mem_vars.mpr hs) with ho | ⟨hk, hold⟩
    · exact hval v ho
    · exact h.extend_readBack_known hk (newVars_eq known taken es ▸ hold)
  | _ => rfl

end Lowered

open Lowered

variable {known : List Var} {taken : List String} {es : List Expr}

/-- Lowering the order of derivatives is exact when the names in the equations are taken. -/
theorem lowerOrder_exact (known : List Var) (taken : List String) (es : List Expr)
    (htaken : ∀ e ∈ es, ∀ v ∈ e.vars, v.name ∈ taken) :
    Exact known taken es (lowerOrder known taken es) := by
  have h := chained_lowerOrder known htaken
  have hnew := newVars_eq known taken es
  constructor
  case firstOrder =>
    intro e he v hv hk
    exact (order_of_mem_vars htaken he hv).resolve_right fun hmem => hk hmem.1
  case newVars => exact newVars_lowerOrder
  case names => exact nodup_names newVars_lowerOrder
  case stands =>
    intro v hv
    rw [hnew] at hv
    obtain ⟨c, hc, hmem⟩ := List.mem_flatMap.mp hv
    obtain ⟨j, hj⟩ := List.mem_iff_getElem?.mp hmem
    obtain ⟨k, hk, hlen⟩ := exists_chain hc
    have hlt : j < c.2.length := (List.getElem?_eq_some_iff.mp hj).1
    obtain ⟨e, he, d, hd, hbase, ho⟩ := exists_of_highestOrder hk (by omega)
    refine ⟨e, he, d, hd, hbase ▸ h.unknown c hc, j + 1, by omega, by omega, ?_⟩
    rw [hbase]
    exact ⟨h.origin_newVar hc hj, name_of_chains hc hj⟩
  case stood =>
    intro e he d hd hk j hj hpos
    obtain ⟨k, hmem, hle⟩ := mem_highestOrders he hd (by omega) hk
    obtain ⟨vs, hc, hlen⟩ := chain_of_mem taken hmem
    have hj' : j - 1 < vs.length := by omega
    have hv := List.getElem?_eq_getElem hj'
    refine ⟨vs[j - 1], ?_, ?_⟩
    · rw [hnew]
      exact List.mem_flatMap.mpr ⟨_, hc, List.getElem_mem hj'⟩
    · rw [h.origin_newVar hc hv, Nat.sub_add_cancel hpos]
  case derivative => exact origin_der _
  case others =>
    intro v hv
    exact h.origin_of_not_mem (hnew ▸ hv)
  case length => exact length_lowerOrder
  case vanish => exact vanish_iff htaken
  case extension => exact exists_extension htaken

/-! ### A function whose name is that of a derivative -/

namespace Clash

/-- The third derivative of `x`, a function named as the first one, and a known function's second
derivative. -/
def equation : Expr := .sum (.var ⟨"x", 3⟩) (.prod (.var ⟨"x_t", 0⟩) (.var ⟨"u", 2⟩))

def names : List String := ["u", "x", "x_t"]

theorem lowerOrder_exact_clash : (∀ e ∈ [equation], ∀ v ∈ e.vars, v.name ∈ names) ∧
    (lowerOrder [⟨"u", 0⟩] names [equation]).newVars = [⟨"x_t_", 0⟩, ⟨"x_tt", 0⟩] ∧
    Exact [⟨"u", 0⟩] names [equation] (lowerOrder [⟨"u", 0⟩] names [equation]) := by
  have htaken : ∀ e ∈ [equation], ∀ v ∈ e.vars, v.name ∈ names := by decide
  exact ⟨htaken, by decide +kernel, lowerOrder_exact _ _ _ htaken⟩

end Clash

end Flange

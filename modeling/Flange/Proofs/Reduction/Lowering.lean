import Flange.Proofs.Reduction.Structure
import Flange.Reduction.Lowering

/-! # First-order form

The lowered equations are of first order, and each new variable comes with one equation. Names of
new variables are free.
-/

namespace Flange

namespace Lowered

variable {taken : List String} {x v : Var} {j k : Nat} {known : List Var} {es : List Expr}
  {c : Var × List Var}

/-! ### Names -/

/-- A name that is taken after all attempts has used up as many taken names. -/
theorem attempts_of_freshName_mem : ∀ {fuel : Nat} {name : String},
    freshName taken fuel name ∈ taken →
      ∃ ns : List String, ns.length = fuel + 1 ∧ ns.Nodup ∧ ns ⊆ taken ∧
        ∀ n ∈ ns, name.length ≤ n.length
  | 0, name, h => ⟨[name], rfl, by simp, by simpa [freshName] using h, by simp⟩
  | fuel + 1, name, h => by
    rw [freshName] at h
    split at h
    · next hname =>
      obtain ⟨ns, hlen, hnodup, hsub, hle⟩ := attempts_of_freshName_mem h
      have hlong : ∀ n ∈ ns, name.length + 1 ≤ n.length := fun n hn => by
        have hone : "_".length = 1 := by decide
        simpa [hone] using hle n hn
      refine ⟨name :: ns, by simp [hlen], List.nodup_cons.mpr ⟨fun hn => ?_, hnodup⟩,
        List.cons_subset.mpr ⟨by simpa using hname, hsub⟩, ?_⟩
      · have := hlong name hn
        omega
      · rintro n (_ | ⟨_, hn⟩)
        · exact Nat.le_refl _
        · have := hlong n hn
          omega
    · next hname => exact absurd h (by simpa using hname)

theorem fresh_not_mem (taken : List String) (name : String) : fresh taken name ∉ taken := by
  intro h
  obtain ⟨ns, hlen, hnodup, hsub, -⟩ := attempts_of_freshName_mem h
  have := (hnodup.subperm hsub).length_le
  omega

/-! ### New variables -/

/-- New variables for one function, taken names left out. -/
structure NewVars (taken : List String) (vs : List Var) : Prop where
  order : ∀ v ∈ vs, v.order = 0
  free : ∀ v ∈ vs, v.name ∉ taken
  nodup : vs.Nodup

theorem NewVars.append {vs ws : List Var} (hv : NewVars taken vs)
    (hw : NewVars (taken ++ vs.map Var.name) ws) : NewVars taken (vs ++ ws) where
  order := fun v h => (List.mem_append.mp h).elim (hv.order v) (hw.order v)
  free := fun v h => (List.mem_append.mp h).elim (hv.free v)
    fun h ht => hw.free v h (List.mem_append_left _ ht)
  nodup := List.nodup_append.mpr ⟨hv.nodup, hw.nodup, fun _ h _ h' heq =>
    hw.free _ h' (List.mem_append_right _ (heq ▸ List.mem_map_of_mem h))⟩

theorem newVars_chain (x : Var) : ∀ (k : Nat) (taken : List String),
    NewVars taken (chain x k taken).1 ∧ (chain x k taken).1.length = k ∧
      (chain x k taken).2 = taken ++ (chain x k taken).1.map Var.name
  | 0, taken => ⟨⟨by simp [chain], by simp [chain], by simp [chain]⟩, rfl, by simp [chain]⟩
  | k + 1, taken => by
    obtain ⟨hnew, hlen, htaken⟩ := newVars_chain x k taken
    have hfree := fresh_not_mem (chain x k taken).2 (x.der (k + 1)).flatName
    rw [chain]
    refine ⟨hnew.append ⟨by simp, ?_, by simp⟩, by simp [hlen], ?_⟩
    · rw [htaken] at hfree
      simpa [htaken] using hfree
    · dsimp only
      rw [List.map_append, ← List.append_assoc, ← htaken]
      rfl

theorem newVars_chains : ∀ (orders : List (Var × Nat)) (taken : List String),
    NewVars taken ((chains orders taken).flatMap Prod.snd)
  | [], taken => ⟨by simp [chains], by simp [chains], by simp [chains]⟩
  | (x, k) :: rest, taken => by
    obtain ⟨hnew, -, htaken⟩ := newVars_chain x (k - 1) taken
    have hrest := newVars_chains rest (chain x (k - 1) taken).2
    rw [chains, List.flatMap_cons]
    exact hnew.append (htaken ▸ hrest)

theorem exists_chain {p : Var × List Var} : ∀ {orders : List (Var × Nat)} {taken : List String},
    p ∈ chains orders taken → ∃ k, (p.1, k) ∈ orders ∧ p.2.length = k - 1
  | (x, k) :: rest, taken, hp => by
    rw [chains] at hp
    rcases List.mem_cons.mp hp with rfl | hp
    · exact ⟨k, by simp, (newVars_chain x (k - 1) taken).2.1⟩
    · obtain ⟨l, hl, hlen⟩ := exists_chain hp
      exact ⟨l, List.mem_cons_of_mem _ hl, hlen⟩

theorem chain_of_mem : ∀ {orders : List (Var × Nat)} (taken : List String),
    (x, k) ∈ orders → ∃ vs, (x, vs) ∈ chains orders taken ∧ vs.length = k - 1
  | (y, l) :: rest, taken, h => by
    rw [chains]
    rcases List.mem_cons.mp h with heq | h
    · obtain ⟨rfl, rfl⟩ := Prod.mk.inj heq
      exact ⟨_, List.mem_cons_self, (newVars_chain x (k - 1) taken).2.1⟩
    · obtain ⟨vs, hvs, hlen⟩ := chain_of_mem _ h
      exact ⟨vs, List.mem_cons_of_mem _ hvs, hlen⟩

theorem exists_freshName (taken : List String) : ∀ (fuel : Nat) (name : String),
    ∃ n, freshName taken fuel name = name ++ String.ofList (List.replicate n '_')
  | 0, name => ⟨0, by simp [freshName]⟩
  | fuel + 1, name => by
    rw [freshName]
    split
    · obtain ⟨n, hn⟩ := exists_freshName taken fuel (name ++ "_")
      have hone : "_" = String.ofList ['_'] := rfl
      refine ⟨n + 1, ?_⟩
      rw [hn, String.append_assoc, hone, ← String.ofList_append, List.replicate_succ]
      rfl
    · exact ⟨0, by simp⟩

/-- Underscores, if any, are all that a new name adds to the derivative's. -/
theorem name_of_chain : ∀ {k : Nat} {taken : List String}, (chain x k taken).1[j]? = some v →
    ∃ n, v.name = (x.der (j + 1)).flatName ++ String.ofList (List.replicate n '_')
  | 0, taken, hv => by simp [chain] at hv
  | k + 1, taken, hv => by
    have hlen := (newVars_chain x k taken).2.1
    rw [chain] at hv
    rcases lt_trichotomy j k with hj | rfl | hj
    · rw [List.getElem?_append_left (hlen.symm ▸ hj)] at hv
      exact name_of_chain hv
    · rw [List.getElem?_append_right hlen.le, hlen, Nat.sub_self] at hv
      obtain rfl := Option.some.inj hv
      exact exists_freshName _ _ _
    · rw [List.getElem?_append_right (hlen.le.trans hj.le), hlen] at hv
      have hbound := (List.getElem?_eq_some_iff.mp hv).1
      simp at hbound
      omega

theorem name_of_chains : ∀ {orders : List (Var × Nat)} {taken : List String},
    c ∈ chains orders taken → c.2[j]? = some v →
      ∃ n, v.name = (c.1.der (j + 1)).flatName ++ String.ofList (List.replicate n '_')
  | (x, k) :: rest, taken, hc, hv => by
    rw [chains] at hc
    rcases List.mem_cons.mp hc with rfl | hc
    · exact name_of_chain hv
    · exact name_of_chains hc hv

/-! ### Orders -/

theorem le_foldl_max {n : Nat} : ∀ {ns : List Nat} {m : Nat}, n ≤ m ∨ n ∈ ns → n ≤ ns.foldl max m
  | [], m, h => by simpa using h
  | a :: ns, m, h => by
    refine le_foldl_max (m := max m a) ?_
    rcases h with h | h
    · exact Or.inl (le_max_of_le_left h)
    · rcases List.mem_cons.mp h with rfl | h
      · exact Or.inl (le_max_right m _)
      · exact Or.inr h

theorem of_mem_highestOrders (h : (x, k) ∈ highestOrders known es) :
    x.order = 0 ∧ x ∉ known ∧ ∃ e ∈ es, x ∈ e.functions := by
  simp only [highestOrders, List.mem_map, mem_sortVars, List.mem_filter, List.mem_flatMap,
    Prod.mk.injEq] at h
  obtain ⟨_, ⟨d, ⟨⟨e, he, hd⟩, hd'⟩, rfl⟩, rfl, -⟩ := h
  simp only [Bool.and_eq_true, Bool.not_eq_true', List.contains_eq_mem, decide_eq_false_iff_not]
    at hd'
  exact ⟨rfl, hd'.2, e, he, Expr.mem_functions.mpr ⟨d, (List.mem_filter.mp hd).1, rfl⟩⟩

theorem mem_highestOrders {e : Expr} {d : Var} (he : e ∈ es) (hd : d ∈ e.vars)
    (ho : 1 < d.order) (hk : d.base ∉ known) :
    ∃ k, (d.base, k) ∈ highestOrders known es ∧ d.order ≤ k := by
  have hmem : d ∈ (es.flatMap Expr.derivatives).filter fun d =>
      1 < d.order && !known.contains d.base := by
    refine List.mem_filter.mpr ⟨List.mem_flatMap.mpr ⟨e, he, List.mem_filter.mpr ⟨hd, ?_⟩⟩, ?_⟩
    · simp [Var.isDerivative]
      omega
    · simpa using ⟨ho, hk⟩
  refine ⟨_, List.mem_map.mpr ⟨d.base, mem_sortVars.mpr (List.mem_map_of_mem hmem), rfl⟩,
    le_foldl_max (Or.inr (List.mem_map_of_mem (List.mem_filter.mpr ⟨hmem, by simp⟩)))⟩

theorem foldl_max_mem : ∀ (ns : List Nat) (m : Nat), ns.foldl max m = m ∨ ns.foldl max m ∈ ns
  | [], m => Or.inl rfl
  | n :: ns, m => by
    rw [List.foldl_cons]
    rcases foldl_max_mem ns (max m n) with h | h
    · rcases max_choice m n with hm | hm
      · exact Or.inl (h.trans hm)
      · exact Or.inr (by rw [h, hm]; exact List.mem_cons_self)
    · exact Or.inr (List.mem_cons_of_mem n h)

/-- A highest order above one is the order of a derivative that occurs. -/
theorem exists_of_highestOrder (h : (x, k) ∈ highestOrders known es) (hk : 1 < k) :
    ∃ e ∈ es, ∃ d ∈ e.vars, d.base = x ∧ d.order = k := by
  obtain ⟨y, -, heq⟩ := List.mem_map.mp h
  obtain ⟨rfl, rfl⟩ := Prod.mk.inj heq
  rcases foldl_max_mem _ 1 with hone | hmem
  · exact absurd (hone ▸ hk) (lt_irrefl 1)
  · obtain ⟨d, hd, ho⟩ := List.mem_map.mp hmem
    obtain ⟨hd, hbase⟩ := List.mem_filter.mp hd
    obtain ⟨e, he, hd⟩ := List.mem_flatMap.mp (List.mem_filter.mp hd).1
    exact ⟨e, he, d, (List.mem_filter.mp hd).1, by simpa using hbase, ho⟩

/-- A new variable or its derivative stands for a derivative of `x`. -/
theorem of_mem_replacements {vs : List Var} {p : Var × Var} (h : p ∈ replacements x vs) :
    (∃ j, p.1 = x.der (j + 1)) ∧ (p.2 ∈ vs ∨ p.2 = (vs.getLast?.getD x).der) := by
  simp only [replacements, List.mem_append, List.mem_map, List.mem_singleton] at h
  rcases h with ⟨⟨v, j⟩, hv, rfl⟩ | rfl
  · exact ⟨⟨j, rfl⟩, Or.inl (List.mem_of_getElem? (List.mem_zipIdx_iff_getElem?.mp hv))⟩
  · exact ⟨⟨_, rfl⟩, Or.inr rfl⟩

theorem mem_replacements (x : Var) (vs : List Var) (j : Nat) (hj : j ≤ vs.length) :
    ∃ w, (x.der (j + 1), w) ∈ replacements x vs := by
  rcases Nat.lt_or_eq_of_le hj with hj | rfl
  · refine ⟨vs[j], List.mem_append_left _ (List.mem_map.mpr ⟨(vs[j], j), ?_, rfl⟩)⟩
    simp [List.mem_zipIdx_iff_getElem?, List.getElem?_eq_getElem hj]
  · exact ⟨_, List.mem_append_right _ (List.mem_singleton.mpr rfl)⟩

theorem length_relations (x : Var) : ∀ vs : List Var, (relations x vs).length = vs.length
  | [] => rfl
  | v :: vs => by rw [relations, List.length_cons, length_relations, List.length_cons]

theorem over_relations {R : Var → Prop} : ∀ {x : Var} {vs : List Var}, R x.base →
    (∀ v ∈ vs, R v.base) → ∀ e ∈ relations x vs, e.Over R
  | x, v :: vs, hx, hvs, e, he => by
    rw [relations] at he
    rcases List.mem_cons.mp he with rfl | he
    · exact Expr.within_sub (Expr.within_var.mpr (hvs v (by simp))) (Expr.within_var.mpr hx)
    · exact over_relations (hvs v (by simp)) (fun w hw => hvs w (List.mem_cons_of_mem _ hw)) e he

theorem lookup_replacement {ps : List (Var × Var)} {s : Symbol} {e : Expr}
    (h : (replacement ps).lookup s = some e) : ∃ p ∈ ps, s = .var p.1 ∧ e = .var p.2 := by
  obtain ⟨p, hp, heq⟩ := List.mem_map.mp (mem_of_lookup h)
  obtain ⟨rfl, rfl⟩ := Prod.mk.inj heq
  exact ⟨p, hp, rfl, rfl⟩

theorem exists_lookup_replacement {ps : List (Var × Var)} {p : Var × Var} (hp : p ∈ ps) :
    ∃ e, (replacement ps).lookup (.var p.1) = some e :=
  exists_lookup (List.mem_map_of_mem (f := fun p => (Symbol.var p.1, Expr.var p.2)) hp)

end Lowered

open Lowered

variable {known : List Var} {taken : List String} {es : List Expr}

/-- Without derivatives of higher order the lowered equations are the equations. -/
theorem lowerOrder_eq (known : List Var) (taken : List String) (es : List Expr) :
    lowerOrder known taken es =
      let cs := chains (highestOrders known es) taken
      let ps := cs.flatMap fun c => replacements c.1 c.2
      { exprs := es.map (Expr.substitute (replacement ps)) ++
          cs.flatMap fun c => relations c.1 c.2
        newVars := cs.flatMap Prod.snd
        replaced := ps } := by
  unfold lowerOrder
  split
  · next h =>
    have hid : Expr.substitute [] = id := rfl
    rw [h]
    simp [chains, replacement, hid]
  · rfl

theorem newVars_lowerOrder : NewVars taken (lowerOrder known taken es).newVars := by
  rw [lowerOrder_eq]
  exact newVars_chains _ _

/-- The name of a new variable is made from that of a derivative whose order is below one that
occurs. -/
theorem name_of_mem_newVars {v : Var} (hv : v ∈ (lowerOrder known taken es).newVars) :
    ∃ e ∈ es, ∃ d ∈ e.vars, ∃ j n,
      v.name = (d.base.der (j + 1)).flatName ++ String.ofList (List.replicate n '_') := by
  rw [lowerOrder_eq] at hv
  obtain ⟨c, hc, hmem⟩ := List.mem_flatMap.mp hv
  obtain ⟨j, hj⟩ := List.mem_iff_getElem?.mp hmem
  obtain ⟨k, hk, hlen⟩ := exists_chain hc
  have hlt : j < c.2.length := (List.getElem?_eq_some_iff.mp hj).1
  obtain ⟨e, he, d, hd, hbase, -⟩ := exists_of_highestOrder hk (by omega)
  exact ⟨e, he, d, hd, j, hbase ▸ name_of_chains hc hj⟩

/-- Each new variable comes with an equation. -/
theorem length_lowerOrder : (lowerOrder known taken es).exprs.length =
    es.length + (lowerOrder known taken es).newVars.length := by
  rw [lowerOrder_eq]
  simp only [List.length_append, List.length_map, List.length_flatMap, length_relations]

/-- What a derivative is replaced by is a new variable, or a derivative of one or of a function
of the equations. -/
theorem of_mem_replaced {p : Var × Var} (h : p ∈ (lowerOrder known taken es).replaced) :
    (∃ (x : Var) (j : Nat), p.1 = x.der (j + 1)) ∧ (p.2 ∈ (lowerOrder known taken es).newVars ∨
      ∃ w : Var, p.2 = w.der ∧ w.order = 0 ∧
        (w ∈ (lowerOrder known taken es).newVars ∨ ∃ e ∈ es, w ∈ e.functions)) := by
  rw [lowerOrder_eq] at h ⊢
  obtain ⟨⟨x, vs⟩, hc, hp⟩ := List.mem_flatMap.mp h
  obtain ⟨⟨j, hj⟩, hv⟩ := of_mem_replacements hp
  obtain ⟨k, hk, -⟩ := exists_chain hc
  obtain ⟨hx, -, hmem⟩ := of_mem_highestOrders hk
  have hnew : ∀ v ∈ vs, v ∈ (chains (highestOrders known es) taken).flatMap Prod.snd :=
    fun v hv => List.mem_flatMap.mpr ⟨_, hc, hv⟩
  refine ⟨⟨x, j, hj⟩, hv.imp (hnew _) fun hv => ⟨_, hv, ?_⟩⟩
  cases hlast : vs.getLast? with
  | none => exact ⟨hx, Or.inr hmem⟩
  | some w =>
    have hw := hnew w (List.mem_of_getLast? hlast)
    exact ⟨(newVars_chains _ _).order w hw, Or.inl hw⟩

/-- Functions of the lowered equations were there before or are new. -/
theorem over_lowerOrder {R : Var → Prop} (hes : ∀ e ∈ es, e.Over R)
    (hnew : ∀ v ∈ (lowerOrder known taken es).newVars, R v) :
    ∀ e ∈ (lowerOrder known taken es).exprs, e.Over R := by
  have hbase : ∀ v ∈ (lowerOrder known taken es).newVars, R v.base := fun v hv => by
    rw [Var.base_of_order (newVars_lowerOrder.order v hv)]
    exact hnew v hv
  have hvalue : ∀ p ∈ (lowerOrder known taken es).replaced, R p.2.base := by
    intro p hp
    rcases (of_mem_replaced hp).2 with hv | ⟨w, hw, ho, hmem⟩
    · exact hbase _ hv
    · rw [hw, Var.base_der, Var.base_of_order ho]
      rcases hmem with hmem | ⟨e, he, hmem⟩
      · exact hnew w hmem
      · exact Expr.over_iff.mp (hes e he) w hmem
  intro e he
  rw [lowerOrder_eq] at he hvalue hbase
  rcases List.mem_append.mp he with he | he
  · obtain ⟨g, hg, rfl⟩ := List.mem_map.mp he
    refine Expr.Over.substitute (fun s f hs => ?_) ((hes g hg).imp fun v hv _ => hv)
    obtain ⟨p, hp, -, rfl⟩ := lookup_replacement hs
    exact Expr.within_var.mpr (hvalue p hp)
  · obtain ⟨⟨x, vs⟩, hc, he⟩ := List.mem_flatMap.mp he
    obtain ⟨k, hk, -⟩ := exists_chain hc
    obtain ⟨hx, -, f, hf, hmem⟩ := of_mem_highestOrders hk
    refine over_relations ?_ (fun v hv => hbase v (List.mem_flatMap.mpr ⟨_, hc, hv⟩)) e he
    rw [Var.base_of_order hx]
    exact Expr.over_iff.mp (hes f hf) x hmem

theorem order_relations : ∀ {x : Var} {vs : List Var}, x.order = 0 → (∀ v ∈ vs, v.order = 0) →
    ∀ e ∈ relations x vs, e.Within (Symbol.Only fun v => v.order ≤ 1)
  | x, v :: vs, hx, hvs, e, he => by
    rw [relations] at he
    rcases List.mem_cons.mp he with rfl | he
    · have hv := hvs v (by simp)
      refine Expr.within_sub (Expr.within_var.mpr ?_) (Expr.within_var.mpr ?_)
      · exact hv.le.trans (Nat.zero_le 1)
      · exact (Var.order_der x 1).le.trans (by omega)
    · exact order_relations (hvs v (by simp)) (fun w hw => hvs w (List.mem_cons_of_mem _ hw)) e he

theorem order_of_mem_replaced {p : Var × Var} (h : p ∈ (lowerOrder known taken es).replaced) :
    p.2.order ≤ 1 := by
  rcases (of_mem_replaced h).2 with hv | ⟨w, hw, ho, -⟩
  · exact (newVars_lowerOrder.order _ hv).le.trans (Nat.zero_le 1)
  · rw [hw, Var.order_der, ho]

/-- Derivatives of higher order are replaced. -/
theorem exists_replaced (taken : List String) {e : Expr} {d : Var} (he : e ∈ es)
    (hd : d ∈ e.vars) (ho : 1 < d.order) (hk : d.base ∉ known) :
    ∃ w, (d, w) ∈ (lowerOrder known taken es).replaced := by
  obtain ⟨k, hk, hle⟩ := mem_highestOrders he hd ho hk
  obtain ⟨vs, hvs, hlen⟩ := chain_of_mem taken hk
  obtain ⟨w, hw⟩ := mem_replacements d.base vs (d.order - 1) (by omega)
  have hd : d.base.der (d.order - 1 + 1) = d := by
    rw [Nat.sub_add_cancel (by omega), Var.der_base]
  rw [lowerOrder_eq]
  exact ⟨w, List.mem_flatMap.mpr ⟨(d.base, vs), hvs, hd ▸ hw⟩⟩

/-- Only derivatives of known functions keep an order above one, and these were there before. -/
theorem order_lowerOrder : ∀ e ∈ (lowerOrder known taken es).exprs, e.Within (Symbol.Only fun v =>
    v.order ≤ 1 ∨ v.base ∈ known ∧ ∃ e ∈ es, v ∈ e.vars) := by
  intro e he
  have hreplaced : ∀ p ∈ (lowerOrder known taken es).replaced, _ :=
    fun p hp => order_of_mem_replaced hp
  have hkey : ∀ p ∈ (lowerOrder known taken es).replaced, _ :=
    fun p hp => (of_mem_replaced hp).1
  rw [lowerOrder_eq] at he hreplaced hkey
  rcases List.mem_append.mp he with he | he
  · obtain ⟨g, hg, rfl⟩ := List.mem_map.mp he
    refine Expr.within_substitute fun s hs => ?_
    change (Expr.replaceSymbol _ s).Within _
    rcases Expr.replaceSymbol_cases (replacement ((chains (highestOrders known es) taken).flatMap
      fun c => replacements c.1 c.2)) s with
      ⟨f, hf, heq⟩ | ⟨v, f, -, -, -, hf, -⟩ | ⟨hnone, -, heq⟩
    · obtain ⟨p, hp, -, rfl⟩ := lookup_replacement hf
      exact heq ▸ Expr.within_var.mpr (Or.inl (hreplaced p hp))
    · obtain ⟨p, hp, hv, -⟩ := lookup_replacement hf
      obtain ⟨x, j, hx⟩ := hkey p hp
      have := congrArg Var.order ((Symbol.var.inj hv).trans hx)
      simp at this
    · rw [heq]
      refine Expr.within_sym.mpr ?_
      cases s with
      | var v =>
        have hv := Expr.mem_vars.mpr hs
        refine or_iff_not_imp_left.mpr fun ho => ⟨by_contra fun hk => ?_, g, hg, hv⟩
        obtain ⟨w, hw⟩ := exists_replaced taken hg hv (by omega) hk
        rw [lowerOrder_eq] at hw
        obtain ⟨f, hf⟩ := exists_lookup_replacement hw
        rw [hnone] at hf
        simp at hf
      | _ => trivial
  · obtain ⟨⟨x, vs⟩, hc, he⟩ := List.mem_flatMap.mp he
    obtain ⟨k, hk, -⟩ := exists_chain hc
    refine (order_relations (of_mem_highestOrders hk).1 (fun v hv => ?_) e he).mono
      fun _ hs => hs.imp fun _ => Or.inl
    exact (newVars_chains _ taken).order v (List.mem_flatMap.mpr ⟨_, hc, hv⟩)

theorem firstOrder_lowerOrder : FirstOrder known (lowerOrder known taken es).exprs := by
  intro e he v hv
  obtain ⟨hv, ho, -, hk⟩ := Structure.mem_unknownDerivatives.mp hv
  have := (Expr.within_only.mp (order_lowerOrder e he) v hv).resolve_right fun h => hk h.1
  omega

end Flange

import Flange.Assembly
import Flange.Proofs.Component.Declare
import Flange.Proofs.Lists
import Flange.Proofs.Run

/-! # What an assembly has checked

The components of an assembled diagram have different names and valid parameters. The values of
their parameters are known, because no two quantities share a symbol.
-/

namespace Flange

/-- The parameters of a valid component meet their requirements. -/
theorem Component.isValid_of_validate {c : Component} (h : c.validate = .ok ()) :
    ∀ q ∈ c.ofKind .param, q.IsValid := by
  have hfault : c.fault? = none := by
    rw [validate] at h
    split at h
    · exact absurd h (by simp)
    · assumption
  rw [fault?] at hfault
  split at hfault
  · exact absurd hfault (by simp)
  · split at hfault
    · exact absurd hfault (by simp)
    · next hfind => simpa using List.find?_eq_none.mp hfind

namespace Assembly

variable {l : Library} {k k' : Checked} {c : Component} {q : Quantity} {cs : List Component}
  {qs : List Quantity} {α β : Type}

section SetKey

variable [BEq α] [LawfulBEq α] {x : α} {v : β}

theorem setKey_of_new : ∀ {ps : List (α × β)}, (∀ p ∈ ps, p.1 ≠ x) →
    setKey x v ps = ps ++ [(x, v)]
  | [], _ => rfl
  | (y, w) :: ps, h => by
    obtain ⟨hy, hps⟩ := List.forall_mem_cons.mp h
    rw [setKey, if_neg (by simpa using hy), setKey_of_new hps, List.cons_append]

end SetKey

/-- What is known is known once, of the parameters among the quantities. -/
structure Keyed (k : Checked) : Prop where
  nodup : (k.knowns.map Prod.fst).Nodup
  declared : ∀ p ∈ k.knowns, ∃ q, (Symbol.par p.1, q) ∈ k.quantities ∧ q.kind = .param

/-- The values of the listed parameters are known. -/
def Knows (k : Checked) (qs : List Quantity) : Prop :=
  ∀ q ∈ qs, q.kind = .param → ∀ n, q.symbol = .par n → ∀ v ∈ q.value, (n, v) ∈ k.knowns

/-- `k'` is `k` after the listed quantities. -/
structure Adds (qs : List Quantity) (k k' : Checked) : Prop where
  keyed : Keyed k'
  components : k'.components = k.components
  knowns : k.knowns ⊆ k'.knowns
  knows : Knows k' qs

theorem adds_checkQuantity (hk : Keyed k)
    (hrun : checkQuantity c k q = .ok k') : Adds [q] k k' := by
  rw [checkQuantity] at hrun
  split at hrun
  · exact absurd hrun (by simp [refuse])
  · next hnew =>
    have hold : ∀ p ∈ k.knowns, ∃ r, (Symbol.par p.1, r) ∈ k.quantities ++ [(q.symbol, q)] ∧
        r.kind = .param := by
      intro p hp
      obtain ⟨r, hr, hkind⟩ := hk.declared p hp
      exact ⟨r, List.mem_append_left _ hr, hkind⟩
    obtain rfl := Except.ok.inj hrun
    split
    · next v n hkind hv hsymbol =>
      -- a known value under this name would belong to a quantity with this symbol
      have hname : ∀ p ∈ k.knowns, p.1 ≠ n := by
        intro p hp heq
        obtain ⟨r, hr, -⟩ := hk.declared p hp
        refine hnew (List.lookup_isSome_iff.mpr ⟨_, hr, ?_⟩)
        rw [hsymbol, heq]
        exact beq_self_eq_true _
      rw [setKey_of_new hname]
      refine ⟨⟨?_, ?_⟩, rfl, List.subset_append_left _ _, ?_⟩
      · rw [List.map_append, List.map_singleton]
        exact hk.nodup.append (List.nodup_singleton _) (by simpa using fun v hv => hname _ hv rfl)
      · intro p hp
        rcases List.mem_append.mp hp with hp | hp
        · exact hold p hp
        · obtain rfl := List.mem_singleton.mp hp
          exact ⟨q, List.mem_append_right _ (by simp [hsymbol]), hkind⟩
      · simp [Knows, hkind, hv, hsymbol]
    · next hnone =>
      refine ⟨⟨hk.nodup, hold⟩, rfl, List.Subset.refl _, ?_⟩
      intro r hr hkind n hsymbol v hv
      obtain rfl := List.mem_singleton.mp hr
      exact (hnone v n hkind hv hsymbol).elim

theorem Knows.mono (h : Knows k qs) (hsub : k.knowns ⊆ k'.knowns) : Knows k' qs :=
  fun q hq hkind n hsymbol v hv => hsub (h q hq hkind n hsymbol v hv)

theorem adds_checkQuantities (hk : Keyed k)
    (hrun : qs.foldlM (checkQuantity c) k = .ok k') : Adds qs k k' := by
  induction qs generalizing k with
  | nil =>
    obtain rfl : k = k' := Except.ok.inj hrun
    exact ⟨hk, rfl, List.Subset.refl _, by simp [Knows]⟩
  | cons q qs ih =>
    rw [List.foldlM_cons] at hrun
    rcases hfirst : checkQuantity c k q with e | k₁ <;> rw [hfirst] at hrun
    · exact absurd hrun (by simp [bind, Except.bind])
    · have x := adds_checkQuantity hk hfirst
      have y := ih x.keyed hrun
      refine ⟨y.keyed, y.components.trans x.components, List.Subset.trans x.knowns y.knowns, ?_⟩
      exact List.forall_mem_cons.mpr
        ⟨(x.knows.mono y.knowns) q List.mem_cons_self, y.knows⟩

/-- What has been checked of the components `cs`. -/
structure Passed (cs : List Component) (k : Checked) : Prop where
  keyed : Keyed k
  components : k.components = cs
  names : (cs.map Component.name).Nodup
  valid : ∀ c ∈ cs, c.validate = .ok ()
  knows : ∀ c ∈ cs, Knows k c.quantities

theorem Passed.checkComponent (h : Passed cs k)
    (hrun : checkComponent l k c = .ok k') : Passed (cs ++ [c]) k' := by
  rw [Assembly.checkComponent] at hrun
  split at hrun
  · exact absurd hrun (by simp [refuse, bind, Except.bind])
  · rcases hfind : k.components.find? (fun b => b.name == c.name) with _ | b
    · simp only [hfind] at hrun
      rcases hvalid : c.validate with e | ⟨⟨⟩⟩ <;> rw [hvalid] at hrun
      · exact absurd hrun (by simp [bind, Except.bind])
      · have x := adds_checkQuantities (k := { k with components := k.components ++ [c] })
          ⟨h.keyed.nodup, h.keyed.declared⟩ hrun
        have hnew : c.name ∉ cs.map Component.name := by
          intro hmem
          obtain ⟨b, hb, hname⟩ := List.mem_map.mp hmem
          exact List.find?_eq_none.mp hfind b (h.components ▸ hb) (beq_iff_eq.mpr hname)
        refine ⟨x.keyed, ?_, ?_, ?_, ?_⟩
        · rw [x.components, h.components]
        · rw [List.map_append, List.map_singleton]
          exact h.names.append (List.nodup_singleton _) (by simpa using hnew)
        · exact List.forall_mem_append.mpr ⟨h.valid, List.forall_mem_singleton.mpr hvalid⟩
        · exact List.forall_mem_append.mpr
            ⟨fun b hb => (h.knows b hb).mono x.knowns, List.forall_mem_singleton.mpr x.knows⟩
    · simp only [hfind] at hrun
      exact absurd hrun (by simp [refuse])

theorem Passed.checkComponents {bs : List Component} (h : Passed bs k)
    (hrun : cs.foldlM (Assembly.checkComponent l) k = .ok k') : Passed (bs ++ cs) k' := by
  induction cs generalizing bs k with
  | nil =>
    obtain rfl : k = k' := Except.ok.inj hrun
    rwa [List.append_nil]
  | cons c cs ih =>
    rw [List.foldlM_cons] at hrun
    rcases hfirst : Assembly.checkComponent l k c with e | k₁ <;> rw [hfirst] at hrun
    · exact absurd hrun (by simp [bind, Except.bind])
    · rw [List.append_cons]
      exact ih (h.checkComponent hfirst) hrun

/-! ### Constants -/

section Constants

variable [BEq α] [LawfulBEq α]

theorem lookup_setKey {x y : α} {v : β} : ∀ {ps : List (α × β)},
    (setKey x v ps).lookup y = if y == x then some v else ps.lookup y
  | [] => by
    rw [setKey, List.lookup_cons, List.lookup_nil]
    cases y == x <;> rfl
  | (z, w) :: ps => by
    rw [setKey]
    split
    · next hz =>
      rw [eq_of_beq hz, List.lookup_cons, List.lookup_cons]
      cases y == x <;> rfl
    · next hz =>
      rw [List.lookup_cons, List.lookup_cons, lookup_setKey]
      split
      · next hy =>
        have hne : (y == x) = false := by
          rw [eq_of_beq hy]
          exact Bool.not_eq_true _ ▸ hz
        rw [hne]
        rfl
      · rfl

/-- Of the pairs that are set one after another, each under a key of its own, every one is found. -/
theorem lookup_foldl_setKey {y : α} (xs : List (α × β)) (hxs : (xs.map Prod.fst).Nodup) :
    ∀ {ps : List (α × β)}, (xs.foldl (fun ps x => setKey x.1 x.2 ps) ps).lookup y =
      (xs.lookup y).or (ps.lookup y) := by
  induction xs with
  | nil => simp
  | cons x xs ih =>
    intro ps
    obtain ⟨z, v⟩ := x
    obtain ⟨hz, hxs⟩ := List.nodup_cons.mp hxs
    rw [List.foldl_cons, ih hxs, lookup_setKey, List.lookup_cons]
    by_cases hy : y = z
    · have hnone : xs.lookup y = none :=
        lookup_eq_none fun p hp heq => hz (List.mem_map.mpr ⟨p, hp, heq.trans hy⟩)
      rw [hnone, hy, beq_self_eq_true, if_pos rfl]
      rfl
    · rw [beq_false_of_ne hy]
      rfl

end Constants

/-- The constants as quantities. -/
def constantQuantities : List (Symbol × Quantity) :=
  mathConstants.map fun p => (.par p.1, constantQuantity p.1 p.2)

theorem lookup_quantities_addConstants (k : Checked) (u : Symbol) :
    (mathConstants.foldl addConstant k).quantities.lookup u =
      (constantQuantities.lookup u).or (k.quantities.lookup u) :=
  lookup_foldl_setKey constantQuantities (by decide)

theorem lookup_knowns_addConstants (k : Checked) (n : String) :
    (mathConstants.foldl addConstant k).knowns.lookup n =
      (mathConstants.lookup n).or (k.knowns.lookup n) :=
  lookup_foldl_setKey mathConstants (by decide)

theorem exists_of_check (hrun : check l cs = .ok k) :
    ∃ k₀, cs.foldlM (checkComponent l) {} = .ok k₀ ∧ k = mathConstants.foldl addConstant k₀ := by
  rw [check] at hrun
  rcases hfold : cs.foldlM (checkComponent l) {} with e | k₀ <;> rw [hfold] at hrun
  · exact absurd hrun (by simp [bind, Except.bind])
  · exact ⟨k₀, rfl, (Except.ok.inj hrun).symm⟩

theorem passed_of_check (hrun : cs.foldlM (Assembly.checkComponent l) {} = .ok k) :
    Passed cs k := by
  have hstart : Passed [] {} := ⟨⟨by simp, by simp⟩, rfl, .nil, by simp, by simp⟩
  exact hstart.checkComponents hrun

/-- The components of a checked diagram have different names and are valid, and the values of their
parameters are known, as far as no constant has their names. -/
theorem check_ok (hrun : check l cs = .ok k) :
    (cs.map Component.name).Nodup ∧ (∀ c ∈ cs, c.validate = .ok ()) ∧
      ∀ c ∈ cs, ∀ q ∈ c.quantities, q.kind = .param → ∀ n, q.symbol = .par n →
        (∀ p ∈ mathConstants, n ≠ p.1) → ∀ v ∈ q.value, (n, v) ∈ k.knowns := by
  obtain ⟨k₀, hfold, rfl⟩ := exists_of_check hrun
  have h := passed_of_check hfold
  refine ⟨h.names, h.valid, fun c hc q hq hkind n hsymbol hne v hv => ?_⟩
  apply mem_of_lookup
  rw [lookup_knowns_addConstants, lookup_eq_none fun p hp heq => hne p hp heq.symm, Option.none_or]
  exact lookup_of_mem h.keyed.nodup (h.knows c hc q hq hkind n hsymbol v hv)

/-- The system of a diagram that is not refused is that of the equations of its connections, by
kind, and of its components. -/
theorem assemble_ok {d : Diagram} {verbose : Bool} {s : EquationSystem}
    (h : (assemble l d verbose).outcome = .ok s) :
    ∃ k nodes, check l d.components = .ok k ∧ (identifyNodes d verbose).outcome = .ok nodes ∧
      s = systemOf d k ((nodes.filter fun e => e.kind == .pot) ++
        (nodes.filter fun e => e.kind == .flow) ++ d.components.flatMap Component.equations) := by
  simp only [assemble, Run.bind_ok, Run.outcome_stage, Run.outcome_ofExcept, Run.outcome_pure,
    Except.ok.injEq, exists_eq_left', finish] at h
  obtain ⟨k, hk, nodes, hnodes, -, -, -, -, h⟩ := h
  exact ⟨k, nodes, hk, hnodes, h.symm⟩

end Assembly

end Flange

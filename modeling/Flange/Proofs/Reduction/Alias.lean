import Flange.Proofs.Expr.Occurrence
import Flange.Proofs.Observed
import Flange.Reduction.Alias

/-! # Aliases

An unknown is left or has been eliminated, and what was eliminated is given by unknowns that are
left.
-/

namespace Flange

namespace AliasContext

variable {ctx : AliasContext} {unknowns differentiated : List Var} {e sub : Expr} {v w : Var}
  {act : AliasAction}

theorem mem_unknownsIn : v ∈ EquationSystem.unknownsIn unknowns e ↔
    v ∈ e.functions ∧ v ∈ unknowns := by
  simp [EquationSystem.unknownsIn]

theorem within_of_isNumber {P : Symbol → Prop} (h : e.isNumber = true) : e.Within P := by
  intro s hs
  simp [List.isEmpty_iff.mp h] at hs

theorem within_of_determine {ks : Constants} {R : Var → Prop} (h : ks.determine e = true) :
    e.Within (Symbol.Only R) := by
  intro s hs
  have := List.all_eq_true.mp h s (List.mem_eraseDups.mpr hs)
  cases s with
  | var v => simp at this
  | _ => trivial

/-- A solution for `v` is a constant or a multiple of another unknown. -/
theorem matchConstant_within {R : Var → Prop} (h : ctx.matchConstant e v = some (w, sub)) :
    w = v ∧ sub.Within (Symbol.Only R) := by
  simp only [matchConstant, Option.bind_eq_bind, Option.bind_eq_some_iff] at h
  obtain ⟨c, -, h⟩ := h
  split at h
  · next hdet =>
    obtain ⟨rfl, rfl⟩ := Prod.mk.inj (Option.some.inj h)
    obtain ⟨hc, hrest⟩ := Bool.and_eq_true_iff.mp hdet
    exact ⟨rfl, Expr.within_div (Expr.within_neg (within_of_determine hrest))
      (within_of_determine hc)⟩
  · simp at h

theorem matchPair_within {P : Symbol → Prop} {x : Var}
    (h : ctx.matchPair differentiated e v w = some (x, sub)) :
    (x = v ∧ (P (.var w) → sub.Within P)) ∨ (x = w ∧ (P (.var v) → sub.Within P)) := by
  simp only [matchPair, Option.bind_eq_bind, Option.bind_eq_some_iff] at h
  obtain ⟨cv, -, cw, -, h⟩ := h
  split at h
  · next hnum =>
    simp only [Bool.and_eq_true] at hnum
    have hcv : cv.Within P := within_of_isNumber hnum.1.1.1
    have hcw : cw.Within P := within_of_isNumber hnum.1.1.2
    split at h
    · obtain ⟨rfl, rfl⟩ := Prod.mk.inj (Option.some.inj h)
      exact Or.inl ⟨rfl, fun hw => Expr.within_mul (Expr.within_div (Expr.within_neg hcw) hcv)
        (Expr.within_var.mpr hw)⟩
    · obtain ⟨rfl, rfl⟩ := Prod.mk.inj (Option.some.inj h)
      exact Or.inr ⟨rfl, fun hv => Expr.within_mul (Expr.within_div (Expr.within_neg hcv) hcw)
        (Expr.within_var.mpr hv)⟩
  · simp at h

/-- What is eliminated is an unknown of the equation, given by the other one and by no derivative. -/
theorem match?_unknownsIn (h : ctx.match? unknowns differentiated e = some (v, sub)) :
    v ∈ EquationSystem.unknownsIn unknowns e ∧
      sub.Within (Symbol.Only fun f => f ∈ EquationSystem.unknownsIn unknowns e ∧ f ≠ v) := by
  unfold match? at h
  split at h
  · simp at h
  · split at h
    · next w heq =>
      obtain ⟨rfl, hsub⟩ := matchConstant_within h
      exact ⟨by simp [heq], hsub⟩
    · next x w heq =>
      have hx : x ∈ EquationSystem.unknownsIn unknowns e := by simp [heq]
      have hw : w ∈ EquationSystem.unknownsIn unknowns e := by simp [heq]
      have hne : x ≠ w := by
        have := nodup_sortVars (e.functions.filter unknowns.contains)
        rw [show sortVars (e.functions.filter unknowns.contains) = [x, w] from heq] at this
        simpa using this
      rcases matchPair_within h with ⟨rfl, hsub⟩ | ⟨rfl, hsub⟩
      · exact ⟨hx, hsub ⟨hw, Ne.symm hne⟩⟩
      · exact ⟨hw, hsub ⟨hx, hne⟩⟩
    · simp at h

/-- What is eliminated is an unknown, given by other unknowns and by none of their derivatives. -/
theorem match?_within (h : ctx.match? unknowns differentiated e = some (v, sub)) :
    v ∈ unknowns ∧ sub.Within (Symbol.Only fun f => f ∈ unknowns ∧ f ≠ v) := by
  obtain ⟨hv, hsub⟩ := match?_unknownsIn h
  refine ⟨(mem_unknownsIn.mp hv).2, hsub.mono fun u hu => hu.imp fun f hf => ?_⟩
  exact ⟨(mem_unknownsIn.mp hf.1).2, hf.2⟩

theorem match?_over (horder : ∀ u ∈ unknowns, u.order = 0)
    (h : ctx.match? unknowns differentiated e = some (v, sub)) :
    v ∈ unknowns ∧ sub.Over fun f => f ∈ unknowns ∧ f ≠ v := by
  obtain ⟨hv, hsub⟩ := match?_within h
  refine ⟨hv, hsub.mono fun u hu => hu.imp fun f hf => ?_⟩
  rwa [Var.base_of_order (horder f hf.1)]

theorem scan_ok : ∀ {es : List Expr} {i j : Nat},
    ctx.scan unknowns differentiated es i = .ok (some (j, act)) →
      ∃ k e, j = i + k ∧ es[k]? = some e ∧
        ctx.action? unknowns differentiated e = .ok (some act)
  | e :: es, i, j, h => by
    rw [scan] at h
    split at h
    · simp at h
    · next a ha =>
      obtain ⟨rfl, rfl⟩ := Prod.mk.inj (Option.some.inj (Except.ok.inj h))
      exact ⟨0, e, rfl, rfl, ha⟩
    · obtain ⟨k, f, rfl, hf, ha⟩ := scan_ok h
      exact ⟨k + 1, f, by omega, by simpa using hf, ha⟩

theorem action?_eliminate
    (h : ctx.action? unknowns differentiated e = .ok (some (.eliminate v sub))) :
    ctx.match? unknowns differentiated e = some (v, sub) := by
  unfold action? at h
  split at h
  · split at h
    · simp at h
    · split at h <;> simp at h
  · simpa using h

end AliasContext

namespace Aliases

variable {ctx : AliasContext} {a b : Aliases} {v w : Var} {sub : Expr} {i : Nat}

/-! ### Steps -/

/-- The equations, unknowns and observed variables are the same. -/
structure SameSystem (a b : Aliases) : Prop where
  exprs : b.exprs = a.exprs
  unknowns : b.unknowns = a.unknowns
  observed : b.observed = a.observed

theorem SameSystem.refl (a : Aliases) : SameSystem a a := ⟨rfl, rfl, rfl⟩

theorem SameSystem.trans {c : Aliases} (h : SameSystem a b) (h' : SameSystem b c) :
    SameSystem a c :=
  ⟨h'.exprs.trans h.exprs, h'.unknowns.trans h.unknowns, h'.observed.trans h.observed⟩

theorem checkConstant_same {strong weak : Option Rat}
    (h : checkConstant ctx a v sub strong weak = .ok b) : SameSystem a b := by
  unfold checkConstant at h
  split at h
  · simp at h
  · split at h
    · simp at h
    · split at h <;> exact Except.ok.inj h ▸ ⟨rfl, rfl, rfl⟩

theorem carryStrong_same {q : Rat} {o : Option Rat} (h : carryStrong a v w q o = .ok b) :
    SameSystem a b := by
  unfold carryStrong at h
  split at h
  · exact Except.ok.inj h ▸ .refl a
  · split at h
    · split at h
      · exact Except.ok.inj h ▸ .refl a
      · simp at h
    · exact Except.ok.inj h ▸ ⟨rfl, rfl, rfl⟩

theorem carryWeak_same (a : Aliases) (v w : Var) (q : Rat) (o : Option Rat) :
    SameSystem a (carryWeak a v w q o) := by
  unfold carryWeak
  split
  · exact .refl a
  · split
    · exact .refl a
    · split
      · dsimp only
        split <;> exact ⟨rfl, rfl, rfl⟩
      · exact ⟨rfl, rfl, rfl⟩

theorem carry_same (h : carry ctx a v sub = .ok b) : SameSystem a b := by
  unfold carry at h
  dsimp only at h
  split at h
  · exact Except.ok.inj h ▸ ⟨rfl, rfl, rfl⟩
  · split at h
    · have hs := checkConstant_same h
      exact ⟨hs.exprs, hs.unknowns, hs.observed⟩
    · split at h
      · simp at h
      · obtain ⟨c, hc, rfl⟩ := exists_of_map_ok h
        have hs := carryStrong_same hc
        exact SameSystem.trans ⟨hs.exprs, hs.unknowns, hs.observed⟩ (carryWeak_same ..)

/-- What an elimination leaves. -/
theorem eliminate_ok (h : eliminate ctx a i v sub = .ok b) :
    b.exprs = (a.exprs.eraseIdx i).map (Expr.substitute [(.var v, sub)]) ∧
    b.unknowns = (a.unknowns.filter fun w => w != v) ∧
    b.observed = Observed.set
      (a.observed.map fun p => (p.1, p.2.substitute [(.var v, sub)])) v sub :=
  have hs := carry_same h
  ⟨hs.exprs, hs.unknowns, hs.observed⟩

/-- What a step does: it drops an equation, or solves an equation with the unknowns `vs` for one
of them. -/
inductive Event
  | dropped (e : Expr)
  | solved (e : Expr) (vs : List Var) (v : Var) (sub : Expr)
  deriving DecidableEq

/-- What the next step does. -/
def event? (ctx : AliasContext) (a : Aliases) : Option Event :=
  match ctx.scan a.unknowns a.differentiated a.exprs 0 with
  | .ok (some (i, .drop)) => (a.exprs[i]?).map .dropped
  | .ok (some (i, .eliminate v sub)) =>
    (a.exprs[i]?).map fun e => .solved e (EquationSystem.unknownsIn a.unknowns e) v sub
  | _ => none

/-- What the steps do, one after another. -/
def events (ctx : AliasContext) : (fuel : Nat) → Aliases → List Event
  | 0, _ => []
  | fuel + 1, a =>
    match step ctx a with
    | .ok (some b) => (event? ctx a).toList ++ events ctx fuel b
    | _ => []

inductive Step (ctx : AliasContext) (a : Aliases) : Event → Aliases → Prop
  | drop (i : Nat) (e : Expr) : a.exprs[i]? = some e →
      ctx.action? a.unknowns a.differentiated e = .ok (some .drop) →
      Step ctx a (.dropped e) { a with exprs := a.exprs.eraseIdx i }
  | eliminate (i : Nat) (e : Expr) (v : Var) (sub : Expr) (b : Aliases) : a.exprs[i]? = some e →
      ctx.match? a.unknowns a.differentiated e = some (v, sub) →
      Aliases.eliminate ctx a i v sub = .ok b →
      Step ctx a (.solved e (EquationSystem.unknownsIn a.unknowns e) v sub) b

inductive Steps (ctx : AliasContext) : List Event → Aliases → Aliases → Prop
  | nil (a : Aliases) : Steps ctx [] a a
  | cons {x : Event} {xs : List Event} {a b c : Aliases} : Step ctx a x b → Steps ctx xs b c →
      Steps ctx (x :: xs) a c

theorem step_ok (h : step ctx a = .ok (some b)) : ∃ x, event? ctx a = some x ∧ Step ctx a x b := by
  unfold step at h
  unfold event?
  split at h
  · simp at h
  · simp at h
  · next i hi =>
    obtain ⟨k, e, rfl, he, hact⟩ := AliasContext.scan_ok hi
    rw [Nat.zero_add] at h hi
    rw [hi]
    obtain rfl := Option.some.inj (Except.ok.inj h)
    exact ⟨.dropped e, by simp [he], .drop k e he hact⟩
  · next i v sub hi =>
    obtain ⟨k, e, rfl, he, hact⟩ := AliasContext.scan_ok hi
    rw [Nat.zero_add] at h hi
    rw [hi]
    obtain ⟨c, hc, heq⟩ := exists_of_map_ok h
    obtain rfl := Option.some.inj heq
    exact ⟨_, by simp [he], .eliminate k e v sub c he (AliasContext.action?_eliminate hact) hc⟩

theorem steps_ok : ∀ {fuel : Nat} {a b : Aliases}, steps ctx fuel a = .ok b →
    Steps ctx (events ctx fuel a) a b
  | 0, _, _, h => Except.ok.inj h ▸ .nil _
  | fuel + 1, a, b, h => by
    rw [steps] at h
    rw [events]
    split at h
    · simp at h
    · next hc =>
      rw [hc]
      exact Except.ok.inj h ▸ .nil a
    · next c hc =>
      obtain ⟨x, hx, hstep⟩ := step_ok hc
      rw [hc, hx]
      exact .cons hstep (steps_ok h)

/-- What every step keeps is kept by all steps together. -/
theorem Steps.keeps {P : Aliases → Prop} (hstep : ∀ {x a b}, Step ctx a x b → P a → P b)
    {xs : List Event} (h : Steps ctx xs a b) (ha : P a) : P b := by
  induction h with
  | nil => exact ha
  | cons h _ ih => exact ih (hstep h ha)

/-! ### Accounts -/

/-- Of the unknowns `us` each is left or observed, and what is observed is given by those left
and the inputs. -/
structure Tracks (us inputs : List Var) (a : Aliases) : Prop where
  subset : a.unknowns ⊆ us
  accounted : ∀ u ∈ us, u ∈ a.unknowns ∨ u ∈ a.observed.map Prod.fst
  givenBy : ∀ q ∈ a.observed, q.2.Over fun f => f ∈ a.unknowns ∨ f ∈ inputs

variable {us inputs : List Var}

theorem Tracks.step {x : Event} (horder : ∀ u ∈ us, u.order = 0) (hstep : Step ctx a x b)
    (h : Tracks us inputs a) : Tracks us inputs b := by
  cases hstep with
  | drop i e he hact => exact ⟨h.subset, h.accounted, h.givenBy⟩
  | eliminate i e v sub b he hmatch hb =>
    obtain ⟨hv, hsub⟩ := AliasContext.match?_over (fun u hu => horder u (h.subset hu)) hmatch
    obtain ⟨-, hunknowns, hobserved⟩ := eliminate_ok hb
    have hleft : ∀ {w}, w ∈ b.unknowns ↔ w ∈ a.unknowns ∧ w ≠ v := by simp [hunknowns]
    have hkeys : ∀ {w}, w ∈ b.observed.map Prod.fst ↔ w = v ∨ w ∈ a.observed.map Prod.fst := by
      intro w
      rw [hobserved, Observed.mem_keys_set, List.map_map]
      rfl
    have hnew : sub.Over fun f => f ∈ b.unknowns ∨ f ∈ inputs :=
      hsub.imp fun f hf => Or.inl (hleft.mpr hf)
    refine ⟨fun w hw => h.subset (hleft.mp hw).1, fun u hu => ?_, fun q hq => ?_⟩
    · by_cases huv : u = v
      · exact Or.inr (hkeys.mpr (Or.inl huv))
      · exact (h.accounted u hu).imp (fun hu => hleft.mpr ⟨hu, huv⟩) fun hu => hkeys.mpr (Or.inr hu)
    · rw [hobserved] at hq
      rcases Observed.of_mem_set hq with rfl | hq
      · exact hnew
      · obtain ⟨r, hr, rfl⟩ := List.mem_map.mp hq
        change (r.2.substitute [(.var v, sub)]).Over _
        refine Expr.Over.substitute (fun t f hf => ?_) ((h.givenBy r hr).imp fun f hf hnone => ?_)
        · obtain ⟨-, rfl⟩ := Prod.mk.inj (List.mem_singleton.mp (mem_of_lookup hf))
          exact hnew
        · refine hf.imp_left fun hf => hleft.mpr ⟨hf, ?_⟩
          rintro rfl
          simp at hnone

theorem Step.subset {x : Event} (hstep : Step ctx a x b) : b.unknowns ⊆ a.unknowns := by
  cases hstep with
  | drop i e he hact => exact List.Subset.refl _
  | eliminate i e v sub b he hmatch hb =>
    rw [(eliminate_ok hb).2.1]
    exact List.filter_subset_self _

/-- Unknowns that are left are not observed. -/
theorem unobserved_step {x : Event} (hstep : Step ctx a x b)
    (h : ∀ u ∈ a.unknowns, u ∉ a.observed.map Prod.fst) :
    ∀ u ∈ b.unknowns, u ∉ b.observed.map Prod.fst := by
  cases hstep with
  | drop i e he hact => exact h
  | eliminate i e v sub b he hmatch hb =>
    obtain ⟨-, hunknowns, hobserved⟩ := eliminate_ok hb
    intro u hu hkey
    rw [hunknowns, List.mem_filter] at hu
    rw [hobserved, Observed.mem_keys_set, List.map_map] at hkey
    rcases hkey with rfl | hkey
    · simp at hu
    · exact h u hu.1 hkey

/-- The functions of the equations are unknowns that are left and inputs. -/
theorem closed_step {x : Event} (hstep : Step ctx a x b) (horder : ∀ u ∈ a.unknowns, u.order = 0)
    (h : ∀ e ∈ a.exprs, e.Over fun f => f ∈ a.unknowns ∨ f ∈ inputs) :
    ∀ e ∈ b.exprs, e.Over fun f => f ∈ b.unknowns ∨ f ∈ inputs := by
  cases hstep with
  | drop i e he hact => exact fun f hf => h f (List.mem_of_mem_eraseIdx hf)
  | eliminate i e v sub b he hmatch hb =>
    obtain ⟨-, hsub⟩ := AliasContext.match?_over horder hmatch
    obtain ⟨hexprs, hunknowns, -⟩ := eliminate_ok hb
    have hleft : ∀ {w}, w ∈ b.unknowns ↔ w ∈ a.unknowns ∧ w ≠ v := by simp [hunknowns]
    rw [hexprs]
    refine List.forall_mem_map.mpr fun f hf => ?_
    refine Expr.Over.substitute (fun t g hg => ?_)
      ((h f (List.mem_of_mem_eraseIdx hf)).imp fun u hu hnone => hu.imp_left fun hu => ?_)
    · obtain ⟨-, rfl⟩ := Prod.mk.inj (List.mem_singleton.mp (mem_of_lookup hg))
      exact hsub.imp fun u hu => Or.inl (hleft.mpr hu)
    · refine hleft.mpr ⟨hu, ?_⟩
      rintro rfl
      simp at hnone

/-- No function comes into the equations that was neither in them nor an unknown. -/
theorem over_step {x : Event} (hstep : Step ctx a x b) (horder : ∀ u ∈ a.unknowns, u.order = 0)
    {R : Var → Prop} (hR : ∀ u ∈ a.unknowns, R u) (h : ∀ e ∈ a.exprs, e.Over R) :
    ∀ e ∈ b.exprs, e.Over R := by
  cases hstep with
  | drop i e he hact => exact fun f hf => h f (List.mem_of_mem_eraseIdx hf)
  | eliminate i e v sub b he hmatch hb =>
    obtain ⟨-, hsub⟩ := AliasContext.match?_over horder hmatch
    rw [(eliminate_ok hb).1]
    refine List.forall_mem_map.mpr fun f hf => ?_
    refine Expr.Over.substitute (fun t g hg => ?_)
      ((h f (List.mem_of_mem_eraseIdx hf)).imp fun u hu _ => hu)
    obtain ⟨-, rfl⟩ := Prod.mk.inj (List.mem_singleton.mp (mem_of_lookup hg))
    exact hsub.imp fun u hu => hR u hu.1

/-- No derivative comes into what is observed. -/
theorem undifferentiated_step {x : Event} (hstep : Step ctx a x b)
    (horder : ∀ u ∈ a.unknowns, u.order = 0)
    (h : ∀ q ∈ a.observed, q.2.Within (Symbol.Only fun v => v.order = 0)) :
    ∀ q ∈ b.observed, q.2.Within (Symbol.Only fun v => v.order = 0) := by
  cases hstep with
  | drop i e he hact => exact h
  | eliminate i e v sub b he hmatch hb =>
    obtain ⟨-, hsub⟩ := AliasContext.match?_within hmatch
    have hnew : sub.Within (Symbol.Only fun v => v.order = 0) :=
      hsub.mono fun u hu => hu.imp fun f hf => horder f hf.1
    rw [(eliminate_ok hb).2.2]
    intro q hq
    rcases Observed.of_mem_set hq with rfl | hq
    · exact hnew
    · obtain ⟨r, hr, rfl⟩ := List.mem_map.mp hq
      change (r.2.substitute [(.var v, sub)]).Within _
      refine Expr.within_substitute fun t ht => ?_
      change (Expr.replaceSymbol [(.var v, sub)] t).Within _
      rcases Expr.replaceSymbol_cases [(.var v, sub)] t with
        ⟨f, hf, heq⟩ | ⟨w, f, rfl, ho, -, -, -⟩ | ⟨-, -, heq⟩
      · rw [heq, (Prod.mk.inj (List.mem_singleton.mp (mem_of_lookup hf))).2]
        exact hnew
      · exact absurd (h r hr _ ht) ho
      · rw [heq, Expr.within_sym]
        exact h r hr t ht

/-- No variable is observed twice. -/
theorem nodup_keys_step {x : Event} (hstep : Step ctx a x b)
    (h : (a.observed.map Prod.fst).Nodup) : (b.observed.map Prod.fst).Nodup := by
  cases hstep with
  | drop i e he hact => exact h
  | eliminate i e v sub b he hmatch hb =>
    rw [(eliminate_ok hb).2.2]
    exact Observed.nodup_keys_set (by simpa [Function.comp_def] using h)

/-- What is observed are unknowns of `us`; they are neither left nor in an equation. -/
structure Separate (us : List Var) (a : Aliases) : Prop where
  subset : a.unknowns ⊆ us
  observed : ∀ u ∈ a.observed.map Prod.fst, u ∈ us
  disjoint : ∀ u ∈ a.unknowns, u ∉ a.observed.map Prod.fst
  exprs : ∀ e ∈ a.exprs, e.Over fun f => f ∉ a.observed.map Prod.fst

theorem Separate.step {x : Event} (horder : ∀ u ∈ us, u.order = 0) (hstep : Step ctx a x b)
    (h : Separate us a) : Separate us b := by
  have hdisjoint := unobserved_step hstep h.disjoint
  cases hstep with
  | drop i e he hact =>
    exact ⟨h.subset, h.observed, h.disjoint, fun f hf => h.exprs f (List.mem_of_mem_eraseIdx hf)⟩
  | eliminate i e v sub b he hmatch hb =>
    obtain ⟨hv, hsub⟩ := AliasContext.match?_over (fun u hu => horder u (h.subset hu)) hmatch
    obtain ⟨hexprs, hunknowns, hobserved⟩ := eliminate_ok hb
    have hkeys : ∀ {w}, w ∈ b.observed.map Prod.fst ↔ w = v ∨ w ∈ a.observed.map Prod.fst := by
      intro w
      rw [hobserved, Observed.mem_keys_set, List.map_map]
      rfl
    refine ⟨?_, fun u hu => (hkeys.mp hu).elim (· ▸ h.subset hv) (h.observed u), hdisjoint, ?_⟩
    · rw [hunknowns]
      exact fun u hu => h.subset (List.mem_of_mem_filter hu)
    · rw [hexprs]
      refine List.forall_mem_map.mpr fun f hf => ?_
      have hover := h.exprs f (List.mem_of_mem_eraseIdx hf)
      refine Expr.Over.substitute (fun t g hg => ?_) (hover.imp fun u hu hnone => ?_)
      · obtain ⟨-, rfl⟩ := Prod.mk.inj (List.mem_singleton.mp (mem_of_lookup hg))
        exact hsub.imp fun u hu => fun hk => (hkeys.mp hk).elim hu.2 (h.disjoint u hu.1)
      · refine fun hk => (hkeys.mp hk).elim ?_ hu
        rintro rfl
        simp at hnone

end Aliases

end Flange

import Flange.Proofs.Expr.Linear
import Flange.Proofs.Expr.Signed
import Flange.Proofs.Reduction.Classes

/-! # Aliases up to sign

Where the quotient of two equal numbers is written as 1 or -1, an eliminated variable is observed as
the variable that stands for its class, or as its negation, or as a constant. The quotient of rational
numbers always is.
-/

namespace Flange

open Flange.Expr (SignedVar)

namespace AliasContext

variable {ctx : AliasContext} {unknowns differentiated : List Var} {e sub : Expr} {v w x : Var}
  {p q : Rat}

theorem linearCoeff_ne_zero (hv : e.partialDerivative (.var v) = .num p) {c : Expr}
    (h : e.linearCoeff? (.var v) = some c) : c = .num p ∧ p ≠ 0 := by
  obtain ⟨rfl, hzero, -⟩ := Expr.linearCoeff_eq_some.mp h
  rw [hv] at hzero
  refine ⟨hv, ?_⟩
  rintro rfl
  exact absurd hzero (by decide)

/-- An alias has no more than two unknowns. -/
theorem match?_subset (h : ctx.match? unknowns differentiated e = some (v, sub)) :
    ∃ x y, EquationSystem.unknownsIn unknowns e ⊆ [x, y] := by
  unfold match? at h
  split at h
  · cases h
  · split at h
    · next x heq => exact ⟨x, x, by simp [heq]⟩
    · next x y heq => exact ⟨x, y, by simp [heq]⟩
    · cases h

theorem matchPair_signed (hv : e.partialDerivative (.var v) = .num p)
    (hw : e.partialDerivative (.var w) = .num q)
    (h : ctx.matchPair differentiated e v w = some (x, sub)) :
    (∃ s, SignedVar s w sub) ∨ ∃ s, SignedVar s v sub := by
  simp only [matchPair, Option.bind_eq_bind, Option.bind_eq_some_iff] at h
  obtain ⟨cv, hcv, cw, hcw, h⟩ := h
  obtain ⟨rfl, hp⟩ := linearCoeff_ne_zero hv hcv
  obtain ⟨rfl, hq⟩ := linearCoeff_ne_zero hw hcw
  split at h
  · next hcond =>
    have hpq : p = q ∨ p = -q := by
      have hneg : -Expr.num q = Expr.num (-1 * q) := Expr.num_mul_num (-1) q
      simpa [hneg] using (Bool.and_eq_true_iff.mp (Bool.and_eq_true_iff.mp hcond).1).2
    split at h
    · obtain ⟨rfl, rfl⟩ := Prod.mk.inj (Option.some.inj h)
      exact Or.inl (SignedVar.of_quotient hp (hpq.imp Eq.symm fun h => by rw [h, neg_neg]) w)
    · obtain ⟨rfl, rfl⟩ := Prod.mk.inj (Option.some.inj h)
      exact Or.inr (SignedVar.of_quotient hq hpq v)
  · cases h

/-- With rational coefficients an alias is the other variable up to sign. -/
theorem match?_signed (horder : ∀ u ∈ unknowns, u.order = 0)
    (hrational : ∀ u ∈ EquationSystem.unknownsIn unknowns e,
      ∃ q, e.partialDerivative (.var u) = .num q)
    (h : ctx.match? unknowns differentiated e = some (v, sub)) (hw : w ∈ sub.functions) :
    ∃ s, SignedVar s w sub := by
  have hself : ∀ {z s}, z ∈ unknowns → SignedVar s z sub → SignedVar s w sub := by
    intro z s hz hs
    obtain ⟨u, hu, rfl⟩ := Expr.mem_functions.mp hw
    rw [Expr.mem_vars, hs.symbolList, List.mem_singleton] at hu
    obtain rfl := Symbol.var.inj hu
    rwa [Var.base_of_order (horder u hz)]
  unfold match? at h
  split at h
  · cases h
  · split at h
    · next u heq =>
      obtain ⟨rfl, hsub⟩ := matchConstant_within (R := fun _ => False) h
      obtain ⟨y, hy, -⟩ := Expr.mem_functions.mp hw
      exact absurd (hsub _ (Expr.mem_vars.mp hy)) not_false
    · next u z heq =>
      have hmem : ∀ y ∈ [u, z], y ∈ unknowns := fun y hy => (mem_unknownsIn.mp (heq ▸ hy)).2
      rw [heq] at hrational
      obtain ⟨p, hp⟩ := hrational u (by simp)
      obtain ⟨q, hq⟩ := hrational z (by simp)
      rcases matchPair_signed hp hq h with ⟨s, hs⟩ | ⟨s, hs⟩
      · exact ⟨s, hself (hmem z (by simp)) hs⟩
      · exact ⟨s, hself (hmem u (by simp)) hs⟩
    · cases h

end AliasContext

namespace Aliases

variable {ctx : AliasContext} {ks : Constants} {a b : Aliases} {x : Event} {xs : List Event}
  {e f sub : Expr} {vs ws : List Var} {r u v w : Var} {s : Rat}

/-- Of the variables that are solved for each is another one, or its negation, or a constant. -/
def Plain (xs : List Event) : Prop :=
  ∀ e vs v sub, .solved e vs v sub ∈ xs → ∀ w ∈ EquationSystem.unknownsIn vs sub,
    ∃ s, SignedVar s w sub

theorem Plain.tail (h : Plain (x :: xs)) : Plain xs :=
  fun e vs v sub hmem => h e vs v sub (List.mem_cons_of_mem _ hmem)

theorem factor_of_signedVar (h : SignedVar s w sub) : factor ks sub w = s := by
  rw [factor]
  cases h with
  | plus => rw [Expr.substitute_var, Expr.replaceSymbol_self]; rfl
  | minus =>
    rw [Expr.substitute_neg_var, Expr.replaceSymbol_self]
    change ((Expr.num (-1) * Expr.num 1).value? ks).getD 1 = -1
    rw [Expr.num_mul_num, mul_one]
    rfl

/-- With rational coefficients all aliases are plain. -/
theorem Steps.plain (hsteps : Steps ctx xs a b) (horder : ∀ u ∈ a.unknowns, u.order = 0)
    (hrational : ∀ e vs v sub, .solved e vs v sub ∈ xs →
      ∀ u ∈ vs, ∃ q, e.partialDerivative (.var u) = .num q) : Plain xs := by
  induction hsteps with
  | nil => exact fun _ _ _ _ h => by cases h
  | cons hstep _ ih =>
    have htail := ih (fun u hu => horder u (hstep.subset hu)) fun e vs v sub hmem =>
      hrational e vs v sub (List.mem_cons_of_mem _ hmem)
    intro e vs v sub hmem w hw
    rcases List.mem_cons.mp hmem with rfl | hmem
    · cases hstep with
      | eliminate i _ _ _ _ he hmatch hb =>
        exact AliasContext.match?_signed horder (hrational e _ v sub List.mem_cons_self) hmatch
          (AliasContext.mem_unknownsIn.mp hw).1
    · exact htail e vs v sub hmem w hw

/-! ### How variables are observed -/

theorem Step.lookup_observed (hstep : Step ctx a (.solved e vs u sub) b) :
    b.observed.lookup u = some sub ∧ ∀ v, v ≠ u → b.observed.lookup v =
      (a.observed.lookup v).map (Expr.substitute [(.var u, sub)]) := by
  cases hstep with
  | eliminate i _ _ _ _ he hmatch hb =>
    rw [(eliminate_ok hb).2.2]
    refine ⟨Observed.lookup_set_self .., fun v hv => ?_⟩
    rw [Observed.lookup_set_of_ne hv]
    exact lookup_map (f := id) id _ a.observed v

/-- The alias of an eliminated variable has no unknown but the one that it is merged with. -/
theorem Step.over (hstep : Step ctx a (.solved e vs u sub) b)
    (horder : ∀ u ∈ a.unknowns, u.order = 0) :
    sub.Over fun f => (EquationSystem.unknownsIn vs sub).head? = some f := by
  cases hstep with
  | eliminate i _ _ _ _ he hmatch hb =>
    obtain ⟨x, y, hxy⟩ := AliasContext.match?_subset hmatch
    obtain ⟨hu, hsub⟩ := AliasContext.match?_unknownsIn hmatch
    have hother : ∀ f ∈ sub.functions, f ∈ EquationSystem.unknownsIn a.unknowns e ∧ f ≠ u := by
      intro f hf
      obtain ⟨g, hg, rfl⟩ := Expr.mem_functions.mp hf
      have hg := Expr.within_only.mp hsub g hg
      rwa [Var.base_of_order (horder g (AliasContext.mem_unknownsIn.mp hg.1).2)]
    refine Expr.over_iff.mpr fun f hf => ?_
    obtain ⟨hfe, hfu⟩ := hother f hf
    have hmem : f ∈ EquationSystem.unknownsIn (EquationSystem.unknownsIn a.unknowns e) sub :=
      AliasContext.mem_unknownsIn.mpr ⟨hf, hfe⟩
    cases hus : EquationSystem.unknownsIn (EquationSystem.unknownsIn a.unknowns e) sub with
    | nil => simp [hus] at hmem
    | cons z ws =>
      have hz := AliasContext.mem_unknownsIn.mp (hus ▸ List.mem_cons_self)
      obtain ⟨hze, hzu⟩ := hother z hz.1
      have hfxy := hxy hfe
      have hzxy := hxy hze
      have huxy := hxy hu
      simp only [List.mem_cons, List.not_mem_nil, or_false] at hfxy hzxy huxy
      rw [List.head?_cons]
      grind

theorem Steps.lookup_constant (hsteps : Steps ctx xs a b) (horder : ∀ u ∈ a.unknowns, u.order = 0)
    (hv : v ∉ a.unknowns) (he : a.observed.lookup v = some e) (hover : e.Over fun _ => False) :
    ∃ f, b.observed.lookup v = some f ∧ f.Over fun _ => False := by
  induction hsteps generalizing e with
  | nil a => exact ⟨e, he, hover⟩
  | cons hstep hrest ih =>
    have ih := fun {e} => ih (e := e) (fun u hu => horder u (hstep.subset hu))
      fun hb => hv (hstep.subset hb)
    cases hstep.passed horder with
    | dropped f =>
      cases hstep
      exact ih he hover
    | ended f vs u sub hus hu | merged f vs u sub w ws hus hu =>
      have hlookup := hstep.lookup_observed.2 v fun h => hv (h ▸ hu)
      rw [he] at hlookup
      exact ih hlookup (hover.substitute_of_not (horder u hu) not_false)

/-- A variable that is given by no unknown but `w` is given by none in the end but the one that
stands for the class of `w`. -/
theorem Steps.lookup_over (hsteps : Steps ctx xs a b) (horder : ∀ u ∈ a.unknowns, u.order = 0)
    (hv : v ∉ a.unknowns) (hw : w ∈ a.unknowns) (he : a.observed.lookup v = some e)
    (hover : e.Over fun f => f = w) : ∃ f, b.observed.lookup v = some f ∧
      f.Over fun u => u = (root ctx.knowns xs w).2 ∧ u ∈ b.unknowns := by
  induction hsteps generalizing e w with
  | nil a => exact ⟨e, he, hover.imp fun f hf => ⟨hf, hf ▸ hw⟩⟩
  | cons hstep hrest ih =>
    have horder' := fun u hu => horder u (hstep.subset hu)
    have hv' := fun hb => hv (hstep.subset hb)
    have ih := fun {e w} => ih (e := e) (w := w) horder' hv'
    cases hstep.passed horder with
    | dropped f =>
      cases hstep
      exact ih hw he hover
    | ended f vs u sub hus hu hmem =>
      have hlookup := hstep.lookup_observed.2 v fun h => hv (h ▸ hu)
      rw [he, Option.map_some] at hlookup
      by_cases hwu : w = u
      · subst hwu
        have hsub := hstep.over horder
        obtain ⟨g, hg, hgover⟩ := hrest.lookup_constant horder' hv' hlookup
          (hover.substitute_self (by simpa [hus] using hsub))
        exact ⟨g, hg, hgover.imp fun _ => False.elim⟩
      · rw [root_of_ne hwu]
        exact ih ((hmem w).mpr ⟨hw, hwu⟩) hlookup
          (hover.substitute_of_not (horder u hu) (Ne.symm hwu))
    | merged f vs u sub z ws hus hu hz hmem =>
      have hlookup := hstep.lookup_observed.2 v fun h => hv (h ▸ hu)
      rw [he, Option.map_some] at hlookup
      by_cases hwu : w = u
      · subst hwu
        have hsub := hstep.over horder
        rw [root_merged hus]
        refine ih hz hlookup (hover.substitute_self ?_)
        simpa [hus, eq_comm] using hsub
      · rw [root_of_ne hwu]
        exact ih ((hmem w).mpr ⟨hw, hwu⟩) hlookup
          (hover.substitute_of_not (horder u hu) (Ne.symm hwu))

/-- Where all aliases are plain, what is a variable up to sign is in the end the variable that stands
for its class, up to sign. -/
theorem Steps.lookup_signed (hsteps : Steps ctx xs a b) (horder : ∀ u ∈ a.unknowns, u.order = 0)
    (hplain : Plain xs) (hv : v ∉ a.unknowns) (hw : w ∈ a.unknowns)
    (he : a.observed.lookup v = some e) (hs : SignedVar s w e)
    (hleft : (root ctx.knowns xs w).2 ∈ b.unknowns) : ∃ f, b.observed.lookup v = some f ∧
      SignedVar (s * (root ctx.knowns xs w).1) (root ctx.knowns xs w).2 f := by
  induction hsteps generalizing e s w with
  | nil a => exact ⟨e, he, by simpa using hs⟩
  | cons hstep hrest ih =>
    have horder' := fun u hu => horder u (hstep.subset hu)
    have hv' := fun hb => hv (hstep.subset hb)
    have ih := fun {e s w} => ih (e := e) (s := s) (w := w) horder' hplain.tail hv'
    cases hstep.passed horder with
    | dropped f =>
      cases hstep
      exact ih hw he hs hleft
    | ended f vs u sub hus hu hmem =>
      have hlookup := hstep.lookup_observed.2 v fun h => hv (h ▸ hu)
      rw [he, Option.map_some] at hlookup
      by_cases hwu : w = u
      · subst hwu
        rw [root_ended hus] at hleft
        exact absurd rfl ((hmem w).mp (hrest.subset hleft)).2
      · rw [hs.substitute_of_ne (horder w hw) (Ne.symm hwu)] at hlookup
        rw [root_of_ne hwu] at hleft ⊢
        exact ih ((hmem w).mpr ⟨hw, hwu⟩) hlookup hs hleft
    | merged f vs u sub z ws hus hu hz hmem =>
      have hlookup := hstep.lookup_observed.2 v fun h => hv (h ▸ hu)
      rw [he, Option.map_some] at hlookup
      by_cases hwu : w = u
      · subst hwu
        obtain ⟨s', hs'⟩ := hplain f vs w sub List.mem_cons_self z (hus ▸ List.mem_cons_self)
        rw [root_merged hus] at hleft ⊢
        rw [factor_of_signedVar hs', ← mul_assoc]
        exact ih hz hlookup (hs.substitute_self hs') hleft
      · rw [hs.substitute_of_ne (horder w hw) (Ne.symm hwu)] at hlookup
        rw [root_of_ne hwu] at hleft ⊢
        exact ih ((hmem w).mpr ⟨hw, hwu⟩) hlookup hs hleft

/-- A variable that is eliminated is observed without any unknown but the one that stands for it,
which it is up to sign where all aliases are plain. -/
theorem Steps.observed (hsteps : Steps ctx xs a b) (horder : ∀ u ∈ a.unknowns, u.order = 0)
    (hv : v ∈ a.unknowns) (hgone : v ∉ b.unknowns) : ∃ e, b.observed.lookup v = some e ∧
      (e.Over fun u => u = (root ctx.knowns xs v).2 ∧ u ∈ b.unknowns) ∧
      (Plain xs → (root ctx.knowns xs v).2 ∈ b.unknowns →
        SignedVar (root ctx.knowns xs v).1 (root ctx.knowns xs v).2 e) := by
  induction hsteps with
  | nil a => exact absurd hv hgone
  | cons hstep hrest ih =>
    have horder' := fun u hu => horder u (hstep.subset hu)
    have ih := fun hv => ih horder' hv hgone
    cases hstep.passed horder with
    | dropped f hstrong hweak hunknowns =>
      obtain ⟨g, hg, hover, hsigned⟩ := ih (hunknowns ▸ hv)
      exact ⟨g, hg, hover, fun hplain => hsigned hplain.tail⟩
    | ended f vs u sub hus hu hmem =>
      by_cases hvu : v = u
      · subst hvu
        have hover := hstep.over horder
        rw [hus] at hover
        obtain ⟨g, hg, hgover⟩ := hrest.lookup_constant horder' (fun hb => ((hmem v).mp hb).2 rfl)
          hstep.lookup_observed.1 (hover.imp fun f hf => by cases hf)
        rw [root_ended hus]
        exact ⟨g, hg, hgover.imp fun _ => False.elim, fun _ hleft => absurd hleft hgone⟩
      · obtain ⟨g, hg, hover, hsigned⟩ := ih ((hmem v).mpr ⟨hv, hvu⟩)
        rw [root_of_ne hvu]
        exact ⟨g, hg, hover, fun hplain => hsigned hplain.tail⟩
    | merged f vs u sub z ws hus hu hz hmem =>
      by_cases hvu : v = u
      · subst hvu
        have hover := hstep.over horder
        rw [hus] at hover
        -- from here on `v` is observed, by its alias, and the later steps rewrite that
        have hnot := fun hb => ((hmem v).mp hb).2 rfl
        obtain ⟨g, hg, hgover⟩ := hrest.lookup_over horder' hnot hz hstep.lookup_observed.1
          (hover.imp fun f hf => (Option.some.inj hf).symm)
        rw [root_merged hus]
        refine ⟨g, hg, hgover, fun hplain hleft => ?_⟩
        obtain ⟨s, hs⟩ := hplain f vs v sub List.mem_cons_self z (hus ▸ List.mem_cons_self)
        obtain ⟨g', hg', hsigned⟩ := hrest.lookup_signed horder' hplain.tail hnot hz
          hstep.lookup_observed.1 hs hleft
        obtain rfl := Option.some.inj (hg.symm.trans hg')
        rwa [factor_of_signedVar hs]
      · obtain ⟨g, hg, hover, hsigned⟩ := ih ((hmem v).mpr ⟨hv, hvu⟩)
        rw [root_of_ne hvu]
        exact ⟨g, hg, hover, fun hplain => hsigned hplain.tail⟩

end Aliases

end Flange

import Mathlib.Algebra.Order.Field.Basic
import Mathlib.Data.Finset.Card
import Mathlib.Tactic.Linarith
import Flange.Proofs.Reduction.Merged

/-! # Classes of aliases

Variables that are multiples of each other are a class. One of them stands for it: it is left at the
end, or has become a constant. The values of a class, taken as values of that variable, are kept, or
they are lost to one that is close.
-/

namespace Flange

namespace Aliases

variable {ctx : AliasContext} {ks : Constants} {a b : Aliases} {x : Event} {xs : List Event}
  {ics ics' : InitialValues} {e sub sub' : Expr} {vs ws : List Var} {r u v w : Var} {p q L M : Rat}

/-! ### Classes -/

/-- The variable that stands for the class of `v` after the given steps, with the number that `v` is
times this variable. A variable that becomes a constant stands for its class from then on. -/
def root (ks : Constants) : List Event → Var → Rat × Var
  | [], v => (1, v)
  | .dropped _ :: xs, v => root ks xs v
  | .solved _ vs u sub :: xs, v =>
    if v = u then
      match EquationSystem.unknownsIn vs sub with
      | [] => (1, u)
      | w :: _ => (factor ks sub w * (root ks xs w).1, (root ks xs w).2)
    else root ks xs v

/-- The constant that `v` is found to be. -/
def constant? : List Event → Var → Option Expr
  | [], _ => none
  | .dropped _ :: xs, v => constant? xs v
  | .solved _ vs u sub :: xs, v =>
    if v = u then if (EquationSystem.unknownsIn vs sub).isEmpty then some sub else none
    else constant? xs v

@[simp] theorem root_nil : root ks [] v = (1, v) := rfl

@[simp] theorem root_dropped : root ks (.dropped e :: xs) v = root ks xs v := rfl

theorem root_of_ne (h : v ≠ u) : root ks (.solved e vs u sub :: xs) v = root ks xs v := by
  rw [root, if_neg h]

theorem root_ended (h : EquationSystem.unknownsIn vs sub = []) :
    root ks (.solved e vs v sub :: xs) v = (1, v) := by
  rw [root, if_pos rfl, h]

theorem root_merged (h : EquationSystem.unknownsIn vs sub = w :: ws) :
    root ks (.solved e vs v sub :: xs) v =
      (factor ks sub w * (root ks xs w).1, (root ks xs w).2) := by
  rw [root, if_pos rfl, h]

theorem constant?_of_ne (h : v ≠ u) :
    constant? (.solved e vs u sub :: xs) v = constant? xs v := by
  rw [constant?, if_neg h]

theorem constant?_ended (h : EquationSystem.unknownsIn vs sub = []) :
    constant? (.solved e vs v sub :: xs) v = some sub := by
  rw [constant?, if_pos rfl, h]
  rfl

theorem constant?_of_merged (h : EquationSystem.unknownsIn vs sub = w :: ws)
    (hr : constant? (.solved e vs v sub :: xs) r = some sub') : constant? xs r = some sub' := by
  rw [constant?, h] at hr
  split at hr
  · simp at hr
  · exact hr

/-- What stands for an unknown is an unknown that is left, or one that has become a constant. -/
theorem Steps.root_cases (hsteps : Steps ctx xs a b) (horder : ∀ u ∈ a.unknowns, u.order = 0)
    (hv : v ∈ a.unknowns) : (root ctx.knowns xs v).2 ∈ a.unknowns ∧
      ((root ctx.knowns xs v).2 ∈ b.unknowns ∨
        ∃ sub, constant? xs (root ctx.knowns xs v).2 = some sub) := by
  induction hsteps generalizing v with
  | nil a => exact ⟨hv, Or.inl hv⟩
  | cons hstep hrest ih =>
    have ih := fun {v} => ih (v := v) fun u hu => horder u (hstep.subset hu)
    cases hstep.passed horder with
    | dropped e hstrong hweak hunknowns =>
      rw [hunknowns] at ih
      exact ih hv
    | ended e vs u sub hus hu hmem hx =>
      by_cases hvu : v = u
      · subst hvu
        rw [root_ended hus]
        exact ⟨hv, Or.inr ⟨sub, constant?_ended hus⟩⟩
      · obtain ⟨hleft, hroot⟩ := ih ((hmem v).mpr ⟨hv, hvu⟩)
        obtain ⟨hleft, hne⟩ := (hmem _).mp hleft
        rw [root_of_ne hvu, constant?_of_ne hne]
        exact ⟨hleft, hroot⟩
    | merged e vs u sub w ws hus hu hw hmem hx =>
      by_cases hvu : v = u
      · subst hvu
        obtain ⟨hleft, hroot⟩ := ih hw
        obtain ⟨hleft, hne⟩ := (hmem _).mp hleft
        rw [root_merged hus, constant?_of_ne hne]
        exact ⟨hleft, hroot⟩
      · obtain ⟨hleft, hroot⟩ := ih ((hmem v).mpr ⟨hv, hvu⟩)
        obtain ⟨hleft, hne⟩ := (hmem _).mp hleft
        rw [root_of_ne hvu, constant?_of_ne hne]
        exact ⟨hleft, hroot⟩

/-! ### Values of a class -/

/-- The class of `r` has, in `ics`, a variable whose value makes `r` be `p`. -/
def Gives (ks : Constants) (xs : List Event) (ics : InitialValues) (r : Var) (p : Rat) : Prop :=
  ∃ v q, ics.lookup v = some q ∧ (root ks xs v).2 = r ∧ p = q / (root ks xs v).1

theorem gives_nil : Gives ks [] ics r p ↔ ics.lookup r = some p := by
  constructor
  · rintro ⟨v, q, hq, rfl, rfl⟩
    simpa using hq
  · exact fun h => ⟨r, p, h, rfl, by simp⟩

/-- Each value after a step has been there before, of a variable of the same class. -/
def Traced (ks : Constants) (x : Event) (ics ics' : InitialValues) : Prop :=
  ∀ u q, ics'.lookup u = some q → ∃ u₀ q₀ s, ics.lookup u₀ = some q₀ ∧ q = q₀ / s ∧
    ∀ xs, root ks (x :: xs) u₀ = (s * (root ks xs u).1, (root ks xs u).2)

theorem Traced.gives (h : Traced ks x ics ics') (hp : Gives ks xs ics' r p) :
    Gives ks (x :: xs) ics r p := by
  obtain ⟨u, q, hq, rfl, rfl⟩ := hp
  obtain ⟨u₀, q₀, s, hq₀, rfl, hroot⟩ := h u q hq
  exact ⟨u₀, q₀, hq₀, by rw [hroot], by rw [hroot, div_div]⟩

theorem traced_of (h : ∀ u q, ics'.lookup u = some q →
    ics.lookup u = some q ∧ ∀ xs, root ks (x :: xs) u = root ks xs u) : Traced ks x ics ics' := by
  intro u q hq
  obtain ⟨hq, hroot⟩ := h u q hq
  exact ⟨u, q, 1, hq, (div_one q).symm, fun xs => by rw [hroot, one_mul]⟩

theorem traced_erase : Traced ks (.solved e vs v sub) ics (ics.erase v) := by
  refine traced_of fun u q hq => ?_
  have hne : u ≠ v := by
    rintro rfl
    simp at hq
  exact ⟨InitialValues.lookup_erase_of_ne hne ▸ hq, fun xs => root_of_ne hne⟩

theorem traced_merged (hus : EquationSystem.unknownsIn vs sub = w :: ws) (hne : w ≠ v)
    (hgone : ics'.lookup v = none)
    (hother : ∀ u, u ≠ v → u ≠ w → ics'.lookup u = ics.lookup u)
    (hw : ∀ p, ics'.lookup w = some p →
      ics.lookup w = some p ∨ ∃ q, ics.lookup v = some q ∧ p = q / factor ks sub w) :
    Traced ks (.solved e vs v sub) ics ics' := by
  intro u q hq
  have huv : u ≠ v := by
    rintro rfl
    simp [hgone] at hq
  have hstays : ics.lookup u = some q → ∃ u₀ q₀ s, ics.lookup u₀ = some q₀ ∧ q = q₀ / s ∧
      ∀ xs, root ks (.solved e vs v sub :: xs) u₀ =
        (s * (root ks xs u).1, (root ks xs u).2) := fun hq =>
    ⟨u, q, 1, hq, (div_one q).symm, fun xs => by rw [root_of_ne huv, one_mul]⟩
  by_cases huw : u = w
  · subst huw
    rcases hw q hq with hq | ⟨q₀, hq₀, rfl⟩
    · exact hstays hq
    · exact ⟨v, q₀, _, hq₀, rfl, fun xs => root_merged hus⟩
  · exact hstays (hother u huv huw ▸ hq)

theorem Merged.strong_origin {s : Rat} (h : Merged v w s a b) (hp : b.strong.lookup w = some p) :
    a.strong.lookup w = some p ∨ ∃ q, a.strong.lookup v = some q ∧ p = q / s := by
  rw [h.strong, Option.or_eq_some_iff] at hp
  refine hp.imp_right fun hmoved => ?_
  obtain ⟨q, hq, rfl⟩ := Option.map_eq_some_iff.mp hmoved.2
  exact ⟨q, hq, rfl⟩

theorem Passed.traced (hx : Passed ks a b x) :
    Traced ks x a.strong b.strong ∧ Traced ks x a.weak b.weak := by
  cases hx with
  | dropped e hstrong hweak hunknowns =>
    exact ⟨hstrong ▸ traced_of fun u q hq => ⟨hq, fun xs => rfl⟩,
      hweak ▸ traced_of fun u q hq => ⟨hq, fun xs => rfl⟩⟩
  | ended e vs v sub hus hv hmem hx => exact ⟨hx.strong ▸ traced_erase, hx.weak ▸ traced_erase⟩
  | merged e vs v sub w ws hus hv hw hmem hx =>
    have hne := ((hmem w).mp hw).2
    exact ⟨traced_merged hus hne hx.strong_gone hx.strong_of_ne fun p hp => hx.strong_origin hp,
      traced_merged hus hne hx.weak_gone hx.weak_of_ne hx.weak_origin⟩

/-- A value that is left is one of its class. -/
theorem Steps.gives (hsteps : Steps ctx xs a b) (horder : ∀ u ∈ a.unknowns, u.order = 0) :
    (∀ w p, b.strong.lookup w = some p → Gives ctx.knowns xs a.strong w p) ∧
      ∀ w p, b.weak.lookup w = some p → Gives ctx.knowns xs a.weak w p := by
  induction hsteps with
  | nil a => exact ⟨fun w p => gives_nil.mpr, fun w p => gives_nil.mpr⟩
  | cons hstep _ ih =>
    obtain ⟨hstrong, hweak⟩ := ih fun u hu => horder u (hstep.subset hu)
    obtain ⟨htraced, htracedWeak⟩ := (hstep.passed horder).traced
    exact ⟨fun w p hp => htraced.gives (hstrong w p hp),
      fun w p hp => htracedWeak.gives (hweak w p hp)⟩

theorem Steps.valued (hsteps : Steps ctx xs a b) (horder : ∀ u ∈ a.unknowns, u.order = 0)
    (h : a.Valued) : b.Valued := by
  induction hsteps with
  | nil => exact h
  | cons hstep _ ih =>
    exact ih (fun u hu => horder u (hstep.subset hu)) ((hstep.passed horder).valued h)

/-- A variable with a value has one afterwards, or another of its class does, or it has become a
constant. A weak value may give way to a strong one. -/
theorem Passed.held (hx : Passed ks a b x) (u : Var) :
    (u ∉ b.unknowns ∧ ∀ xs, (root ks (x :: xs) u).2 = u) ∨
      ∃ u', (∀ xs, (root ks xs u').2 = (root ks (x :: xs) u).2) ∧
        ((a.strong.lookup u).isSome → (b.strong.lookup u').isSome) ∧
        ((a.weak.lookup u).isSome → (b.strong.lookup u').isSome ∨ (b.weak.lookup u').isSome) := by
  cases hx with
  | dropped e hstrong hweak hunknowns =>
    exact Or.inr ⟨u, fun xs => rfl, by simp [hstrong], by simp +contextual [hweak]⟩
  | ended e vs v sub hus hv hmem hx =>
    by_cases hne : u = v
    · subst hne
      exact Or.inl ⟨fun hu => ((hmem u).mp hu).2 rfl, fun xs => by rw [root_ended hus]⟩
    · refine Or.inr ⟨u, fun xs => by rw [root_of_ne hne], ?_, ?_⟩
      · rw [hx.strong, InitialValues.lookup_erase_of_ne hne]
        exact id
      · rw [hx.weak, InitialValues.lookup_erase_of_ne hne]
        exact Or.inr
  | merged e vs v sub w ws hus hv hw hmem hx =>
    have hwv := ((hmem w).mp hw).2
    by_cases huv : u = v
    · subst huv
      refine Or.inr ⟨w, fun xs => by rw [root_merged hus], fun h => ?_, fun h => ?_⟩
      · simp [hx.strong, h]
      · obtain ⟨q, hq⟩ := Option.isSome_iff_exists.mp h
        exact hx.weak_kept q (Or.inl hq)
    · refine Or.inr ⟨u, fun xs => by rw [root_of_ne huv], ?_⟩
      by_cases huw : u = w
      · subst huw
        refine ⟨fun h => by simp [hx.strong, h], fun h => ?_⟩
        obtain ⟨q, hq⟩ := Option.isSome_iff_exists.mp h
        exact hx.weak_kept q (Or.inr hq)
      · rw [hx.strong_of_ne u huv huw, hx.weak_of_ne u huv huw]
        exact ⟨id, Or.inr⟩

theorem Steps.subset (hsteps : Steps ctx xs a b) : b.unknowns ⊆ a.unknowns :=
  hsteps.keeps (P := fun c => c.unknowns ⊆ a.unknowns)
    (fun hstep hc => List.Subset.trans hstep.subset hc) (List.Subset.refl _)

/-- What stands for a variable with a value has one in the end, if it is left. -/
theorem Steps.held (hsteps : Steps ctx xs a b) (horder : ∀ u ∈ a.unknowns, u.order = 0)
    (hr : (root ctx.knowns xs u).2 = r) (hleft : r ∈ b.unknowns) :
    ((a.strong.lookup u).isSome → (b.strong.lookup r).isSome) ∧
      ((a.weak.lookup u).isSome → (b.strong.lookup r).isSome ∨ (b.weak.lookup r).isSome) := by
  induction hsteps generalizing u with
  | nil a => exact hr ▸ ⟨id, Or.inr⟩
  | cons hstep hrest ih =>
    rcases (hstep.passed horder).held u with ⟨hgone, hroot⟩ | ⟨u', hroot, hstrong, hweak⟩
    · rw [hroot] at hr
      exact absurd (hrest.subset (hr ▸ hleft)) hgone
    · obtain ⟨ihStrong, ihWeak⟩ := ih (u := u') (fun u hu => horder u (hstep.subset hu))
        ((hroot _).trans hr) hleft
      exact ⟨fun h => ihStrong (hstrong h),
        fun h => (hweak h).elim (fun h => Or.inl (ihStrong h)) ihWeak⟩

end Aliases

end Flange

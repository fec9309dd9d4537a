import Mathlib.Algebra.Order.Ring.Rat
import Flange.Proofs.InitialValues
import Flange.Proofs.Reduction.Alias

/-! # The values of an eliminated variable

An elimination takes the initial values from the variable that it eliminates. A constant is compared
with them. In an alias the other variable gets what it has no value of its own for; two strong values
have to be close, of two weak ones either may stay.
-/

namespace Flange

namespace Aliases

variable {ctx : AliasContext} {ks : Constants} {a b : Aliases} {u v w : Var} {sub : Expr}
  {s p q : Rat} {o : Option Rat}

/-- An alias has the same unknowns among those left and among those of its equation. -/
theorem unknownsIn_of_match? {unknowns differentiated : List Var} {e : Expr}
    (horder : ∀ u ∈ unknowns, u.order = 0)
    (h : ctx.match? unknowns differentiated e = some (v, sub)) :
    EquationSystem.unknownsIn (unknowns.filter fun w => w != v) sub =
      EquationSystem.unknownsIn (EquationSystem.unknownsIn unknowns e) sub := by
  obtain ⟨-, hsub⟩ := AliasContext.match?_unknownsIn h
  rw [Expr.within_only] at hsub
  unfold EquationSystem.unknownsIn at hsub ⊢
  congr 1
  apply List.filter_congr
  intro g hg
  obtain ⟨y, hy, rfl⟩ := Expr.mem_functions.mp hg
  obtain ⟨hmem, hne⟩ := hsub y hy
  have hunknown : y ∈ unknowns := (AliasContext.mem_unknownsIn.mp hmem).2
  rw [Var.base_of_order (horder y hunknown), Bool.eq_iff_iff]
  simp only [List.contains_eq_mem, decide_eq_true_eq]
  exact iff_of_true (List.mem_filter.mpr ⟨hunknown, by simpa using hne⟩) hmem

/-- The number that the alias `sub` is times `w`, or 1 if it has no value: then nothing is carried. -/
def factor (ks : Constants) (sub : Expr) (w : Var) : Rat :=
  ((sub.substitute [(.var w, .one)]).value? ks).getD 1

/-- What is left of the initial values when `v` turns out to be the constant `sub`. -/
structure Ended (ks : Constants) (v : Var) (sub : Expr) (a b : Aliases) : Prop where
  strong : b.strong = a.strong.erase v
  weak : b.weak = a.weak.erase v
  close : ∀ q, a.strong.lookup v = some q → ∃ c, sub.value? ks = some c ∧ isClose q c = true

/-- What is left of the initial values when `v` turns out to be `s` times `w`. -/
structure Merged (v w : Var) (s : Rat) (a b : Aliases) : Prop where
  strong_gone : b.strong.lookup v = none
  weak_gone : b.weak.lookup v = none
  strong_of_ne : ∀ u, u ≠ v → u ≠ w → b.strong.lookup u = a.strong.lookup u
  weak_of_ne : ∀ u, u ≠ v → u ≠ w → b.weak.lookup u = a.weak.lookup u
  strong : b.strong.lookup w = (a.strong.lookup w).or ((a.strong.lookup v).map (· / s))
  close : ∀ q r, a.strong.lookup v = some q → a.strong.lookup w = some r → isClose r (q / s) = true
  weak_origin : ∀ p, b.weak.lookup w = some p →
    a.weak.lookup w = some p ∨ ∃ q, a.weak.lookup v = some q ∧ p = q / s
  weak_kept : ∀ p, a.weak.lookup v = some p ∨ a.weak.lookup w = some p →
    (b.strong.lookup w).isSome ∨ (b.weak.lookup w).isSome
  disjoint : (∀ r, a.strong.lookup w = some r → a.weak.lookup w = none) →
    ∀ r, b.strong.lookup w = some r → b.weak.lookup w = none

/-! ### One elimination -/

theorem checkConstant_values {weak : Option Rat} (h : checkConstant ctx a v sub o weak = .ok b) :
    b.strong = a.strong ∧ b.weak = a.weak ∧
      ∀ q, o = some q → ∃ c, sub.value? ctx.knowns = some c ∧ isClose q c = true := by
  unfold checkConstant at h
  split at h
  · cases h
  · next c hc =>
    split at h
    · cases h
    · next hany =>
      have hclose : ∀ q, o = some q → ∃ c, sub.value? ctx.knowns = some c ∧ isClose q c = true := by
        rintro q rfl
        have hagrees : agrees c q = true := by simpa using hany
        obtain ⟨r, hr, hqr⟩ := (Option.any_eq_true ..).mp hagrees
        exact ⟨r, by rw [Expr.value?, hc, Option.bind_some, hr], hqr⟩
      split at h <;> exact Except.ok.inj h ▸ ⟨rfl, rfl, hclose⟩

theorem carry_ended (h : carry ctx a v sub = .ok b)
    (hus : EquationSystem.unknownsIn a.unknowns sub = []) : Ended ctx.knowns v sub a b := by
  unfold carry at h
  dsimp only at h
  split at h
  · next hnone =>
    rw [Bool.and_eq_true, Option.isNone_iff_eq_none] at hnone
    obtain rfl := Except.ok.inj h
    exact ⟨rfl, rfl, by simp [hnone.1]⟩
  · rw [hus] at h
    obtain ⟨hstrong, hweak, hclose⟩ := checkConstant_values h
    exact ⟨hstrong, hweak, hclose⟩

/-- What is left when a strong value of `v`, which is `s` times `w`, has been carried to `w`. -/
structure StrongCarried (w : Var) (s : Rat) (o : Option Rat) (a b : Aliases) : Prop where
  strong_of_ne : ∀ u, u ≠ w → b.strong.lookup u = a.strong.lookup u
  weak_of_ne : ∀ u, u ≠ w → b.weak.lookup u = a.weak.lookup u
  strong : b.strong.lookup w = (a.strong.lookup w).or (o.map (· / s))
  close : ∀ q r, o = some q → a.strong.lookup w = some r → isClose r (q / s) = true
  weak : (o = none ∨ (a.strong.lookup w).isSome) ∧ b.weak.lookup w = a.weak.lookup w ∨
    (b.strong.lookup w).isSome ∧ b.weak.lookup w = none

theorem strongCarried_none (w : Var) (s : Rat) (a : Aliases) : StrongCarried w s none a a :=
  ⟨fun _ _ => rfl, fun _ _ => rfl, by simp, by simp, Or.inl ⟨Or.inl rfl, rfl⟩⟩

theorem carryStrong_carried (h : carryStrong a v w s o = .ok b) : StrongCarried w s o a b := by
  unfold carryStrong at h
  split at h
  · exact Except.ok.inj h ▸ strongCarried_none w s a
  · next q =>
    split at h
    · next r hr =>
      split at h
      · next hclose =>
        obtain rfl := Except.ok.inj h
        refine ⟨fun _ _ => rfl, fun _ _ => rfl, by simp [hr], ?_,
          Or.inl ⟨Or.inr (by simp [hr]), rfl⟩⟩
        intro q' r' hq hr'
        obtain rfl := Option.some.inj hq
        obtain rfl := Option.some.inj (hr.symm.trans hr')
        exact hclose
      · cases h
    · next hr =>
      obtain rfl := Except.ok.inj h
      exact ⟨fun u hu => InitialValues.lookup_set_of_ne hu,
        fun u hu => InitialValues.lookup_erase_of_ne hu, by simp [hr], by simp [hr],
        Or.inr (by simp)⟩

/-- What is left when a weak value of `v`, which is `s` times `w`, has been carried to `w`. -/
structure WeakCarried (w : Var) (s : Rat) (o : Option Rat) (a b : Aliases) : Prop where
  of_ne : ∀ u, u ≠ w → b.weak.lookup u = a.weak.lookup u
  origin : ∀ p, b.weak.lookup w = some p → a.weak.lookup w = some p ∨ ∃ q, o = some q ∧ p = q / s
  kept : a.strong.lookup w = none → o.isSome ∨ (a.weak.lookup w).isSome → (b.weak.lookup w).isSome
  of_strong : (a.strong.lookup w).isSome → b.weak = a.weak

theorem weakCarried_of_eq (hweak : b.weak = a.weak)
    (h : a.strong.lookup w = none → o.isSome → (a.weak.lookup w).isSome) : WeakCarried w s o a b where
  of_ne := by simp [hweak]
  origin := fun p hp => Or.inl (hweak ▸ hp)
  kept := fun hnone hsome => hweak ▸ hsome.elim (h hnone) id
  of_strong := fun _ => hweak

theorem weakCarried_set (hnone : a.strong.lookup w = none) (hweak : b.weak = a.weak.set w (q / s)) :
    WeakCarried w s (some q) a b where
  of_ne := fun u hu => hweak ▸ InitialValues.lookup_set_of_ne hu
  origin := fun p hp => by
    rw [hweak, InitialValues.lookup_set_self] at hp
    exact Or.inr ⟨q, rfl, (Option.some.inj hp).symm⟩
  kept := by simp [hweak]
  of_strong := by simp [hnone]

theorem carryWeak_carried (a : Aliases) (v w : Var) (s : Rat) (o : Option Rat) :
    WeakCarried w s o a (carryWeak a v w s o) := by
  unfold carryWeak
  split
  · exact weakCarried_of_eq rfl (by simp)
  · next q =>
    split
    · next hhas =>
      exact weakCarried_of_eq rfl fun hnone => by
        rw [InitialValues.has, hnone] at hhas
        cases hhas
    · next hhas =>
      have hnone : a.strong.lookup w = none := by
        rwa [InitialValues.has, Option.not_isSome_iff_eq_none] at hhas
      split
      · next r hr =>
        split
        · exact weakCarried_set hnone rfl
        · exact weakCarried_of_eq rfl fun _ _ => by simp [hr]
      · exact weakCarried_set hnone rfl

theorem carryWeak_strong (a : Aliases) (v w : Var) (q : Rat) (o : Option Rat) :
    (carryWeak a v w q o).strong = a.strong := by
  unfold carryWeak
  split
  · rfl
  · split
    · rfl
    · split
      · dsimp only
        split <;> rfl
      · rfl

/-- Both kinds of values are carried one after the other. -/
theorem merged_of_carried {c : Aliases} (hne : w ≠ v)
    (hs : StrongCarried w s (a.strong.lookup v)
      { a with strong := a.strong.erase v, weak := a.weak.erase v } c)
    (hw : WeakCarried w s (a.weak.lookup v) c b) (hstrong : b.strong = c.strong) :
    Merged v w s a b where
  strong_gone := by rw [hstrong, hs.strong_of_ne v hne.symm, InitialValues.lookup_erase_self]
  weak_gone := by rw [hw.of_ne v hne.symm, hs.weak_of_ne v hne.symm, InitialValues.lookup_erase_self]
  strong_of_ne := fun u hv hw => by
    rw [hstrong, hs.strong_of_ne u hw, InitialValues.lookup_erase_of_ne hv]
  weak_of_ne := fun u hv hne => by
    rw [hw.of_ne u hne, hs.weak_of_ne u hne, InitialValues.lookup_erase_of_ne hv]
  strong := by rw [hstrong, hs.strong, InitialValues.lookup_erase_of_ne hne]
  close := fun q r hq hr => hs.close q r hq (by rw [InitialValues.lookup_erase_of_ne hne, hr])
  weak_origin := fun p hp => by
    refine (hw.origin p hp).imp_left fun hc => ?_
    rcases hs.weak with ⟨-, heq⟩ | ⟨-, hnone⟩
    · rwa [heq, InitialValues.lookup_erase_of_ne hne] at hc
    · simp [hnone] at hc
  weak_kept := fun p hp => by
    rw [hstrong]
    cases hc : c.strong.lookup w with
    | some r => exact Or.inl rfl
    | none =>
      refine Or.inr (hw.kept hc (hp.imp (by simp +contextual) fun hp => ?_))
      rcases hs.weak with ⟨-, heq⟩ | ⟨hsome, -⟩
      · rw [heq, InitialValues.lookup_erase_of_ne hne, hp]
        rfl
      · simp [hc] at hsome
  disjoint := fun hdisjoint r hr => by
    rw [hstrong] at hr
    rw [hw.of_strong (by simp [hr])]
    rcases hs.weak with ⟨hstays, heq⟩ | ⟨-, hnone⟩
    · have hw := hs.strong
      simp only [InitialValues.lookup_erase_of_ne hne] at hstays hw heq
      rw [heq]
      -- nothing strong was carried, so the strong value was there before
      rcases hstays with hv | hsome
      · refine hdisjoint r ?_
        rw [← hr, hw, hv, Option.map_none, Option.or_none]
      · obtain ⟨r', hr'⟩ := Option.isSome_iff_exists.mp hsome
        exact hdisjoint r' hr'
    · exact hnone

theorem carry_merged {ws : List Var} (hne : w ≠ v) (h : carry ctx a v sub = .ok b)
    (hus : EquationSystem.unknownsIn a.unknowns sub = w :: ws) :
    Merged v w (factor ctx.knowns sub w) a b := by
  unfold carry at h
  dsimp only at h
  split at h
  · next hnone =>
    rw [Bool.and_eq_true, Option.isNone_iff_eq_none, Option.isNone_iff_eq_none] at hnone
    obtain rfl := Except.ok.inj h
    refine merged_of_carried hne (hnone.1 ▸ strongCarried_none ..) (hnone.2 ▸ ?_) rfl
    exact weakCarried_of_eq rfl (by simp)
  · rw [hus] at h
    dsimp only at h
    split at h
    · cases h
    · next s hs =>
      obtain ⟨c, hc, rfl⟩ := exists_of_map_ok h
      rw [factor, hs, Option.getD_some]
      exact merged_of_carried hne (carryStrong_carried hc) (carryWeak_carried ..)
        (carryWeak_strong ..)

/-- No variable gets a second strong value. -/
theorem carry_nodup (h : carry ctx a v sub = .ok b) (ha : (a.strong.map Prod.fst).Nodup) :
    (b.strong.map Prod.fst).Nodup := by
  have herase := InitialValues.nodup_erase (v := v) ha
  unfold carry at h
  dsimp only at h
  split at h
  · exact Except.ok.inj h ▸ herase
  · split at h
    · rw [(checkConstant_values h).1]
      exact herase
    · split at h
      · cases h
      · obtain ⟨c, hc, rfl⟩ := exists_of_map_ok h
        rw [carryWeak_strong]
        unfold carryStrong at hc
        split at hc
        · exact Except.ok.inj hc ▸ herase
        · split at hc
          · split at hc
            · exact Except.ok.inj hc ▸ herase
            · cases hc
          · next hnone => exact Except.ok.inj hc ▸ InitialValues.nodup_set herase hnone

/-! ### One step -/

/-- What a step makes of the initial values. -/
inductive Passed (ks : Constants) (a b : Aliases) : Event → Prop
  | dropped (e : Expr) : b.strong = a.strong → b.weak = a.weak → b.unknowns = a.unknowns →
      Passed ks a b (.dropped e)
  | ended (e : Expr) (vs : List Var) (v : Var) (sub : Expr) :
      EquationSystem.unknownsIn vs sub = [] → v ∈ a.unknowns →
      (∀ u, u ∈ b.unknowns ↔ u ∈ a.unknowns ∧ u ≠ v) → Ended ks v sub a b →
      Passed ks a b (.solved e vs v sub)
  | merged (e : Expr) (vs : List Var) (v : Var) (sub : Expr) (w : Var) (ws : List Var) :
      EquationSystem.unknownsIn vs sub = w :: ws → v ∈ a.unknowns → w ∈ b.unknowns →
      (∀ u, u ∈ b.unknowns ↔ u ∈ a.unknowns ∧ u ≠ v) → Merged v w (factor ks sub w) a b →
      Passed ks a b (.solved e vs v sub)

theorem Step.passed {x : Event} (hstep : Step ctx a x b) (horder : ∀ u ∈ a.unknowns, u.order = 0) :
    Passed ctx.knowns a b x := by
  cases hstep with
  | drop i e he hact => exact .dropped e rfl rfl rfl
  | eliminate i e v sub b he hmatch hb =>
    have hv := (AliasContext.match?_over horder hmatch).1
    have hunknowns := (eliminate_ok hb).2.1
    have hmem : ∀ u, u ∈ b.unknowns ↔ u ∈ a.unknowns ∧ u ≠ v := by simp [hunknowns]
    have hus := unknownsIn_of_match? horder hmatch
    cases hcase : EquationSystem.unknownsIn (EquationSystem.unknownsIn a.unknowns e) sub with
    | nil => exact .ended e _ v sub hcase hv hmem { carry_ended hb (hus.trans hcase) with }
    | cons w ws =>
      have hw : w ∈ b.unknowns := by
        have hw : w ∈ EquationSystem.unknownsIn (a.unknowns.filter fun u => u != v) sub :=
          hus ▸ hcase ▸ List.mem_cons_self
        exact hunknowns ▸ (AliasContext.mem_unknownsIn.mp hw).2
      have hne : w ≠ v := ((hmem w).mp hw).2
      exact .merged e _ v sub w ws hcase hv hw hmem { carry_merged hne hb (hus.trans hcase) with }

theorem Step.nodup_strong {x : Event} (hstep : Step ctx a x b) (h : (a.strong.map Prod.fst).Nodup) :
    (b.strong.map Prod.fst).Nodup := by
  cases hstep with
  | drop i e he hact => exact h
  | eliminate i e v sub b he hmatch hb => exact carry_nodup hb h

/-- Only unknowns that are left have initial values, and none has a strong and a weak one. -/
structure Valued (a : Aliases) : Prop where
  strong : ∀ v q, a.strong.lookup v = some q → v ∈ a.unknowns
  weak : ∀ v q, a.weak.lookup v = some q → v ∈ a.unknowns
  disjoint : ∀ v q, a.strong.lookup v = some q → a.weak.lookup v = none

theorem Passed.valued {x : Event} (hx : Passed ks a b x) (h : a.Valued) : b.Valued := by
  cases hx with
  | dropped e hstrong hweak hunknowns =>
    exact ⟨fun v q hq => hunknowns ▸ h.strong v q (hstrong ▸ hq),
      fun v q hq => hunknowns ▸ h.weak v q (hweak ▸ hq),
      fun v q hq => hweak ▸ h.disjoint v q (hstrong ▸ hq)⟩
  | ended e vs v sub hus hv hmem hx =>
    have hstays : ∀ {ics : InitialValues} {u q}, (ics.erase v).lookup u = some q →
        u ≠ v ∧ ics.lookup u = some q := by
      intro ics u q hq
      have hne : u ≠ v := by
        rintro rfl
        simp at hq
      exact ⟨hne, InitialValues.lookup_erase_of_ne hne ▸ hq⟩
    refine ⟨fun u q hq => ?_, fun u q hq => ?_, fun u q hq => ?_⟩
    · obtain ⟨hne, hq⟩ := hstays (hx.strong ▸ hq)
      exact (hmem u).mpr ⟨h.strong u q hq, hne⟩
    · obtain ⟨hne, hq⟩ := hstays (hx.weak ▸ hq)
      exact (hmem u).mpr ⟨h.weak u q hq, hne⟩
    · obtain ⟨hne, hq⟩ := hstays (hx.strong ▸ hq)
      rw [hx.weak, InitialValues.lookup_erase_of_ne hne]
      exact h.disjoint u q hq
  | merged e vs v sub w ws hus hv hw hmem hx =>
    have hother : ∀ {u}, u ≠ w → b.strong.lookup u ≠ none ∨ b.weak.lookup u ≠ none → u ≠ v := by
      rintro u - hu rfl
      simp [hx.strong_gone, hx.weak_gone] at hu
    refine ⟨fun u q hq => ?_, fun u q hq => ?_, fun u q hq => ?_⟩
    · by_cases huw : u = w
      · exact huw ▸ hw
      · have hne := hother huw (Or.inl (by simp [hq]))
        exact (hmem u).mpr ⟨h.strong u q (hx.strong_of_ne u hne huw ▸ hq), hne⟩
    · by_cases huw : u = w
      · exact huw ▸ hw
      · have hne := hother huw (Or.inr (by simp [hq]))
        exact (hmem u).mpr ⟨h.weak u q (hx.weak_of_ne u hne huw ▸ hq), hne⟩
    · by_cases huw : u = w
      · exact huw ▸ hx.disjoint (h.disjoint w) q (huw ▸ hq)
      · have hne := hother huw (Or.inl (by simp [hq]))
        rw [hx.weak_of_ne u hne huw]
        exact h.disjoint u q (hx.strong_of_ne u hne huw ▸ hq)

end Aliases

end Flange

import Flange.Proofs.Reduction.Classes

/-! # Fixed values of aliases

The fixed value of a variable that is eliminated goes to the variable that stands for its class. A
variable that is left at the end has either kept its own value or the value of one of its class.
-/

namespace Flange

namespace Aliases

variable {ctx : AliasContext} {ks : Constants} {a b : Aliases} {xs : List Event} {u v w : Var}
  {sub : Expr} {f q : Rat}

/-- The variable that is left of the class of `v` after the given steps, with the number that `v` is
times this variable; `none` where the class has become a constant. -/
def represent (ks : Constants) (xs : List Event) (v : Var) : Option (Rat × Var) :=
  if (constant? xs (root ks xs v).2).isSome then none else some (root ks xs v)

theorem represent_eq_some : represent ks xs v = some (f, w) ↔
    root ks xs v = (f, w) ∧ constant? xs w = none := by
  rw [represent, Option.ite_none_left_eq_some, Option.some.injEq, Option.not_isSome_iff_eq_none,
    and_comm]
  exact and_congr_right fun heq => by rw [heq]

/-- A variable that has become a constant is not left. -/
theorem Steps.not_left (hsteps : Steps ctx xs a b) (horder : ∀ u ∈ a.unknowns, u.order = 0)
    (hv : constant? xs v = some sub) : v ∉ b.unknowns := by
  induction hsteps with
  | nil => cases hv
  | cons hstep hrest ih =>
    have ih := ih fun u hu => horder u (hstep.subset hu)
    cases hstep.passed horder with
    | dropped e hstrong hweak hunknowns => exact ih hv
    | ended e vs u sub hus hu hmem hx =>
      by_cases hvu : v = u
      · subst hvu
        exact fun hleft => ((hmem v).mp (hrest.subset hleft)).2 rfl
      · exact ih (constant?_of_ne hvu ▸ hv)
    | merged e vs u sub w ws hus hu hw hmem hx => exact ih (constant?_of_merged hus hv)

/-- A variable that is left stands for itself. -/
theorem Steps.root_left (hsteps : Steps ctx xs a b) (horder : ∀ u ∈ a.unknowns, u.order = 0)
    (hv : v ∈ b.unknowns) : root ks xs v = (1, v) := by
  induction hsteps with
  | nil => rfl
  | cons hstep hrest ih =>
    have ih := ih (fun u hu => horder u (hstep.subset hu)) hv
    cases hstep.passed horder with
    | dropped e hstrong hweak hunknowns => exact ih
    | ended e vs u sub hus hu hmem hx =>
      rw [root_of_ne ((hmem v).mp (hrest.subset hv)).2, ih]
    | merged e vs u sub w ws hus hu hw hmem hx =>
      rw [root_of_ne ((hmem v).mp (hrest.subset hv)).2, ih]

theorem Steps.nodup_strong (hsteps : Steps ctx xs a b) (h : (a.strong.map Prod.fst).Nodup) :
    (b.strong.map Prod.fst).Nodup :=
  hsteps.keeps (P := fun c => (c.strong.map Prod.fst).Nodup) (fun hstep hc => hstep.nodup_strong hc) h

/-- A system has such values when they belong to different unknowns. -/
theorem valued_ofSystem {s : EquationSystem} (hnodup : ((s.strong ++ s.weak).map Prod.fst).Nodup)
    (hunknown : ∀ p ∈ s.strong ++ s.weak, p.1 ∈ s.unknowns) : (ofSystem s).Valued where
  strong v q hq := hunknown _ (List.mem_append_left _ (mem_of_lookup hq))
  weak v q hq := hunknown _ (List.mem_append_right _ (mem_of_lookup hq))
  disjoint v q hq := by
    rw [List.map_append, List.nodup_append] at hnodup
    refine lookup_eq_none fun p hp heq => ?_
    exact hnodup.2.2 _ (List.mem_map_of_mem (mem_of_lookup hq)) _ (List.mem_map_of_mem hp) heq.symm

section Steps

variable (h : Steps ctx xs a b) (horder : ∀ u ∈ a.unknowns, u.order = 0)

include h horder

/-- What represents an unknown is left; an unknown that is left represents itself. -/
theorem Steps.represent_left (hv : v ∈ a.unknowns) (hrep : represent ctx.knowns xs v = some (f, w)) :
    w ∈ b.unknowns ∧ (v ∈ b.unknowns → f = 1 ∧ w = v) := by
  obtain ⟨hroot, hnone⟩ := represent_eq_some.mp hrep
  constructor
  · obtain ⟨-, hcases⟩ := h.root_cases horder hv
    rw [hroot] at hcases
    exact hcases.resolve_right (by simp [hnone])
  · intro hleft
    obtain ⟨rfl, rfl⟩ := Prod.mk.inj (hroot.symm.trans (h.root_left horder hleft))
    exact ⟨rfl, rfl⟩

/-- Of a class in which only `v` has a fixed value the variable that is left has this value, divided
by the factor of `v`. -/
theorem Steps.lookup_strong (hv : v ∈ a.unknowns)
    (hrep : represent ctx.knowns xs v = some (f, w))
    (honly : ∀ u g, a.strong.has u = true → represent ctx.knowns xs u = some (g, w) → u = v)
    (hq : a.strong.lookup v = some q) : b.strong.lookup w = some (q / f) := by
  obtain ⟨hroot, hnone⟩ := represent_eq_some.mp hrep
  obtain ⟨hleft, -⟩ := h.represent_left horder hv hrep
  obtain ⟨hheld, -⟩ := h.held horder (congrArg Prod.snd hroot) hleft
  obtain ⟨p, hp⟩ := Option.isSome_iff_exists.mp (hheld (by simp [hq]))
  obtain ⟨u, q', hq', rfl, rfl⟩ := (h.gives horder).1 w p hp
  obtain rfl := honly u (root ctx.knowns xs u).1 (by simp [InitialValues.has, hq'])
    (represent_eq_some.mpr ⟨rfl, hnone⟩)
  obtain rfl := Option.some.inj (hq.symm.trans hq')
  rw [hp, hroot]

/-- A fixed value that is left is that of a variable of the same class, divided by its factor. -/
theorem Steps.origin_strong (hvalued : a.Valued) (hu : b.strong.lookup u = some q) :
    ∃ u₀ q₀ f, a.strong.lookup u₀ = some q₀ ∧ represent ctx.knowns xs u₀ = some (f, u) ∧
      q = q₀ / f := by
  obtain ⟨u₀, q₀, hq₀, rfl, rfl⟩ := (h.gives horder).1 u q hu
  refine ⟨u₀, q₀, _, hq₀, represent_eq_some.mpr ⟨rfl, ?_⟩, rfl⟩
  by_contra hsome
  obtain ⟨sub, hsub⟩ := Option.ne_none_iff_exists'.mp hsome
  exact h.not_left horder hsub ((h.valued horder hvalued).strong _ _ hu)

end Steps

end Aliases

end Flange

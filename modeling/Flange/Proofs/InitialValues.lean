import Flange.Proofs.Lists
import Flange.System

/-! # Initial values

Values are looked up, set and erased by variable.
-/

namespace Flange

namespace InitialValues

variable {ics : InitialValues} {v w : Var} {p q : Rat}

@[simp] theorem lookup_set_self : (ics.set v q).lookup v = some q := by
  induction ics with
  | nil => simp [set]
  | cons r ics ih =>
    obtain ⟨u, r⟩ := r
    rw [set]
    split
    · simp
    · next hne => simpa [List.lookup_cons, beq_false_of_ne (Ne.symm hne)] using ih

theorem lookup_set_of_ne (h : w ≠ v) : (ics.set v q).lookup w = ics.lookup w := by
  induction ics with
  | nil => simp [set, List.lookup_cons, beq_false_of_ne h]
  | cons r ics ih =>
    obtain ⟨u, r⟩ := r
    rw [set]
    split
    · next heq =>
      subst heq
      simp [List.lookup_cons, beq_false_of_ne h]
    · simp [List.lookup_cons, ih]

/-- A variable without a value gets it at the end. -/
theorem set_of_lookup_eq_none (h : ics.lookup v = none) : ics.set v q = ics ++ [(v, q)] := by
  induction ics with
  | nil => rfl
  | cons r ics ih =>
    obtain ⟨u, r⟩ := r
    rw [List.lookup_cons] at h
    split at h
    · cases h
    · next hne => rw [set, if_neg (Ne.symm (ne_of_beq_false (Bool.not_eq_true _ ▸ hne))), ih h,
        List.cons_append]

@[simp] theorem lookup_erase_self : (ics.erase v).lookup v = none := by
  apply lookup_eq_none
  intro r hr
  simpa using (List.mem_filter.mp hr).2

theorem lookup_erase_of_ne (h : w ≠ v) : (ics.erase v).lookup w = ics.lookup w := by
  induction ics with
  | nil => rfl
  | cons r ics ih =>
    obtain ⟨u, r⟩ := r
    rw [erase] at ih
    by_cases hu : u = v
    · subst hu
      simp [erase, List.lookup_cons, beq_false_of_ne h, ih]
    · simp [erase, hu, List.lookup_cons, ih]

theorem nodup_erase (h : (ics.map Prod.fst).Nodup) : ((ics.erase v).map Prod.fst).Nodup :=
  h.sublist (List.filter_sublist.map Prod.fst)

theorem nodup_set (h : (ics.map Prod.fst).Nodup) (hv : ics.lookup v = none) :
    ((ics.set v q).map Prod.fst).Nodup := by
  rw [set_of_lookup_eq_none hv, List.map_append, List.nodup_append]
  refine ⟨h, List.nodup_singleton v, ?_⟩
  rintro u hu w hw rfl
  obtain ⟨r, hr, rfl⟩ := List.mem_map.mp hu
  obtain ⟨s, hs⟩ := exists_lookup (show (r.1, r.2) ∈ ics from hr)
  rw [List.mem_singleton.mp hw, hv] at hs
  cases hs

end InitialValues

end Flange

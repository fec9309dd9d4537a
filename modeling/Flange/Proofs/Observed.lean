import Flange.Proofs.Lists
import Flange.System

/-! # Observed variables -/

namespace Flange

namespace Observed

variable {o : Observed} {v w : Var} {e : Expr} {q : Var × Expr}

theorem of_mem_set (h : q ∈ o.set v e) : q = (v, e) ∨ q ∈ o := by
  unfold set at h
  split at h
  · obtain ⟨r, hr, hq⟩ := List.mem_map.mp h
    split at hq
    · exact Or.inl hq.symm
    · exact Or.inr (hq ▸ hr)
  · simpa [or_comm] using h

theorem mem_set_self (o : Observed) (v : Var) (e : Expr) : (v, e) ∈ o.set v e := by
  unfold set
  split
  · next h =>
    obtain ⟨r, hr, hp⟩ := List.lookup_isSome_iff.mp h
    refine List.mem_map.mpr ⟨r, hr, ?_⟩
    rw [if_pos (beq_iff_eq.mp hp).symm]
  · simp

theorem mem_set_of_ne (h : q ∈ o) (hne : q.1 ≠ v) : q ∈ o.set v e := by
  unfold set
  split
  · exact List.mem_map.mpr ⟨q, h, if_neg hne⟩
  · exact List.mem_append_left _ h

@[simp] theorem lookup_set_self (o : Observed) (v : Var) (e : Expr) :
    (o.set v e).lookup v = some e := by
  unfold set
  split
  · next h =>
    induction o with
    | nil => cases h
    | cons q o ih =>
      obtain ⟨w, f⟩ := q
      by_cases hw : w = v
      · simp [hw]
      · have hne : (v == w) = false := beq_false_of_ne (Ne.symm hw)
        simp only [List.lookup_cons, hne] at h
        simpa only [List.map_cons, if_neg hw, List.lookup_cons, hne] using ih h
  · next h => rw [lookup_append, Option.not_isSome_iff_eq_none.mp h]; simp

theorem lookup_set_of_ne (h : w ≠ v) : (o.set v e).lookup w = o.lookup w := by
  unfold set
  split
  · clear * - h
    induction o with
    | nil => rfl
    | cons q o ih =>
      obtain ⟨u, f⟩ := q
      by_cases hu : u = v
      · simp [hu, List.lookup_cons, beq_false_of_ne h, ih]
      · simp [hu, List.lookup_cons, ih]
  · simp [lookup_append, List.lookup_cons, beq_false_of_ne h]

theorem keys_set (o : Observed) (v : Var) (e : Expr) : (o.set v e).map Prod.fst =
    if (o.lookup v).isSome then o.map Prod.fst else o.map Prod.fst ++ [v] := by
  unfold set
  split
  · rw [List.map_map]
    refine List.map_congr_left fun q _ => ?_
    simp only [Function.comp_apply]
    split <;> simp_all
  · simp

theorem mem_keys_set : w ∈ (o.set v e).map Prod.fst ↔ w = v ∨ w ∈ o.map Prod.fst := by
  rw [keys_set]
  split
  · next h =>
    obtain ⟨r, hr, hp⟩ := List.lookup_isSome_iff.mp h
    refine ⟨Or.inr, ?_⟩
    rintro (rfl | h)
    · exact (beq_iff_eq.mp hp).symm ▸ List.mem_map_of_mem hr
    · exact h
  · simp [or_comm]

/-- No variable is there twice. -/
theorem nodup_keys_set (h : (o.map Prod.fst).Nodup) : ((o.set v e).map Prod.fst).Nodup := by
  rw [keys_set]
  split
  · exact h
  · next hnone =>
    refine List.nodup_append.mpr ⟨h, List.nodup_singleton v, fun w hw u hu => ?_⟩
    rintro rfl
    obtain ⟨q, hq, rfl⟩ := List.mem_map.mp hw
    obtain ⟨f, hf⟩ := exists_lookup hq
    rw [List.mem_singleton.mp hu] at hf
    exact hnone (by simp [hf])

theorem nodup_keys_foldl_set : ∀ {ps : List (Var × Expr)} {o : Observed},
    (o.map Prod.fst).Nodup → ((ps.foldl (fun o q => set o q.1 q.2) o).map Prod.fst).Nodup
  | [], _, h => h
  | _ :: ps, _, h => @nodup_keys_foldl_set ps _ (nodup_keys_set h)

theorem of_mem_foldl_set : ∀ {ps : List (Var × Expr)} {o : Observed},
    q ∈ ps.foldl (fun o q => set o q.1 q.2) o → q ∈ ps ∨ q ∈ o
  | [], _, h => Or.inr h
  | p :: ps, o, h => by
    rw [List.foldl_cons] at h
    rcases of_mem_foldl_set h with h | h
    · exact Or.inl (List.mem_cons_of_mem _ h)
    · rcases of_mem_set h with rfl | h
      · exact Or.inl List.mem_cons_self
      · exact Or.inr h

/-- What is there stays when other variables are set. -/
theorem mem_foldl_set_of_not_mem : ∀ {ps : List (Var × Expr)} {o : Observed}, q ∈ o →
    q.1 ∉ ps.map Prod.fst → q ∈ ps.foldl (fun o q => set o q.1 q.2) o
  | [], _, h, _ => h
  | p :: ps, o, h, hq => by
    rw [List.map_cons, List.mem_cons, not_or] at hq
    rw [List.foldl_cons]
    exact mem_foldl_set_of_not_mem (mem_set_of_ne h hq.1) hq.2

/-- Of different variables that are set each has what it was set to. -/
theorem mem_foldl_set : ∀ {ps : List (Var × Expr)} {o : Observed}, (ps.map Prod.fst).Nodup →
    q ∈ ps → q ∈ ps.foldl (fun o q => set o q.1 q.2) o
  | p :: ps, o, hnodup, hq => by
    rw [List.map_cons, List.nodup_cons] at hnodup
    rw [List.foldl_cons]
    rcases List.mem_cons.mp hq with rfl | hq
    · exact mem_foldl_set_of_not_mem (mem_set_self o q.1 q.2) hnodup.1
    · exact mem_foldl_set hnodup.2 hq

theorem mem_keys_foldl_set : ∀ {ps : List (Var × Expr)} {o : Observed},
    v ∈ (ps.foldl (fun o q => set o q.1 q.2) o).map Prod.fst ↔
      v ∈ ps.map Prod.fst ∨ v ∈ o.map Prod.fst
  | [], o => by simp
  | p :: ps, o => by
    rw [List.foldl_cons, mem_keys_foldl_set, mem_keys_set, List.map_cons, List.mem_cons]
    tauto

end Observed

end Flange

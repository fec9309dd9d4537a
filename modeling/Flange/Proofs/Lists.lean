import Mathlib.Data.Finset.Card
import Mathlib.Data.List.Forall2
import Mathlib.Data.List.Nodup
import Flange.Order

/-! # Lists and failures -/

namespace Flange

variable {α : Type}

theorem nodup_eraseDups [BEq α] [LawfulBEq α] : ∀ xs : List α, xs.eraseDups.Nodup
  | [] => by simp
  | x :: xs => by
    rw [List.eraseDups_cons, List.nodup_cons]
    exact ⟨by simp, nodup_eraseDups _⟩
  termination_by xs => xs.length
  decreasing_by exact Nat.lt_succ_of_le (List.length_filter_le _ _)

theorem foldl_keeps {β : Type} {R : β → Prop} {S : α → Prop} {op : β → α → β}
    (hop : ∀ {b x}, R b → S x → R (op b x)) {xs : List α} {b : β} (hb : R b)
    (h : ∀ x ∈ xs, S x) : R (xs.foldl op b) := by
  induction xs generalizing b with
  | nil => exact hb
  | cons x xs ih =>
    exact ih (hop hb (h x (by simp))) fun y hy => h y (List.mem_cons_of_mem _ hy)

theorem insertBy_perm (le : α → α → Bool) (x : α) : ∀ xs, (insertBy le x xs).Perm (x :: xs)
  | [] => .refl _
  | y :: ys => by
    rw [insertBy]
    split
    · exact .refl _
    · exact ((insertBy_perm le x ys).cons y).trans (.swap x y ys)

theorem sortedBy_perm (le : α → α → Bool) : ∀ xs, (sortedBy le xs).Perm xs
  | [] => .refl _
  | x :: xs => (insertBy_perm le x _).trans ((sortedBy_perm le xs).cons x)

@[simp] theorem mem_sortedBy {le : α → α → Bool} {x : α} {xs : List α} :
    x ∈ sortedBy le xs ↔ x ∈ xs := (sortedBy_perm le xs).mem_iff

theorem insertBy_pairwise {r : α → α → Bool} (htotal : ∀ x y, r x y ∨ r y x)
    (htrans : ∀ {x y z}, r x y → r y z → r x z) (x : α) : ∀ {xs : List α},
      xs.Pairwise (r · ·) → (insertBy r x xs).Pairwise (r · ·)
  | [], _ => by simp [insertBy]
  | y :: ys, h => by
    obtain ⟨hy, hys⟩ := List.pairwise_cons.mp h
    rw [insertBy]
    split
    · next hxy =>
      exact List.pairwise_cons.mpr ⟨List.forall_mem_cons.mpr ⟨hxy, fun z hz => htrans hxy (hy z hz)⟩, h⟩
    · next hxy =>
      refine List.pairwise_cons.mpr ⟨fun z hz => ?_, insertBy_pairwise htotal htrans x hys⟩
      rcases List.mem_cons.mp ((insertBy_perm r x ys).mem_iff.mp hz) with rfl | hz
      · exact (htotal z y).resolve_left hxy
      · exact hy z hz

theorem sortedBy_pairwise {r : α → α → Bool} (htotal : ∀ x y, r x y ∨ r y x)
    (htrans : ∀ {x y z}, r x y → r y z → r x z) : ∀ xs : List α,
      (sortedBy r xs).Pairwise (r · ·)
  | [] => .nil
  | x :: xs => insertBy_pairwise htotal htrans x (sortedBy_pairwise htotal htrans xs)

theorem insertBy_of_le {r : α → α → Bool} {x : α} :
    ∀ {xs : List α}, (∀ y ∈ xs, r x y) → insertBy r x xs = x :: xs
  | [], _ => rfl
  | y :: _, h => if_pos (h y List.mem_cons_self)

/-- A list that is sorted stays as it is. -/
theorem sortedBy_of_pairwise {r : α → α → Bool} :
    ∀ {xs : List α}, xs.Pairwise (r · ·) → sortedBy r xs = xs
  | [], _ => rfl
  | _ :: xs, h => by
    obtain ⟨hx, hxs⟩ := List.pairwise_cons.mp h
    rw [sortedBy, sortedBy_of_pairwise hxs, insertBy_of_le hx]

theorem mem_of_lookup {β : Type} [BEq α] [LawfulBEq α] {xs : List (α × β)} {a : α} {b : β}
    (h : xs.lookup a = some b) : (a, b) ∈ xs := by
  obtain ⟨l₁, l₂, rfl, -⟩ := List.lookup_eq_some_iff.mp h
  simp

theorem exists_lookup {β : Type} [BEq α] [LawfulBEq α] {xs : List (α × β)} {a : α} {b : β}
    (h : (a, b) ∈ xs) : ∃ c, xs.lookup a = some c :=
  Option.isSome_iff_exists.mp (List.lookup_isSome_iff.mpr ⟨(a, b), h, by simp⟩)

theorem lookup_of_mem {β : Type} [BEq α] [LawfulBEq α] {xs : List (α × β)}
    (hnodup : (xs.map Prod.fst).Nodup) {p : α × β} (hp : p ∈ xs) : xs.lookup p.1 = some p.2 := by
  obtain ⟨b, hb⟩ := exists_lookup (show (p.1, p.2) ∈ xs from hp)
  rw [hb, ← congrArg Prod.snd (List.inj_on_of_nodup_map hnodup (mem_of_lookup hb) hp rfl)]

theorem lookup_eq_none {β : Type} [BEq α] [LawfulBEq α] {xs : List (α × β)} {a : α}
    (h : ∀ p ∈ xs, p.1 ≠ a) : xs.lookup a = none :=
  List.lookup_eq_none_iff.mpr fun p hp => by simpa using (h p hp).symm

theorem lookup_append {β : Type} [BEq α] {xs ys : List (α × β)} {a : α} :
    (xs ++ ys).lookup a = (xs.lookup a).or (ys.lookup a) := by
  induction xs with
  | nil => rfl
  | cons p xs ih =>
    obtain ⟨b, y⟩ := p
    rw [List.cons_append, List.lookup_cons, List.lookup_cons, ih]
    split <;> rfl

/-- Of pairs whose keys and values are mapped, the keys so that different ones stay different. -/
theorem lookup_map {β γ δ : Type} [BEq α] [LawfulBEq α] [BEq γ] [LawfulBEq γ] {f : α → γ}
    (hf : ∀ {a b}, f a = f b → a = b) (g : β → δ) (xs : List (α × β)) (a : α) :
    (xs.map fun p => (f p.1, g p.2)).lookup (f a) = (xs.lookup a).map g := by
  induction xs with
  | nil => rfl
  | cons p xs ih =>
    obtain ⟨b, y⟩ := p
    rw [List.map_cons, List.lookup_cons, List.lookup_cons, ih]
    by_cases h : a = b
    · simp [h]
    · have hne : f a ≠ f b := fun heq => h (hf heq)
      simp [beq_false_of_ne h, beq_false_of_ne hne]

theorem exists_of_map_ok {β ε : Type} {f : α → β} {x : Except ε α} {b : β}
    (h : x.map f = .ok b) : ∃ a, x = .ok a ∧ f a = b := by
  cases x with
  | error e => simp [Except.map] at h
  | ok a => exact ⟨a, rfl, Except.ok.inj h⟩

theorem error_of_map {β ε : Type} {f : α → β} {x : Except ε α} {e : ε}
    (h : x.map f = .error e) : x = .error e := by
  cases x with
  | error e' => exact congrArg Except.error (Except.error.inj h)
  | ok a => simp [Except.map] at h

theorem exists_of_mapM_error {β ε : Type} {f : α → Except ε β} {e : ε} : ∀ {xs : List α},
    xs.mapM f = .error e → ∃ x ∈ xs, f x = .error e
  | [], h => by simp [pure, Except.pure] at h
  | x :: xs, h => by
    rw [List.mapM_cons] at h
    rcases hx : f x with e' | y
    · obtain rfl : e' = e := by simpa [hx, bind, Except.bind] using h
      exact ⟨x, List.mem_cons_self, hx⟩
    · rcases hxs : xs.mapM f with e' | zs
      · obtain rfl : e' = e := by simpa [hx, hxs, bind, Except.bind] using h
        obtain ⟨z, hz, hfz⟩ := exists_of_mapM_error hxs
        exact ⟨z, List.mem_cons_of_mem _ hz, hfz⟩
      · simp [hx, hxs, bind, Except.bind, pure, Except.pure] at h

theorem mapM_ok {β ε : Type} {f : α → Except ε β} : ∀ {xs : List α} {ys : List β},
    xs.mapM f = .ok ys → List.Forall₂ (fun x y => f x = .ok y) xs ys
  | [], ys, h => by
    obtain rfl : [] = ys := by simpa [pure, Except.pure] using h
    exact .nil
  | x :: xs, ys, h => by
    rw [List.mapM_cons] at h
    rcases hx : f x with e | y
    · simp [hx, bind, Except.bind] at h
    · rcases hxs : xs.mapM f with e | zs
      · simp [hx, hxs, bind, Except.bind] at h
      · obtain rfl : y :: zs = ys := by
          simpa [hx, hxs, bind, Except.bind, pure, Except.pure] using h
        exact .cons hx (mapM_ok hxs)

/-! ### Parallel lists -/

/-- The elements of a list, taken by their positions. -/
theorem filterMap_range_getElem? {β : Type} (f : α → Option β) (xs : List α) :
    ((List.range xs.length).filterMap fun i => (xs[i]?).bind f) = xs.filterMap f := by
  induction xs using List.reverseRecOn with
  | nil => rfl
  | append_singleton xs x ih =>
    have hsame : ∀ i ∈ List.range xs.length, ((xs ++ [x])[i]?).bind f = (xs[i]?).bind f :=
      fun i hi => by rw [List.getElem?_append_left (List.mem_range.mp hi)]
    rw [List.length_append, List.length_singleton, List.range_succ, List.filterMap_append,
      List.filterMap_congr hsame, ih, List.filterMap_append]
    simp [List.filterMap_cons]

section Forall₂

variable {β : Type} {R S : α → β → Prop} {xs : List α} {ys : List β}

theorem exists_of_forall₂ (h : List.Forall₂ R xs ys) : ∀ x ∈ xs, ∃ y ∈ ys, R x y := by
  induction h with
  | nil => simp
  | cons hxy _ ih =>
    refine List.forall_mem_cons.mpr ⟨⟨_, List.mem_cons_self, hxy⟩, fun x hx => ?_⟩
    obtain ⟨y, hy, h⟩ := ih x hx
    exact ⟨y, List.mem_cons_of_mem _ hy, h⟩

theorem forall₂_of_mem (h : List.Forall₂ R xs ys) (hS : ∀ x, ∀ y ∈ ys, R x y → S x y) :
    List.Forall₂ S xs ys := by
  induction h with
  | nil => exact .nil
  | cons hxy _ ih =>
    obtain ⟨hy, hys⟩ := List.forall_mem_cons.mp (fun y hy x => hS x y hy)
    exact .cons (hy _ hxy) (ih fun x y hy => hys y hy x)

/-- What is found among the ones is found among the others. -/
theorem lookup_of_forall₂ {κ : Type} [BEq κ] {R : α → β → Prop} {xs : List (κ × α)}
    {ys : List (κ × β)} (h : List.Forall₂ (fun x y => y.1 = x.1 ∧ R x.2 y.2) xs ys) {k : κ} {a : α}
    (ha : xs.lookup k = some a) : ∃ b, ys.lookup k = some b ∧ R a b := by
  induction h with
  | nil => simp at ha
  | @cons p q _ _ hpq _ ih =>
    obtain ⟨l, c⟩ := p
    obtain ⟨l', d⟩ := q
    obtain ⟨rfl, hcd⟩ : l' = l ∧ R c d := hpq
    rw [List.lookup_cons] at ha ⊢
    split at ha
    · obtain rfl := Option.some.inj ha
      exact ⟨d, rfl, hcd⟩
    · exact ih ha

theorem forall₂_comp {γ : Type} {S : β → γ → Prop} {Q : α → γ → Prop} {zs : List γ}
    (h : List.Forall₂ R xs ys) (h' : List.Forall₂ S ys zs)
    (hq : ∀ {x y z}, R x y → S y z → Q x z) : List.Forall₂ Q xs zs := by
  induction h generalizing zs with
  | nil => cases h'; exact .nil
  | cons hxy _ ih => cases h' with | cons hyz h' => exact .cons (hq hxy hyz) (ih h')

theorem forall₂_getElem? (h : List.Forall₂ R xs ys) (i : Nat) :
    (∃ x y, xs[i]? = some x ∧ ys[i]? = some y ∧ R x y) ∨ (xs[i]? = none ∧ ys[i]? = none) := by
  induction h generalizing i with
  | nil => simp
  | @cons x y xs ys hxy _ ih =>
    cases i with
    | zero => exact Or.inl ⟨x, y, rfl, rfl, hxy⟩
    | succ i => exact ih i

end Forall₂

/-! ### Positions -/

theorem lt_of_getElem? {xs : List α} {n : Nat} {x : α} (h : xs[n]? = some x) : n < xs.length :=
  (List.getElem?_eq_some_iff.mp h).1

theorem getElem?_of_extends {xs ys : List α} (h : xs <+: ys) {n : Nat} {x : α}
    (hx : xs[n]? = some x) : ys[n]? = some x := by
  obtain ⟨zs, rfl⟩ := h
  rw [List.getElem?_append_left (lt_of_getElem? hx), hx]

theorem getElem?_append_singleton {xs : List α} {n : Nat} {x y : α} :
    (xs ++ [x])[n]? = some y ↔ xs[n]? = some y ∨ n = xs.length ∧ x = y := by
  rw [List.getElem?_append]
  split
  · next h => simp; omega
  · next h =>
    rw [List.getElem?_eq_none (Nat.le_of_not_lt h)]
    rcases hn : n - xs.length with _ | m
    · have : n = xs.length := by omega
      simp [this]
    · simp; omega

theorem pairwise_getElem? {R : α → α → Prop} {xs : List α} (h : xs.Pairwise R)
    {i j : Nat} (hij : i < j) {x y : α} (hx : xs[i]? = some x) (hy : xs[j]? = some y) : R x y := by
  obtain ⟨hi, rfl⟩ := List.getElem?_eq_some_iff.mp hx
  obtain ⟨hj, rfl⟩ := List.getElem?_eq_some_iff.mp hy
  exact List.pairwise_iff_getElem.mp h i j hi hj hij

theorem eq_or_mem_eraseIdx {xs : List α} {i : Nat} {x y : α} (hx : xs[i]? = some x)
    (hy : y ∈ xs) : y = x ∨ y ∈ xs.eraseIdx i := by
  obtain ⟨j, hj⟩ := List.mem_iff_getElem?.mp hy
  by_cases hji : j = i
  · exact Or.inl (Option.some.inj (hj.symm.trans (hji ▸ hx)))
  · exact Or.inr (List.mem_eraseIdx_iff_getElem?.mpr ⟨j, hji, hj⟩)

/-- Different elements of a list no longer than `n` are all of it when there are `n`. -/
theorem exists_eq_of_injOn [DecidableEq α] {n : Nat} {f : Nat → α} {xs : List α}
    (hxs : xs.length ≤ n) (hf : ∀ i < n, f i ∈ xs) (hinj : ∀ i < n, ∀ j < n, f i = f j → i = j)
    {x : α} (hx : x ∈ xs) : ∃ i < n, f i = x := by
  have himage : (Finset.range n).image f = xs.toFinset := by
    apply Finset.eq_of_subset_of_card_le
    · intro x hx
      obtain ⟨i, hi, rfl⟩ := Finset.mem_image.mp hx
      exact List.mem_toFinset.mpr (hf i (Finset.mem_range.mp hi))
    · rw [Finset.card_image_of_injOn fun i hi j hj h => hinj i (by simpa using hi) j
        (by simpa using hj) h, Finset.card_range]
      exact (List.toFinset_card_le xs).trans hxs
  obtain ⟨i, hi, hix⟩ := Finset.mem_image.mp (himage ▸ List.mem_toFinset.mpr hx)
  exact ⟨i, Finset.mem_range.mp hi, hix⟩

end Flange

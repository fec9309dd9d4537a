import Flange.Proofs.Lists
import Flange.Symbol

/-! # Variables and symbols -/

namespace Flange

namespace Var

theorem der_injective {v w : Var} {k : Nat} (h : v.der k = w.der k) : v = w := by
  cases v; cases w
  simpa [der] using h

@[simp] theorem der_der (v : Var) (k l : Nat) : (v.der k).der l = v.der (k + l) := by
  simp [der, Nat.add_assoc]

@[simp] theorem der_zero (v : Var) : v.der 0 = v := by simp [der]

@[simp] theorem name_der (v : Var) (k : Nat) : (v.der k).name = v.name := rfl

@[simp] theorem order_der (v : Var) (k : Nat) : (v.der k).order = v.order + k := rfl

theorem der_ne_self {v : Var} {k : Nat} : v.der (k + 1) ≠ v := by
  intro h
  have := congrArg Var.order h
  simp at this

@[simp] theorem order_base (v : Var) : v.base.order = 0 := rfl

@[simp] theorem name_base (v : Var) : v.base.name = v.name := rfl

@[simp] theorem base_der (v : Var) (k : Nat) : (v.der k).base = v.base := rfl

@[simp] theorem base_base (v : Var) : v.base.base = v.base := rfl

theorem base_of_order {v : Var} (h : v.order = 0) : v.base = v := by
  obtain ⟨n, o⟩ := v
  obtain rfl : o = 0 := h
  rfl

theorem base_eq_iff {v w : Var} : v.base = w.base ↔ v.name = w.name := by simp [base]

theorem der_base (v : Var) : v.base.der v.order = v := by simp [base, der]

theorem display_of_order {v : Var} (h : v.order = 0) : v.display = v.name ++ "(t)" := by
  simp [display, h]

/-- Functions are known by their text. -/
theorem eq_of_display {v w : Var} (hv : v.order = 0) (hw : w.order = 0)
    (h : v.display = w.display) : v = w := by
  rw [display_of_order hv, display_of_order hw, String.append_left_inj] at h
  rw [← base_of_order hv, ← base_of_order hw, base_eq_iff, h]

end Var

@[simp] theorem mem_sortedByText {α : Type} {text : α → String} {x : α} {xs : List α} :
    x ∈ sortedByText text xs ↔ x ∈ xs := by
  simp [sortedByText]

theorem sortedByText_perm {α : Type} (text : α → String) (xs : List α) :
    (sortedByText text xs).Perm xs := sortedBy_perm ..

section SortedByText

variable {α : Type} {text : α → String} {xs ys : List α}

theorem sortedByText_pairwise (text : α → String) (xs : List α) :
    (sortedByText text xs).Pairwise fun a b => text a ≤ text b := by
  have h := sortedBy_pairwise (r := fun a b => decide (text a ≤ text b))
    (fun x y => by simpa using String.le_total (text x) (text y))
    (fun {x y z} h h' => decide_eq_true (String.le_trans (of_decide_eq_true h)
      (of_decide_eq_true h'))) xs
  simpa [sortedByText] using h

theorem sortedByText_of_pairwise (h : xs.Pairwise fun a b => text a ≤ text b) :
    sortedByText text xs = xs :=
  sortedBy_of_pairwise (by simpa using h)

/-- There is one way to sort elements that are known by their text. -/
theorem sortedByText_eq (hperm : xs.Perm ys) (hys : ys.Pairwise fun a b => text a ≤ text b)
    (hinj : ∀ a ∈ ys, ∀ b ∈ ys, text a = text b → a = b) : sortedByText text xs = ys := by
  have hsorted : (sortedByText text xs).Perm ys := (sortedByText_perm text xs).trans hperm
  refine List.Perm.eq_of_pairwise (fun a b ha hb hab hba => ?_) (sortedByText_pairwise text xs) hys
    hsorted
  exact hinj a (hsorted.subset ha) b hb (String.le_antisymm hab hba)

end SortedByText

theorem sortVars_eq {vs ws : List Var} (hmem : ∀ v, v ∈ vs ↔ v ∈ ws) (hnodup : ws.Nodup)
    (horder : ∀ v ∈ ws, v.order = 0) (hws : ws.Pairwise fun v w => v.display ≤ w.display) :
    sortVars vs = ws := by
  refine sortedByText_eq ?_ hws fun v hv w hw => Var.eq_of_display (horder v hv) (horder w hw)
  exact (List.perm_ext_iff_of_nodup (nodup_eraseDups vs) hnodup).mpr fun v => by
    rw [List.mem_eraseDups, hmem]

@[simp] theorem mem_sortVars {v : Var} {vs : List Var} : v ∈ sortVars vs ↔ v ∈ vs := by
  simp [sortVars]

theorem nodup_sortVars (vs : List Var) : (sortVars vs).Nodup :=
  (sortedByText_perm _ _).nodup_iff.mpr (nodup_eraseDups vs)

@[simp] theorem mem_sortSymbols {s : Symbol} {ss : List Symbol} : s ∈ sortSymbols ss ↔ s ∈ ss := by
  simp [sortSymbols]

end Flange

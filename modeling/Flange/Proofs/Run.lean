import Flange.Run

/-! # Results of runs

A run has a result just when its parts have one after another; what it reports does not matter.
-/

namespace Flange

theorem ok_of_toOption {ε α : Type} {x : Except ε α} {a : α} (h : x.toOption = some a) :
    x = .ok a := by
  cases x with
  | error e => simp [Except.toOption] at h
  | ok b => simpa [Except.toOption] using h

namespace Run

variable {α β : Type}

theorem bind_ok {r : Run α} {f : α → Run β} {b : β} :
    (r >>= f).outcome = .ok b ↔ ∃ a, r.outcome = .ok a ∧ (f a).outcome = .ok b := by
  rw [outcome_bind]
  cases r.outcome with
  | error e => simp [bind, Except.bind]
  | ok a => simp [bind, Except.bind]

theorem outcome_ofExcept {x : Except ModelError α} {a : α} :
    (ofExcept x).outcome = .ok a ↔ x = .ok a := by
  cases x with
  | error e => simp [ofExcept, fail]
  | ok b => simp [ofExcept, Run.pure]

@[simp] theorem outcome_line (l : LogLine) : (line l).outcome = .ok () := rfl

theorem lawfulMonad : LawfulMonad Run := by
  refine LawfulMonad.mk' Run ?_ ?_ ?_
  · rintro α ⟨o, log, warnings⟩
    cases o <;> simp [Functor.map, Run.bind, Run.pure]
  · intro α β a f
    simp [pure, Run.pure, bind, Run.bind]
  · rintro α β γ ⟨o, log, warnings⟩ f g
    cases o with
    | error e => rfl
    | ok a =>
      simp only [bind, Run.bind]
      cases (f a).outcome <;> simp [List.append_assoc]

theorem outcome_mapM {γ : Type} {f : γ → Run β} (xs : List γ) :
    (xs.mapM f).outcome = xs.mapM fun x => (f x).outcome := by
  have := lawfulMonad
  induction xs with
  | nil => rfl
  | cons x xs ih =>
    rw [List.mapM_cons, List.mapM_cons, outcome_bind]
    congr 1
    funext y
    rw [outcome_bind, ih]
    rfl

theorem outcome_stage {name : String} {r : Run α} {a : α} :
    (stage name r).outcome = .ok a ↔ r.outcome = .ok a := by
  simp [stage, bind_ok]

end Run

end Flange

import Flange.Error
import Flange.Log

/-! # Runs

The outcome of a computation together with what it reported on the way. Reports are kept when the
computation is refused.
-/

namespace Flange

structure Run (α : Type) where
  outcome : Except Failure α
  log : List LogLine := []
  warnings : List String := []

namespace Run

variable {α β : Type}

protected def pure (a : α) : Run α := ⟨.ok a, [], []⟩

protected def bind (r : Run α) (f : α → Run β) : Run β :=
  match r.outcome with
  | .error e => ⟨.error e, r.log, r.warnings⟩
  | .ok a =>
    let s := f a
    ⟨s.outcome, r.log ++ s.log, r.warnings ++ s.warnings⟩

instance : Monad Run where
  pure := Run.pure
  bind := Run.bind

@[simp] theorem outcome_pure (a : α) : (pure a : Run α).outcome = .ok a := rfl

theorem outcome_bind (r : Run α) (f : α → Run β) :
    (r >>= f).outcome = r.outcome >>= fun a => (f a).outcome := by
  change (Run.bind r f).outcome = _
  unfold Run.bind
  cases h : r.outcome <;> rfl

def fail (e : Failure) : Run α := ⟨.error e, [], []⟩

def line (l : LogLine) : Run Unit := ⟨.ok (), [l], []⟩

def lines (ls : List LogLine) : Run Unit := ⟨.ok (), ls, []⟩

def ofExcept : Except ModelError α → Run α
  | .ok a => .pure a
  | .error e => fail (.model e)

/-- A named stage: its start and, unless it is refused, its end are logged. -/
def stage (name : String) (r : Run α) : Run α := do
  line (LogLine.entering name)
  let a ← r
  line (LogLine.exiting name)
  return a

end Run

/-- The level of the summary lines of the stages. -/
def summaryLevel (verbose : Bool) : LogLevel := if verbose then .info else .debug

end Flange

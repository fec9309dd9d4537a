import Flange.Assembly
import Flange.Problem
import Flange.Reduction.Stages

/-! # Builds

A build takes a diagram, or a system that is already flat or reduced, through assembly and
reduction to a problem. Each stage is run when it is asked for, and what was reached last is kept.
-/

namespace Flange

inductive Source
  | diagram (l : Library) (d : Diagram)
  | system (s : EquationSystem)
  | reduced (r : ReducedSystem)

structure Build where
  source : Source
  options : ReductionOptions := {}
  assembled : Option EquationSystem := none
  reduced : Option ReducedSystem := none

namespace Build

/-- A build that has done nothing yet. -/
def start (source : Source) (options : ReductionOptions) : Build where
  source := source
  options := options
  reduced := match source with
    | .reduced r => some r
    | _ => none

/-- The outcome of a stage, or what was kept when the stage is refused. -/
def keep {α : Type} (r : Run α) (old : Option α) : Option α :=
  match r.outcome with
  | .ok a => some a
  | .error _ => old

variable (b : Build)

/-- The system of the source. -/
def system : Run EquationSystem :=
  match b.source with
  | .diagram l d => Flange.assemble l d b.options.verbose
  | .system s => pure s
  | .reduced r => pure r.toEquationSystem

def withSystem (r : Run EquationSystem) : Build := { b with assembled := keep r b.assembled }

def assemble : Run EquationSystem × Build := (b.system, b.withSystem b.system)

/-- The system reached before, or else that of the source. -/
def current : Run EquationSystem :=
  match b.assembled with
  | some s => pure s
  | none => b.system

def reduceFrom (a : Run EquationSystem) : Run ReducedSystem × Build :=
  let r := do Flange.reduce (← a) b.options
  (r, { b.withSystem a with reduced := keep r b.reduced })

/-- Reduces the current system. -/
def reduce : Run ReducedSystem × Build := b.reduceFrom b.current

/-- Assembles anew and reduces. -/
def compile : Run ReducedSystem × Build := b.reduceFrom b.system

/-- The reduced system reached before, or else that of the current system. -/
def reach : Run ReducedSystem × Build :=
  match b.reduced with
  | some r => (pure r, b)
  | none => b.reduce

/-- What is known of the parameters so far. -/
def knowns : Constants :=
  match b.reduced, b.assembled with
  | some r, _ => r.knowns
  | none, some s => s.knowns
  | none, none => []

end Build

end Flange

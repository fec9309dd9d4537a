import Flange.Error
import Flange.Number.Decimal

/-! # Quantities

A quantity is a symbol together with what a component declares about it: its kind, the value of a
parameter, the initial value of a variable.
-/

namespace Flange

/-- What the value of a parameter must satisfy. -/
inductive Requirement
  | above (q : Rat)
  | atLeast (q : Rat)
  | nonzero
  deriving DecidableEq, Repr

namespace Requirement

def Holds : Requirement → Rat → Prop
  | above q, v => q < v
  | atLeast q, v => q ≤ v
  | nonzero, v => v ≠ 0

instance (r : Requirement) (v : Rat) : Decidable (r.Holds v) := by
  unfold Holds; split <;> infer_instance

end Requirement

/-- The optional parts of a declaration. -/
structure QuantityOptions where
  value : Option Decimal := none
  initial : Option Decimal := none
  /-- whether the initial value must be respected -/
  isFixed : Bool := false
  requirement : Option Requirement := none
  /-- what is said when the requirement fails -/
  complaint : Option String := none
  deriving Repr

structure Quantity extends QuantityOptions where
  name : String
  /-- the name inside the component -/
  shortName : String
  symbol : Symbol
  kind : SymKind
  deriving Repr

namespace Quantity

/-- Parameters are plain symbols, everything else is a function of time. -/
def symbolFor (name : String) : SymKind → Symbol
  | .param => .par name
  | _ => .var ⟨name, 0⟩

/-- A parameter has a value; parameters and inputs have no initial value. -/
def refusal? (name : String) (kind : SymKind) (o : QuantityOptions) : Option DeclarationCause :=
  if kind = .param ∧ o.value.isNone then some (.parameterWithoutValue name)
  else if (kind = .param ∨ kind = .inp) ∧ o.initial.isSome then
    some (.initialValueNotAllowed name kind)
  else none

/-- `given` is the symbol when it is defined elsewhere; it is taken as it is, whatever the kind. -/
def make (name shortName : String) (kind : SymKind) (o : QuantityOptions)
    (given : Option Symbol := none) : Except DeclarationCause Quantity :=
  match refusal? name kind o with
  | some c => .error c
  | none =>
    .ok { o with
      name := name, shortName := shortName, symbol := given.getD (symbolFor name kind)
      kind := kind }

/-- The value of a parameter meets its requirement. -/
def IsValid (s : Quantity) : Prop :=
  s.kind = .param → ∀ r ∈ s.requirement, ∀ v ∈ s.value, r.Holds v.toRat

instance (s : Quantity) : Decidable s.IsValid :=
  match hk : decide (s.kind = .param), hr : s.requirement, hv : s.value with
  | false, _, _ => .isTrue fun h => absurd h (by simpa using hk)
  | true, none, _ => .isTrue fun _ r h => by simp [hr] at h
  | true, some _, none => .isTrue fun _ _ _ v h => by simp [hv] at h
  | true, some r, some v =>
    if h : r.Holds v.toRat then
      .isTrue fun _ r' hr' v' hv' => by
        simp only [hr, hv, Option.mem_some_iff] at hr' hv'
        exact hr' ▸ hv' ▸ h
    else
      .isFalse fun hs => h (hs (by simpa using hk) r (by simp [hr]) v (by simp [hv]))

def expr (s : Quantity) : Expr := .sym s.symbol

def rate (s : Quantity) : Expr :=
  match s.symbol with
  | .var v => .var v.der
  | _ => .zero

/-- The message for a value that fails its requirement. -/
def complaintText (s : Quantity) : String :=
  match s.complaint with
  | some m => if m.isEmpty then invalidValue else m
  | none => invalidValue
where
  invalidValue : String :=
    "Invalid value " ++ ((s.value.map Decimal.render).getD "None") ++ " for " ++ s.name ++ "."

end Quantity

end Flange

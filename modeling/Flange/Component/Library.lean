import Flange.Component.Rotational

/-! # Libraries

A library is the catalogue of the templates that a diagram may use, each under a name.
-/

namespace Flange

/-- What is offered for registration. -/
inductive Candidate
  | template (t : Template)
  /-- something else, as it is shown -/
  | other (shown : String)

structure Library where
  entries : List (String × Template) := []

namespace Library

/-- Why a template cannot be registered under `name`. -/
def refusal? (l : Library) (t : Template) (name : String) : Option ValidationCause :=
  let overlap := Component.sortNames (t.interface.connectors.filter t.interface.optional.contains)
  if (l.entries.lookup name).isSome then some (.templateExists name)
  else if t.interface.connectors.isEmpty then some (.noConnectors name)
  else if !overlap.isEmpty then some (.connectorOverlap name overlap)
  else none

/-- Adds a template, under its own name by default. -/
def register (l : Library) (c : Candidate) (name : Option String := none) :
    Except ModelError Library :=
  match c with
  | .other shown => .error { cause := .validation (.notATemplate shown) }
  | .template t =>
    match l.refusal? t (name.getD t.name) with
    | some cause => .error { cause := .validation cause }
    | none => .ok ⟨l.entries ++ [(name.getD t.name, t)]⟩

def registerAll (l : Library) (ts : List Template) : Except ModelError Library :=
  ts.foldlM (fun l t => l.register (.template t)) l

def names (l : Library) : List String := sortedByText (fun s => s) (l.entries.map Prod.fst)

def size (l : Library) : Nat := l.entries.length

def hasName (l : Library) (name : String) : Bool := (l.entries.lookup name).isSome

/-- Whether a template of that name is registered, under whatever name. -/
def hasTemplate (l : Library) (template : String) : Bool :=
  l.entries.any fun e => e.2.name == template

def hasTemplateOf (l : Library) (c : Component) : Bool := l.hasTemplate c.interface.template

def template (l : Library) (name : String) : Except ModelError Template :=
  match l.entries.lookup name with
  | some t => .ok t
  | none => .error { cause := .validation (.noSuchTemplate name l.names) }

/-- Builds a component from a registered template and validates it. -/
def create (l : Library) (template : String) (id : Nat) (name : Option String) (a : Arguments) :
    Except ModelError Component := do
  let t ← l.template template
  let c ← t.instantiate id name a
  c.validate
  return c

/-- The rotational templates. -/
def standard : Library := ⟨Rotational.templates.map fun t => (t.name, t)⟩

end Library

end Flange

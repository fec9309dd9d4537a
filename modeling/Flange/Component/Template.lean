import Flange.Component.Declare

/-! # Templates

A template builds components from a name and named arguments.
-/

namespace Flange

inductive Argument
  | none
  | number (d : Decimal)
  | flag (b : Bool)
  | text (s : String)
  deriving DecidableEq, Repr

abbrev Arguments := List (String × Argument)

namespace Arguments

variable (a : Arguments) (key : String)

/-- A number, or its default when it is not given; it may be given as absent. -/
def number (default : Option Decimal := none) : Option Decimal :=
  match a.lookup key with
  | some (.number d) => some d
  | some _ => none
  | none => default

def flag : Bool :=
  match a.lookup key with
  | some (.flag b) => b
  | _ => false

def text (default : String) : String :=
  match a.lookup key with
  | some (.text s) => s
  | some _ => "None"
  | none => default

end Arguments

structure Template where
  interface : Interface
  build : Arguments → Declare Unit

namespace Template

def name (t : Template) : String := t.interface.template

/-- A component before its first declaration; it is named after its template by default. -/
def blank (t : Template) (id : Nat) (name : Option String) : Component :=
  { id, name := name.getD t.name, interface := t.interface }

/-- Builds a component, without validating it. -/
def instantiate (t : Template) (id : Nat) (name : Option String) (a : Arguments) :
    Except ModelError Component :=
  match (t.build a).runOn (t.blank id name) with
  | (.ok _, c) => .ok c
  | (.error e, _) => .error e

/-- A template that first builds what `t` builds by default and then goes on with `more`. -/
def extend (t : Template) (interface : Interface) (more : Arguments → Declare Unit) : Template :=
  { interface, build := fun a => do
      t.build []
      more a }

end Template

end Flange

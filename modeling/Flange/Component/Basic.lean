import Flange.Component.Quantity
import Flange.Equation

/-! # Components

A component has quantities, ports and equations, all in the order of their declaration, and the
interface of its template.
-/

namespace Flange

/-- A connector of a component. -/
structure Port where
  name : String
  domain : Domain
  potential : Quantity
  flow : Quantity
  orientation : Orientation := .a
  /-- whether a positive flow enters the component -/
  flowInto : Bool := true
  /-- whether it was declared as a rotational flange -/
  isFlange : Bool := false
  deriving Repr

namespace Port

/-- Sign of the flow in the balance of its connection. -/
def flowSign (p : Port) : Int := if p.flowInto then 1 else -1

def render (p : Port) : String :=
  (if p.isFlange then "RotationalPort" else "PortBase") ++
    " pot:" ++ p.potential.name ++ " flow:" ++ p.flow.name

end Port

/-- What a template promises about its components. -/
structure Interface where
  template : String
  /-- ports that every component must have -/
  connectors : List String := []
  /-- ports that a component may have -/
  optional : List String := []
  /-- ports that must not be connected with each other -/
  exclusive : List (String × String) := []
  deriving DecidableEq, Repr

structure Component where
  /-- tells components of one name apart -/
  id : Nat
  name : String
  interface : Interface
  ports : List Port := []
  quantities : List Quantity := []
  equations : List Eqn := []
  deriving Repr

/-- The symbols of the mathematical constants, with their values. -/
def mathConstants : List (String × Decimal) :=
  [("constants_e", ⟨2718281828459045, 15⟩), ("constants_pi", ⟨3141592653589793, 15⟩)]

namespace Component

def render (c : Component) : String := c.interface.template ++ "_" ++ c.name

def port? (c : Component) (name : String) : Option Port := c.ports.find? fun p => p.name == name

def ofKind (c : Component) (k : SymKind) : List Quantity :=
  c.quantities.filter fun s => decide (s.kind = k)

/-- The first quantity with the name `local`, or with that name after the component's. -/
def quantity? (c : Component) (localName : String) : Option Quantity :=
  c.quantities.find? fun s => s.name == c.name ++ "_" ++ localName || s.name == localName

/-- Sets the value of a quantity. -/
def setValue (c : Component) (localName : String) (v : Decimal) : Component :=
  match c.quantity? localName with
  | none => c
  | some s =>
    { c with quantities := c.quantities.map fun q =>
        if q.name = s.name then { q with value := some v } else q }

def portContext (c : Component) (port : String) : PortContext :=
  ⟨c.name, port, (c.port? port).map Port.domain⟩

def sortNames (ss : List String) : List String := sortedByText (fun s => s) ss.eraseDups

def missingConnectors (c : Component) : List String :=
  sortNames (c.interface.connectors.filter fun n => (c.port? n).isNone)

def unexpectedPorts (c : Component) : List String :=
  sortNames ((c.ports.map Port.name).filter fun n =>
    !c.interface.connectors.contains n && !c.interface.optional.contains n)

/-- What an equation of the component may refer to. -/
def declares (c : Component) (s : Symbol) : Bool :=
  s == .time || c.quantities.any (fun q => q.symbol == s) ||
    mathConstants.any fun k => s == .par k.1

def undeclared (c : Component) (e : Equation) : List Symbol :=
  sortSymbols (e.symbols.filter fun s => !c.declares s)

/-- The first reason why the component does not fit its template. -/
def fault? (c : Component) : Option ModelError :=
  if !c.missingConnectors.isEmpty || !c.unexpectedPorts.isEmpty then
    some { cause := .validation (.connectorArity c.name (sortNames c.interface.connectors)
            c.missingConnectors c.unexpectedPorts)
           components := [c.name] }
  else match (c.ofKind .param).find? fun s => !decide s.IsValid with
  | some s =>
    some { cause := .validation (.invalidParameter s.complaintText), components := [c.name] }
  | none =>
    if c.equations.isEmpty then
      some { cause := .validation (.noEquations c.name), components := [c.name] }
    else
      match c.equations.find? fun e => !(c.undeclared e.equation).isEmpty with
      | some e =>
        some { cause := .validation (.undeclaredSymbols c.name), components := [c.name]
               symbols := c.undeclared e.equation }
      | none => none

def validate (c : Component) : Except ModelError Unit :=
  match c.fault? with
  | some e => .error e
  | none => .ok ()

end Component

end Flange

import Flange.Component.Basic

/-! # Declarations

The steps that build a component. A step that is refused leaves what it had already added, as does
the sequence of steps it stands in.
-/

namespace Flange

/-- A step of building a component. -/
abbrev Declare := ExceptT ModelError (StateM Component)

namespace Declare

/-- The outcome of a step and the component after it. -/
def runOn {α : Type} (d : Declare α) (c : Component) : Except ModelError α × Component := d c

/-- Refuses on behalf of the component. -/
def refuse {α : Type} (cause : DeclarationCause) : Declare α := do
  let c ← get
  throw { cause := .declaration cause, components := [c.name] }

/-- Refuses before the component is known to be concerned. -/
def refuseAlone {α : Type} (cause : DeclarationCause) : Declare α :=
  throw { cause := .declaration cause }

/-- Declares the quantity `base_name`; `given` is its symbol when it is defined elsewhere. -/
def quantity (shortName base : String) (kind : SymKind) (o : QuantityOptions := {})
    (given : Option Symbol := none) : Declare Quantity := do
  match Quantity.make (base ++ "_" ++ shortName) shortName kind o given with
  | .error cause => refuseAlone cause
  | .ok s =>
    if (← get).quantities.any fun q => q.name == s.name then refuse (.symbolExists s.name)
    else
      modify fun c => { c with quantities := c.quantities ++ [s] }
      return s

/-- Declares a quantity under the name of the component. -/
def own (shortName : String) (kind : SymKind) (o : QuantityOptions := {}) : Declare Quantity := do
  quantity shortName (← get).name kind o

def parameter (shortName : String) (value : Option Decimal)
    (requirement : Option Requirement := none) (complaint : Option String := none) :
    Declare Quantity :=
  own shortName .param { value, requirement, complaint }

/-- A port is put in the place of an older one of its name, or after all others. -/
def putPort (p : Port) : List Port → List Port
  | [] => [p]
  | q :: qs => if q.name = p.name then p :: qs else q :: putPort p qs

def storePort (p : Port) : Declare Unit := modify fun c => { c with ports := putPort p c.ports }

/-- What a port may be made of: a known domain, a flow and a potential, a known orientation. -/
def makePort (name domain : String) (potential flow : Option Quantity) (orientation : String)
    (flowInto isFlange : Bool) : Except DeclarationCause Port :=
  match Domain.ofName? domain with
  | none => .error (.unknownDomain name domain)
  | some d =>
    match flow.filter fun s => decide (s.kind = .flow) with
    | none => .error (.flowKind name)
    | some f =>
      match potential.filter fun s => decide (s.kind = .pot) with
      | none => .error (.potentialKind name)
      | some p =>
        match Orientation.ofName? orientation with
        | none => .error (.unknownOrientation name orientation)
        | some o => .ok ⟨name, d, p, f, o, flowInto, isFlange⟩

/-- Declares a rotational flange: an angle, a torque, and the port made of them. -/
def flange (name : String) (orientation : String := "a") (flowInto : Bool := true)
    (angle : Option Decimal := none) (angleFixed : Bool := false) :
    Declare (Quantity × Quantity) := do
  let c ← get
  if (c.port? name).isSome then refuse (.portExists name)
  else
    let base := c.name ++ "_" ++ name
    let phi ← quantity "phi" base .pot { initial := angle, isFixed := angleFixed }
    let tau ← quantity "tau" base .flow
    match makePort name Domain.rotational.name (some phi) (some tau) orientation flowInto true with
    | .error cause => refuseAlone cause
    | .ok p =>
      storePort p
      return (phi, tau)

/-- Makes a port of any domain from quantities that exist. -/
def port (name domain : String) (potential flow : Option Quantity) (orientation : String := "a")
    (flowInto : Bool := true) : Declare Port := do
  match makePort name domain potential flow orientation flowInto false with
  | .error cause => refuseAlone cause
  | .ok p =>
    storePort p
    return p

/-- Declares the equation `lhs = rhs`, unless it is a truth value or declared already. -/
def equation (lhs rhs : Expr) (kind : EqnKind := .comp) : Declare Unit := do
  let c ← get
  match Equation.of? lhs rhs with
  | none => refuse .notAnEquation
  | some e =>
    if c.equations.any fun q => q.equation == e then refuse .equationExists
    else
      let q : Eqn := ⟨e, kind, .component c.name⟩
      set { c with equations := c.equations ++ [q] }

/-- Refuses what is offered in place of an equation. -/
def noEquation : Declare Unit := refuse .notAnEquation

/-- The port of that name. -/
def expectPort (name : String) : Declare Port := do
  let c ← get
  match c.port? name with
  | some p => return p
  | none => refuse (.noSuchPort c.name name)

end Declare

end Flange

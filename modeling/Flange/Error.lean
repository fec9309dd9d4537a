import Flange.Expr.Display
import Flange.Kind
import Flange.Text.Quoted

/-! # Errors

A model is refused for a cause. The cause fixes the kind of error and its message; the error adds
the components, ports, equations and variables it is about.
-/

namespace Flange

inductive ErrorKind
  | general | definition | connection | reduction | initialization
  deriving DecidableEq, Repr, Inhabited

namespace ErrorKind

def name : ErrorKind → String
  | general => "AcausalError"
  | definition => "ModelDefinitionError"
  | connection => "MultipleConnectionError"
  | reduction => "StructuralReductionError"
  | initialization => "InconsistentInitializationError"

def all : List ErrorKind := [general, definition, connection, reduction, initialization]

def ofName? (s : String) : Option ErrorKind := all.find? fun k => k.name == s

end ErrorKind

/-- Why a declaration in a component is refused. -/
inductive DeclarationCause
  | parameterWithoutValue (symbol : String)
  | initialValueNotAllowed (symbol : String) (kind : SymKind)
  | symbolExists (symbol : String)
  | portExists (port : String)
  | unknownDomain (port domain : String)
  | flowKind (port : String)
  | potentialKind (port : String)
  | unknownOrientation (port orientation : String)
  | notAnEquation
  | equationExists
  | noSuchPort (component port : String)
  | unknownFormulation (template component formulation : String)
  deriving DecidableEq, Repr

namespace DeclarationCause

def message : DeclarationCause → String
  | parameterWithoutValue s => s!"symbol:{s} has kind param, val cannot be None"
  | initialValueNotAllowed s k =>
    s!"symbol:{s} of kind:{k.qualified} cannot have an initial condition"
  | symbolExists s => s!"declare_symbol() Sym {s} already exists."
  | portExists p => s!"_check_port_name() port name {p} already exists."
  | unknownDomain p d => s!"Port {p} has invalid domain {d}."
  | flowKind p => s!"Port {p} flow variable must have kind {SymKind.flow.qualified}."
  | potentialKind p => s!"Port {p} potential variable must have kind {SymKind.pot.qualified}."
  | unknownOrientation p o => s!"Port {p} has invalid orientation {o}."
  | notAnEquation => "declare_equation() expected a sympy Eq, got <expr>."
  | equationExists => "declare_equation() Eqn <eq> already exists."
  | noSuchPort c p => s!"Component {c} has no port {p}."
  | unknownFormulation t c f =>
    s!"Component {t} {c} formulation must be one of ('smooth', 'regularized'), got {f}."

end DeclarationCause

/-- Why a component or a template does not pass its checks. -/
inductive ValidationCause
  | connectorArity (component : String) (expected missing unexpected : List String)
  | invalidParameter (message : String)
  | noEquations (component : String)
  | undeclaredSymbols (component : String)
  | notATemplate (shown : String)
  | templateExists (name : String)
  | noConnectors (name : String)
  | connectorOverlap (name : String) (connectors : List String)
  | noSuchTemplate (name : String) (available : List String)
  deriving DecidableEq, Repr

namespace ValidationCause

open Quoted

def message : ValidationCause → String
  | connectorArity c e m u =>
    s!"Component {c} connector arity mismatch. Expected {quoteList e}, " ++
      s!"missing {quoteList m}, unexpected {quoteList u}."
  | invalidParameter m => m
  | noEquations c => s!"Component {c} declares no equations."
  | undeclaredSymbols c => s!"Component {c} equation <eq> references undeclared symbols."
  | notATemplate s => s!"ComponentLibrary.register() {s} is not a component template."
  | templateExists n => s!"ComponentLibrary.register() template {n} already registered."
  | noConnectors n => s!"ComponentLibrary.register() template {n} declares no connectors."
  | connectorOverlap n cs =>
    s!"ComponentLibrary.register() template {n} lists {quoteList cs} " ++
      "as both required and optional connectors."
  | noSuchTemplate n available =>
    s!"ComponentLibrary has no template named {n}. Available: {quoteList available}"

end ValidationCause

/-- Why a diagram or one of its connections is refused. -/
inductive ConnectionCause
  | oddTerminals (diagram : String)
  | invalidTerminal (diagram shown : String)
  | tooFewTerminals (diagram : String)
  | sharedName (component : String)
  | tooFewConnectors
  | mismatchedDomains
  | exclusivePorts (component first second : String)
  | unregisteredTemplate (component template : String)
  | sharedSymbol (symbol : String)
  deriving DecidableEq, Repr

namespace ConnectionCause

def message : ConnectionCause → String
  | oddTerminals d =>
    s!"AcausalDiagram {d} connect() expects (component, port_name) terminals."
  | invalidTerminal d s => s!"AcausalDiagram {d} connect() invalid terminal {s}."
  | tooFewTerminals d => s!"AcausalDiagram {d} connect() needs at least two terminals."
  | sharedName c => s!"Two components share the name {c}."
  | tooFewConnectors => "A connection needs at least two distinct connectors."
  | mismatchedDomains => "These connected component ports have mismatched domains."
  | exclusivePorts c p q =>
    s!"Component {c} ports {p} and {q} cannot be in the same connection."
  | unregisteredTemplate c t =>
    s!"Component {c} uses template {t} which is not registered in the component library."
  | sharedSymbol s => s!"Symbol {s} is declared by more than one component."

def kind : ConnectionCause → ErrorKind
  | mismatchedDomains | exclusivePorts _ _ _ => .connection
  | _ => .definition

end ConnectionCause

/-- Why a system of equations cannot be reduced. Numbers are given as shown. -/
inductive ReductionCause
  | onlyInputs
  | onlyTimeAndParameters
  | contradictoryConstant (value : String)
  | conflictWithConstant (x : Var) (value constant : String)
  | conflictOfAliases (x y : Var) (value carried : String)
  | equationCount (equations unknowns differential algebraic : Nat)
  | structurallySingular
  | stepsExceeded (steps equation : Nat)
  | dummySelection
  | dummySubstitution (equations unknowns : Nat)
  | semiExplicit
  | inputDerivatives
  deriving DecidableEq, Repr

namespace ReductionCause

def message : ReductionCause → String
  | onlyInputs => "An equation constrains only inputs."
  | onlyTimeAndParameters => "An equation constrains only time and parameters."
  | contradictoryConstant v => s!"Contradictory constant equation, 0 = {v}."
  | conflictWithConstant x v c =>
    s!"Detected conflicting initial conditions for {x.display}. " ++
      s!"Values are: {v} and the constant {c}."
  | conflictOfAliases x y v w =>
    "Detected conflicting initial conditions. " ++
      s!"Values are: {v} for {x.display} and {w} from {y.display}."
  | equationCount e u n m =>
    s!"Mismatch between the number of equations {e} and the " ++
      s!"number of unknowns {u} ({n} differential, {m} algebraic)."
  | structurallySingular =>
    "The system of equations is structurally singular. The DAE system is ill-posed."
  | stepsExceeded s k =>
    s!"Pantelides algorithm exceeded max_pantelides_steps={s} while matching equation {k}."
  | dummySelection =>
    "Dummy derivative selection failed, the differentiated " ++
      "equations are singular in their highest derivatives."
  | dummySubstitution e u =>
    s!"Dummy derivative substitution produced {e} equations in {u} unknowns."
  | semiExplicit =>
    "Semi-explicit conversion failed, the reduced system is structurally singular."
  | inputDerivatives => "The reduced system requires time derivatives of inputs."

def kind : ReductionCause → ErrorKind
  | conflictWithConstant _ _ _ | conflictOfAliases _ _ _ _ => .initialization
  | _ => .reduction

end ReductionCause

/-- Why no initial condition is found. Numbers are given as shown. -/
inductive InitialCause
  | noInputValue (input : Var)
  | notAVariable (key : Symbol)
  | needsDerivative (key : Symbol)
  | conflictWithModel (key : Symbol) (value residual : String)
  | structurallySingular
  | contradictory (residual : String)
  | singularJacobian
  deriving DecidableEq, Repr

namespace InitialCause

def message : InitialCause → String
  | noInputValue u => s!"No value provided for input {u.display}."
  | notAVariable k =>
    s!"Initial value given for {k.display}, which is not a variable of the model."
  | needsDerivative k =>
    s!"The initial value of {k.display} requires the time derivative of an " ++
      "algebraic variable or an input."
  | conflictWithModel k v r =>
    s!"Initial value {v} of {k.display} conflicts with the model, residual {r}."
  | structurallySingular => "The initialization system is structurally singular."
  | contradictory r =>
    s!"Initialization failed, the initial values are contradictory. Largest residual {r}."
  | singularJacobian => "Initialization failed, the Jacobian is singular."

def kind : InitialCause → ErrorKind
  | noInputValue _ => .definition
  | _ => .initialization

end InitialCause

inductive Cause
  | declaration (c : DeclarationCause)
  | validation (c : ValidationCause)
  | diagram (c : ConnectionCause)
  | reduction (c : ReductionCause)
  | initial (c : InitialCause)
  /-- a message of the caller's own -/
  | custom (kind : ErrorKind) (message : String)
  deriving DecidableEq, Repr

namespace Cause

def kind : Cause → ErrorKind
  | declaration _ | validation _ => .definition
  | diagram c => c.kind
  | reduction c => c.kind
  | initial c => c.kind
  | custom k _ => k

def message : Cause → String
  | declaration c => c.message
  | validation c => c.message
  | diagram c => c.message
  | reduction c => c.message
  | initial c => c.message
  | custom _ m => m

end Cause

/-- A port that an error is about; the domain is known when the port exists. -/
structure PortContext where
  component : String
  port : String
  domain : Option Domain
  deriving DecidableEq, Repr

structure ModelError where
  cause : Cause
  components : List String := []
  ports : List PortContext := []
  showDomains : Bool := false
  equations : List Expr := []
  symbols : List Symbol := []
  deriving DecidableEq, Repr

namespace ModelError

def kind (e : ModelError) : ErrorKind := e.cause.kind

def message (e : ModelError) : String := e.cause.message

def portText (e : ModelError) (p : PortContext) : String :=
  let domain := match p.domain with
    | some d => if e.showDomains then "[" ++ d.name ++ "]" else ""
    | none => ""
  p.component ++ ":" ++ p.port ++ domain

def contextSection (title : String) (items : List String) : String :=
  if items.isEmpty then "" else s!"\nRelated {title}:\n\t" ++ "\n\t".intercalate items

/-- The message, or the name of the kind in its place, with the context in sections. -/
def render (e : ModelError) : String :=
  (if e.message.isEmpty then e.kind.name else e.message) ++
    contextSection "components" e.components ++
    contextSection "ports" (e.ports.map e.portText) ++
    contextSection "equations" (e.equations.map fun q => "0 = " ++ q.display) ++
    contextSection "variables" (e.symbols.map Symbol.display)

end ModelError

/-- Everything that an operation on a model can refuse for. -/
inductive Failure
  | model (e : ModelError)
  | notOfSystem (s : Symbol)
  | needsOde
  | needsAlgebraic
  | needsDerivative (s : Symbol)
  /-- a connector that was never registered -/
  | notRegistered
  /-- a value that is not a real number -/
  | notReal
  /-- a starting point where the residual is not finite -/
  | notFinite
  deriving DecidableEq, Repr

namespace Failure

/-- The message, for the failures that have one. -/
def message? : Failure → Option String
  | model e => some e.message
  | notOfSystem s => some (s.display ++ " is not a variable of the reduced system.")
  | needsOde =>
    some ("rhs() is only available for systems without algebraic variables, " ++
      "use residual() with a DAE solver.")
  | needsAlgebraic => some "observe() needs the algebraic variables y."
  | needsDerivative s =>
    some (s.display ++ " depends on the time derivative of an algebraic variable or an input.")
  | notRegistered | notReal | notFinite => none

end Failure

end Flange

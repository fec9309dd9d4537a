import Flange.Connection
import Flange.Run
import Flange.System

/-! # Assembly

A diagram becomes one flat system: the equations of its connections, potentials before flows, and
then those of its components.
-/

namespace Flange

namespace Assembly

/-- What is known of the components checked so far. -/
structure Checked where
  components : List Component := []
  quantities : List (Symbol × Quantity) := []
  knowns : Constants := []

def setKey {α β : Type} [BEq α] (k : α) (v : β) : List (α × β) → List (α × β)
  | [] => [(k, v)]
  | (j, w) :: rest => if j == k then (k, v) :: rest else (j, w) :: setKey k v rest

def refuse {α : Type} (cause : ConnectionCause) (components : List String) :
    Except ModelError α :=
  .error { cause := .diagram cause, components }

/-- Adds a quantity of `c`, whose symbol no other component may have declared. -/
def checkQuantity (c : Component) (k : Checked) (s : Quantity) : Except ModelError Checked :=
  if (k.quantities.lookup s.symbol).isSome then refuse (.sharedSymbol s.name) [c.name]
  else
    .ok { k with
      quantities := k.quantities ++ [(s.symbol, s)]
      knowns := match s.kind, s.value, s.symbol with
        | .param, some v, .par n => setKey n v k.knowns
        | _, _, _ => k.knowns }

/-- Checks a component against the library, the components before it and its own template. -/
def checkComponent (l : Library) (k : Checked) (c : Component) : Except ModelError Checked := do
  if !l.hasTemplateOf c then
    refuse (.unregisteredTemplate c.name c.interface.template) [c.name]
  match k.components.find? fun b => b.name == c.name with
  | some b => refuse (.sharedName c.name) [b.name, c.name]
  | none =>
    c.validate
    c.quantities.foldlM (checkQuantity c) { k with components := k.components ++ [c] }

/-- The quantity of a mathematical constant. -/
def constantQuantity (name : String) (v : Decimal) : Quantity :=
  { name, shortName := name, symbol := .par name, kind := .param, value := some v }

def addConstant (k : Checked) (p : String × Decimal) : Checked :=
  { k with
    quantities := setKey (.par p.1) (constantQuantity p.1 p.2) k.quantities
    knowns := setKey p.1 p.2 k.knowns }

def check (l : Library) (cs : List Component) : Except ModelError Checked := do
  let k ← cs.foldlM (checkComponent l) {}
  return mathConstants.foldl addConstant k

def mergedLine (group : List Terminal) (n : Nat) : LogLine :=
  ⟨.debug, s!"ConnectionGraph merged {Quoted.quoteList (group.map Terminal.label)} into a " ++
    s!"class of {n} connectors.", []⟩

/-- A step on the graph, as a run. -/
def wire {α : Type} (w : Wiring α) (g : ConnectionGraph) : Run (α × ConnectionGraph) :=
  match w g with
  | (.ok a, g) => pure (a, g)
  | (.error e, _) => Run.fail (.model e)

/-- Registers every port of every component. -/
def addPorts (cs : List Component) : Wiring Unit :=
  cs.forM fun c => c.ports.forM fun p => do let _ ← ConnectionGraph.addConnector c p.name

def connectGroups : List (List Terminal) → ConnectionGraph → Run ConnectionGraph
  | [], g => pure g
  | group :: rest, g => do
    let (n, g) ← wire (ConnectionGraph.connect group) g
    Run.line (mergedLine group n)
    connectGroups rest g

/-- The connection graph of the diagram. -/
def connectAll (d : Diagram) : Run ConnectionGraph := do
  let (_, g) ← wire (addPorts d.components) {}
  connectGroups d.connections g

def identifyNodes (d : Diagram) (verbose : Bool) : Run (List Eqn) := do
  let g ← connectAll d
  let (cs, g) := g.classes
  Run.line ⟨summaryLevel verbose, s!"DiagramProcessing found {cs.length} connection classes.",
    [("n_connectors", .count g.size)]⟩
  return g.equations.1

/-- The quantities of the diagram that occur in the equations, parameters left out, each with
its component. -/
def liveQuantities (d : Diagram) (used : List Var) : List Quantity :=
  (d.components.flatMap Component.quantities).filter fun s =>
    s.kind != .param && (s.symbol.var?.map used.contains).getD false

def deadLine (c : Component) (s : Quantity) : LogLine :=
  ⟨.debug, s!"DiagramProcessing dropped dead variable {s.name}.",
    LogContext.ofComponent [] c.name c.interface.template⟩

/-- A line for each variable that occurs in no equation. -/
def deadLines (d : Diagram) (used : List Var) : List LogLine :=
  d.components.flatMap fun c => (c.quantities.filter fun s =>
    s.kind != .param && !(s.symbol.var?.map used.contains).getD false).map (deadLine c)

def initialValues (isFixed : Bool) (ss : List Quantity) : InitialValues :=
  ss.filterMap fun s => do
    let v ← s.symbol.var?
    let q ← s.initial
    if s.kind != .inp && s.isFixed == isFixed then some (v, q.toRat) else none

/-- The system of the given equations and of the quantities that occur in them. -/
def systemOf (d : Diagram) (k : Checked) (eqs : List Eqn) : EquationSystem :=
  let exprs := eqs.map Eqn.residual
  let live := liveQuantities d (exprs.flatMap Expr.functions).eraseDups
  { equations := eqs, exprs
    unknowns := (live.filter fun s => s.kind != .inp).filterMap fun s => s.symbol.var?
    knowns := k.knowns
    inputs := (live.filter fun s => s.kind == .inp).filterMap fun s => s.symbol.var?
    quantities := k.quantities
    strong := initialValues true live
    weak := initialValues false live }

def summaryLine (verbose : Bool) (s : EquationSystem) : LogLine :=
  ⟨summaryLevel verbose,
    s!"DiagramProcessing assembled {s.exprs.length} equations in {s.unknowns.length} unknowns.",
    [("n_inputs", .count s.inputs.length), ("n_ics", .count s.strong.length),
      ("n_ics_weak", .count s.weak.length)]⟩

def finish (d : Diagram) (k : Checked) (eqs : List Eqn) (verbose : Bool) : Run EquationSystem := do
  let s := systemOf d k eqs
  Run.lines (deadLines d (s.exprs.flatMap Expr.functions).eraseDups)
  Run.line (summaryLine verbose s)
  return s

end Assembly

/-- The system of a diagram whose components come from the library. -/
def assemble (l : Library) (d : Diagram) (verbose : Bool := false) : Run EquationSystem := do
  let k ← Run.stage "DiagramProcessing.check_components" (.ofExcept (Assembly.check l d.components))
  let nodes ← Run.stage "DiagramProcessing.identify_nodes" (Assembly.identifyNodes d verbose)
  let pots ← Run.stage "DiagramProcessing.add_node_potential_eqs"
    (pure (nodes.filter fun e => e.kind == .pot))
  let flows ← Run.stage "DiagramProcessing.add_node_flow_eqs"
    (pure (nodes.filter fun e => e.kind == .flow))
  let own ← Run.stage "DiagramProcessing.collect_component_eqs"
    (pure (d.components.flatMap Component.equations))
  Run.stage "DiagramProcessing.finalize" (Assembly.finish d k (pots ++ flows ++ own) verbose)

end Flange

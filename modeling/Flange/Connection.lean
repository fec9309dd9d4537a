import Flange.Component.Library
import Flange.Diagram
import Flange.Graph.Forest

/-! # Connection classes

Every connector of a diagram has a record. Connecting merges the classes of records, unless the
merged class would hold two domains or two ports that a component keeps apart. Each class then
gives its equations: equal potentials, and flows that balance.
-/

namespace Flange

structure ConnectorRecord where
  component : String
  port : String
  domain : Domain
  potential : Quantity
  flow : Quantity
  flowSign : Int
  deriving Repr

structure ConnectionGraph where
  records : List ConnectorRecord := []
  forest : Forest := {}
  /-- the components that have records -/
  components : List Component := []

/-- A step on a connection graph; a step that is refused leaves what it had already done. -/
abbrev Wiring := ExceptT ModelError (StateM ConnectionGraph)

namespace ConnectionGraph

def size (g : ConnectionGraph) : Nat := g.records.length

def index? (g : ConnectionGraph) (component port : String) : Option Nat :=
  g.records.findIdx? fun r => r.component == component && r.port == port

def component? (g : ConnectionGraph) (name : String) : Option Component :=
  g.components.find? fun c => c.name == name

/-- The graph with a record for the port `p` of `c`. -/
def push (g : ConnectionGraph) (c : Component) (p : Port) : ConnectionGraph where
  records := g.records ++ [⟨c.name, p.name, p.domain, p.potential, p.flow, p.flowSign⟩]
  forest := g.forest.push
  components := if (g.component? c.name).isSome then g.components else g.components ++ [c]

def terminalContext (g : ConnectionGraph) (i : Nat) : Option PortContext := do
  let r ← g.records[i]?
  let c ← g.component? r.component
  return c.portContext r.port

def refuse {α : Type} (cause : ConnectionCause) (components : List String := [])
    (ports : List PortContext := []) (showDomains : Bool := false) : Wiring α :=
  throw { cause := .diagram cause, components, ports, showDomains }

/-- Registers a connector; the index of its record. -/
def addConnector (c : Component) (port : String) : Wiring Nat := do
  let g ← get
  match g.index? c.name port with
  | some i => return i
  | none =>
    match c.port? port with
    | none =>
      throw { cause := .declaration (.noSuchPort c.name port), components := [c.name] }
    | some p =>
      match (g.component? c.name).filter fun b => b.id != c.id with
      | some b => refuse (.sharedName c.name) [b.name, c.name]
      | none =>
        set (g.push c p)
        return g.size

/-- The domains that occur among the listed records. -/
def domains (g : ConnectionGraph) (is : List Nat) : List Domain :=
  (is.filterMap fun i => g.records[i]?.map ConnectorRecord.domain).eraseDups

def hasPort (g : ConnectionGraph) (is : List Nat) (component port : String) : Bool :=
  is.any fun i => (g.records[i]?.map fun r =>
    r.component == component && r.port == port).getD false

/-- The first component, by name, that has two exclusive ports among the listed records, with
these ports. -/
def exclusive? (g : ConnectionGraph) (is : List Nat) : Option (String × String × String) :=
  let names := Component.sortNames
    (is.filterMap fun i => g.records[i]?.map ConnectorRecord.component)
  names.findSome? fun n => do
    let c ← g.component? n
    let (p, q) ← c.interface.exclusive.find? fun (p, q) => g.hasPort is n p && g.hasPort is n q
    return (n, p, q)

/-- Why the listed records cannot be one class. -/
def conflict? (g : ConnectionGraph) (is : List Nat) : Option ModelError :=
  let ports := is.filterMap g.terminalContext
  if 1 < (g.domains is).length then
    some { cause := .diagram .mismatchedDomains, ports, showDomains := true }
  else (g.exclusive? is).map fun (c, p, q) =>
    { cause := .diagram (.exclusivePorts c p q), ports }

/-- Registers the connectors of a group; their indices, each once. -/
def addGroup : List Terminal → Wiring (List Nat)
  | [] => return []
  | t :: ts => do
    let i ← addConnector t.component t.port
    let is ← addGroup ts
    return i :: is.erase i

/-- Merges the connectors of the group into one class; the number of connectors in it. -/
def connect (group : List Terminal) : Wiring Nat := do
  match ← addGroup group with
  | [] | [_] => refuse .tooFewConnectors [] (group.map Terminal.context)
  | i :: is =>
    let g ← get
    let (roots, f) := g.forest.findAll (i :: is)
    let (members, f) := f.members roots
    set { g with forest := f }
    match g.conflict? members with
    | some e => throw e
    | none =>
      set { g with forest := f.unionAll i is }
      return members.length

/-- Root of the class of record `i`. -/
def find (g : ConnectionGraph) (i : Nat) : Nat × ConnectionGraph :=
  let (r, f) := g.forest.find i
  (r, { g with forest := f })

/-- Joins the classes of two records, whatever they hold. -/
def union (g : ConnectionGraph) (i j : Nat) : Nat × ConnectionGraph :=
  let (r, f) := g.forest.union i j
  (r, { g with forest := f })

/-- The classes of records, each ascending, by their smallest members. -/
def classes (g : ConnectionGraph) : List (List Nat) × ConnectionGraph :=
  let (cs, f) := g.forest.classes
  (cs, { g with forest := f })

/-- The class of a connector; `none` when it has no record. -/
def classOf? (g : ConnectionGraph) (component port : String) :
    Option (List Nat × ConnectionGraph) := do
  let i ← g.index? component port
  let (r, f) := g.forest.find i
  let (is, f) := f.members [r]
  return (is, { g with forest := f })

/-- The potentials of a class against the first, then the balance of its flows. -/
def classEquations (n : Nat) : List ConnectorRecord → List Eqn
  | [] => []
  | r :: rs =>
    let balance := Expr.sumOf ((r :: rs).map fun s => Expr.num s.flowSign * s.flow.expr)
    rs.map (fun s => ⟨⟨r.potential.expr, s.potential.expr⟩, .pot, .connectionClass n⟩) ++
      [⟨⟨.zero, balance⟩, .flow, .connectionClass n⟩]

def equations (g : ConnectionGraph) : List Eqn × ConnectionGraph :=
  let (cs, g) := g.classes
  (cs.zipIdx.flatMap fun (is, n) => classEquations n (is.filterMap fun i => g.records[i]?), g)

end ConnectionGraph

end Flange

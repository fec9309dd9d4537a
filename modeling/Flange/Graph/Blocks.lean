import Flange.Order

/-! # Blocks in order of dependency

The strongly connected components of a directed graph, in a topological order that is made unique
by taking the component with the smallest member first.
-/

namespace Flange

/-- Nodes and edges of a directed graph. -/
structure Digraph where
  nodes : List Nat
  edges : List (Nat × Nat)

namespace Digraph

def successors (g : Digraph) (u : Nat) : List Nat :=
  g.edges.filterMap fun e => if e.1 = u then some e.2 else none

/-- The nodes reached from the frontier, in addition to those already seen. -/
def reachFrom (g : Digraph) : (fuel : Nat) → (frontier seen : List Nat) → List Nat
  | 0, _, seen => seen
  | fuel + 1, frontier, seen =>
    let new := ((frontier.flatMap g.successors).filter fun v => !seen.contains v).eraseDups
    if new.isEmpty then seen else reachFrom g fuel new (seen ++ new)

def reach (g : Digraph) (u : Nat) : List Nat := g.reachFrom g.nodes.length [u] [u]

def sorted (xs : List Nat) : List Nat := sortedBy (fun a b => decide (a ≤ b)) xs

/-- The strongly connected components, each ascending, by smallest member. -/
def components (g : Digraph) : List (List Nat) :=
  let table := (sorted g.nodes).map fun u => (u, g.reach u)
  let reaches (u v : Nat) : Bool := ((table.lookup u).getD []).contains v
  let comps := table.map fun (u, r) => sorted (r.filter fun v => reaches v u)
  comps.eraseDups

/-- No edge enters the component from a node still waiting in another one. -/
def ready (g : Digraph) (waiting : List Nat) (comp : List Nat) : Bool :=
  g.edges.all fun e => !(comp.contains e.2 && !comp.contains e.1 && waiting.contains e.1)

/-- Takes the ready component with the smallest member until none is left. -/
def order (g : Digraph) : (fuel : Nat) → List (List Nat) → List (List Nat)
  | 0, _ => []
  | fuel + 1, comps =>
    match comps.find? (g.ready comps.flatten) with
    | none => []
    | some c => c :: order g fuel (comps.erase c)

/-- The components so that every edge leads to the same or a later one. -/
def blocks (g : Digraph) : List (List Nat) :=
  let cs := g.components
  g.order cs.length cs

/-- The first node with an edge to `u`. -/
def parent? (g : Digraph) (u : Nat) : Option Nat :=
  (g.edges.find? fun e => e.2 = u).map Prod.fst

/-- How many times a node can be followed to its parent. -/
def depth (g : Digraph) : (fuel : Nat) → Nat → Nat
  | 0, _ => 0
  | fuel + 1, u =>
    match g.parent? u with
    | none => 0
    | some p => depth g fuel p + 1

/-- The nodes of a block with their depths, the deepest and then the largest first. -/
def byDepth (g : Digraph) (block : List Nat) : List (Nat × Nat) :=
  sortedBy (fun a b => decide (b.1 < a.1) || (decide (a.1 = b.1) && decide (b.2 ≤ a.2)))
    (block.map fun u => (g.depth g.nodes.length u, u))

end Digraph

end Flange

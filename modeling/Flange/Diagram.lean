import Flange.Component.Basic

/-! # Diagrams

A diagram is a list of components and a list of groups of terminals that are joined together. A
terminal is a component with the name of one of its ports.
-/

namespace Flange

structure Terminal where
  component : Component
  port : String
  deriving Repr

namespace Terminal

def label (t : Terminal) : String := t.component.name ++ ":" ++ t.port

def context (t : Terminal) : PortContext := t.component.portContext t.port

end Terminal

/-- What may be offered where a terminal is expected. -/
inductive ConnectTerm
  | component (c : Component)
  | text (s : String)
  | tuple (items : List ConnectTerm)

instance : Inhabited ConnectTerm := ⟨.tuple []⟩

namespace ConnectTerm

mutual

def render : ConnectTerm → String
  | component c => c.render
  | text s => Quoted.quote s
  | tuple [] => "()"
  | tuple [t] => "(" ++ render t ++ ",)"
  | tuple (t :: ts) => "(" ++ ", ".intercalate (render t :: renderAll ts) ++ ")"

def renderAll : List ConnectTerm → List String
  | [] => []
  | t :: ts => render t :: renderAll ts

end

def isTuple : ConnectTerm → Bool
  | tuple _ => true
  | _ => false

def terminal? : ConnectTerm → Option Terminal
  | tuple [component c, text p] => some ⟨c, p⟩
  | _ => none

/-- Neighbours two by two. -/
def pairUp : List ConnectTerm → List ConnectTerm
  | a :: b :: rest => tuple [a, b] :: pairUp rest
  | _ => []

end ConnectTerm

structure Diagram where
  name : String := "acausal_diagram"
  components : List Component := []
  connections : List (List Terminal) := []

namespace Diagram

def add (d : Diagram) (c : Component) : Diagram :=
  if d.components.any fun b => b.id == c.id then d
  else { d with components := d.components ++ [c] }

def refuse {α : Type} (cause : ConnectionCause) (ports : List PortContext := []) :
    Except ModelError α :=
  .error { cause := .diagram cause, ports }

/-- The terminals meant by the arguments: either each is a terminal, or components and ports
alternate. -/
def terminals (d : Diagram) (ts : List ConnectTerm) : Except ModelError (List Terminal) := do
  let pairwise := (ts.head?.map fun t => !t.isTuple).getD false
  if pairwise && ts.length % 2 == 1 then refuse (.oddTerminals d.name)
  else
    (if pairwise then ConnectTerm.pairUp ts else ts).mapM fun t =>
      match t.terminal? with
      | some u => .ok u
      | none => refuse (.invalidTerminal d.name t.render)

/-- Joins the terminals, adding the components that are new. -/
def connectTerminals (d : Diagram) (ts : List Terminal) : Except ModelError Diagram :=
  if ts.length < 2 then refuse (.tooFewTerminals d.name) (ts.map Terminal.context)
  else
    let d := ts.foldl (fun d t => d.add t.component) d
    .ok { d with connections := d.connections ++ [ts] }

def connect (d : Diagram) (ts : List ConnectTerm) : Except ModelError Diagram := do
  d.connectTerminals (← d.terminals ts)

/-- A diagram of the given components and groups. -/
def build (name : Option String) (cs : List Component) (groups : List (List ConnectTerm)) :
    Except ModelError Diagram :=
  let d : Diagram := { name := name.getD "acausal_diagram" }
  groups.foldlM connect (cs.foldl add d)

end Diagram

end Flange

/-! # Maximum matchings

Equations are numbered, and each lists the variables it may be matched to. Phases of breadth-first
layering and depth-first augmentation run until no free variable can be reached from an unmatched
equation.
-/

namespace Flange

/-- The neighbours of each equation, in order. -/
abbrev Adjacency (ν : Type) := List (List ν)

structure Matching (ν : Type) where
  /-- the variable of each equation -/
  ofEquation : Array (Option ν)
  /-- the equation of each matched variable -/
  ofVariable : List (ν × Nat)

namespace Matching

variable {ν : Type} [DecidableEq ν]

def empty (n : Nat) : Matching ν := ⟨Array.replicate n none, []⟩

def equation? (m : Matching ν) (v : ν) : Option Nat := m.ofVariable.lookup v

def matched? (m : Matching ν) (i : Nat) : Option ν := (m.ofEquation[i]?).join

def setEquation (v : ν) (i : Nat) : List (ν × Nat) → List (ν × Nat)
  | [] => [(v, i)]
  | (w, j) :: rest => if w = v then (v, i) :: rest else (w, j) :: setEquation v i rest

def join (m : Matching ν) (i : Nat) (v : ν) : Matching ν :=
  ⟨m.ofEquation.setIfInBounds i (some v), setEquation v i m.ofVariable⟩

/-- The matched pairs, by ascending equation. -/
def pairs (m : Matching ν) : List (Nat × ν) :=
  m.ofEquation.toList.zipIdx.filterMap fun (v, i) => v.map fun v => (i, v)

def size (m : Matching ν) : Nat := m.pairs.length

end Matching

/-- Distances from the unmatched equations; `free` is the distance of the free variables. -/
structure Layers where
  equations : Array (Option Nat)
  free : Option Nat := none

namespace Layers

variable {ν : Type} [DecidableEq ν]

def at? (l : Layers) (i : Nat) : Option Nat := (l.equations[i]?).join

/-- Looks at the neighbours of an equation at distance `d`; what is new goes to the queue. -/
def visit (m : Matching ν) (d : Nat) : List ν → Layers → List Nat → Layers × List Nat
  | [], l, new => (l, new)
  | v :: vs, l, new =>
    match m.equation? v with
    | none => visit m d vs (if l.free.isNone then { l with free := some (d + 1) } else l) new
    | some j =>
      if (l.at? j).isNone then
        visit m d vs { l with equations := l.equations.setIfInBounds j (some (d + 1)) }
          (new ++ [j])
      else visit m d vs l new

def search (adj : Adjacency ν) (m : Matching ν) : (fuel : Nat) → List Nat → Layers → Layers
  | 0, _, l => l
  | _ + 1, [], l => l
  | fuel + 1, i :: queue, l =>
    match l.at? i with
    | none => search adj m fuel queue l
    | some d =>
      if (l.free.map fun f => decide (d < f)).getD true then
        let (l, new) := visit m d (adj.getD i []) l []
        search adj m fuel (queue ++ new) l
      else search adj m fuel queue l

/-- The layers of the matching `m`. -/
def of (adj : Adjacency ν) (m : Matching ν) : Layers :=
  let start := (List.range adj.length).filter fun i => (m.matched? i).isNone
  let dist := (List.range adj.length).map fun i =>
    if (m.matched? i).isNone then some 0 else none
  search adj m (adj.length + 1) start ⟨dist.toArray, none⟩

end Layers

namespace Matching

variable {ν : Type} [DecidableEq ν]

/-- Tries the neighbours of an equation at distance `d` until one leads to a free variable. -/
def tryNeighbours (deeper : Nat → Layers × Matching ν → Bool × Layers × Matching ν)
    (i d : Nat) : List ν → Layers × Matching ν → Bool × Layers × Matching ν
  | [], (l, m) => (false, { l with equations := l.equations.setIfInBounds i none }, m)
  | v :: vs, (l, m) =>
    match m.equation? v with
    | none =>
      if l.free = some (d + 1) then (true, l, m.join i v)
      else tryNeighbours deeper i d vs (l, m)
    | some j =>
      if l.at? j = some (d + 1) then
        match deeper j (l, m) with
        | (true, l, m) => (true, l, m.join i v)
        | (false, l, m) => tryNeighbours deeper i d vs (l, m)
      else tryNeighbours deeper i d vs (l, m)

/-- Follows the layers from equation `i` to a free variable and shifts the matches on the way. -/
def extend (adj : Adjacency ν) : (fuel : Nat) → Nat → Layers × Matching ν →
    Bool × Layers × Matching ν
  | 0, _, s => (false, s)
  | fuel + 1, i, s =>
    match s.1.at? i with
    | none => (false, s)
    | some d => tryNeighbours (extend adj fuel) i d (adj.getD i []) s

def phase (adj : Adjacency ν) (l : Layers) (m : Matching ν) : Matching ν :=
  ((List.range adj.length).foldl (fun s i =>
    if (s.2.matched? i).isNone then (extend adj (adj.length + 1) i s).2 else s) (l, m)).2

def phases (adj : Adjacency ν) : (fuel : Nat) → Matching ν → Matching ν
  | 0, m => m
  | fuel + 1, m =>
    let l := Layers.of adj m
    if l.free.isNone then m else phases adj fuel (phase adj l m)

/-- A maximum matching of the equations to their neighbours. -/
def maximum (adj : Adjacency ν) : Matching ν := phases adj (adj.length + 1) (empty adj.length)

end Matching

end Flange

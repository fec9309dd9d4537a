/-! # Augmenting paths

The search for an augmenting path from one equation. It prefers a free variable, colours what it
visits, and leaves the colours behind when it fails: they mark the equations that are too many for
their variables.
-/

namespace Flange

/-- The equation assigned to each variable, variables being numbered. -/
abbrev Assignment := List (Option Nat)

structure Search where
  assign : Assignment
  redEquations : List Nat := []
  redVariables : List Nat := []
  deriving DecidableEq, Repr

namespace Search

def assigned (s : Search) (j : Nat) : Option Nat := (s.assign[j]?).join

def give (s : Search) (j i : Nat) : Search := { s with assign := s.assign.set j (some i) }

def colourEquation (s : Search) (i : Nat) : Search :=
  if s.redEquations.contains i then s else { s with redEquations := s.redEquations ++ [i] }

def colourVariable (s : Search) (j : Nat) : Search :=
  { s with redVariables := s.redVariables ++ [j] }

/-- Tries to free one of the variables for equation `i`, passing over coloured ones. -/
def reassign (deeper : Nat → Search → Bool × Search) (i : Nat) :
    List Nat → Search → Bool × Search
  | [], s => (false, s)
  | j :: js, s =>
    if s.redVariables.contains j then reassign deeper i js s
    else
      match s.assigned j with
      | none => (true, s.give j i)
      | some k =>
        match deeper k (s.colourVariable j) with
        | (true, s) => (true, s.give j i)
        | (false, s) => reassign deeper i js s

/-- Looks for an augmenting path from equation `i`. -/
def augmentFrom (adj : Nat → List Nat) : (fuel : Nat) → Nat → Search → Bool × Search
  | 0, _, s => (false, s)
  | fuel + 1, i, s =>
    let s := s.colourEquation i
    match (adj i).find? fun j => (s.assigned j).isNone with
    | some j => (true, s.give j i)
    | none => reassign (augmentFrom adj fuel) i (adj i) s

end Search

/-- Whether an augmenting path from equation `i` was found, and the assignment and colours
after the search. -/
def augment (adj : Nat → List Nat) (assign : Assignment) (i : Nat) : Bool × Search :=
  Search.augmentFrom adj (assign.length + 1) i ⟨assign, [], []⟩

end Flange

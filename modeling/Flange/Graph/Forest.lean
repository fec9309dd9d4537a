/-! # Forests of classes

Elements 0, 1, … are joined into classes. Each element links to another of its class or, as the
root of the class, to itself; the root knows the size of the class. Following links shortens them.
-/

namespace Flange

structure Forest where
  parent : List Nat := []
  size : List Nat := []
  deriving DecidableEq, Repr

namespace Forest

def parentOf (f : Forest) (i : Nat) : Nat := f.parent.getD i i

def sizeOf (f : Forest) (i : Nat) : Nat := f.size.getD i 0

/-- Adds an element in a class of its own. -/
def push (f : Forest) : Forest := ⟨f.parent ++ [f.parent.length], f.size ++ [1]⟩

/-- Follows links from `i`, making each element on the way link to its grandparent. -/
def climb : (fuel i : Nat) → Forest → Nat × Forest
  | 0, i, f => (i, f)
  | fuel + 1, i, f =>
    if f.parentOf i = i then (i, f)
    else
      let j := f.parentOf (f.parentOf i)
      climb fuel j { f with parent := f.parent.set i j }

/-- The root of `i`. -/
def find (f : Forest) (i : Nat) : Nat × Forest := climb f.parent.length i f

/-- The roots of the listed elements. -/
def findAll (f : Forest) : List Nat → List Nat × Forest
  | [] => ([], f)
  | i :: is =>
    let (r, f) := f.find i
    let (rs, f) := findAll f is
    (r :: rs, f)

/-- Links the root `s` to the root `r`. -/
def link (f : Forest) (r s : Nat) : Forest :=
  ⟨f.parent.set s r, f.size.set r (f.sizeOf r + f.sizeOf s)⟩

/-- Joins the classes of `i` and `j`, the smaller one below the larger; the root of the result. -/
def union (f : Forest) (i j : Nat) : Nat × Forest :=
  let (r, f) := f.find i
  let (s, f) := f.find j
  if r = s then (r, f)
  else if f.sizeOf r < f.sizeOf s then (s, f.link s r)
  else (r, f.link r s)

/-- Joins the classes of all listed elements with that of `i`. -/
def unionAll (f : Forest) (i : Nat) (js : List Nat) : Forest :=
  js.foldl (fun f j => (f.union i j).2) f

def elements (f : Forest) : List Nat := List.range f.parent.length

/-- The elements whose root is among `roots`. -/
def members (f : Forest) (roots : List Nat) : List Nat × Forest :=
  let (rs, f) := f.findAll f.elements
  (((f.elements.zip rs).filter fun p => roots.contains p.2).map Prod.fst, f)

/-- The classes, each ascending, by their smallest elements. -/
def classes (f : Forest) : List (List Nat) × Forest :=
  let (rs, f) := f.findAll f.elements
  let pairs := f.elements.zip rs
  (rs.eraseDups.map fun r => (pairs.filter fun p => p.2 == r).map Prod.fst, f)

end Forest

end Flange

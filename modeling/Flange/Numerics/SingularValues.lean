import Flange.Numerics.Vector

/-! # Singular values

Columns of a matrix are turned against each other in pairs until all are orthogonal. Their lengths
are then the singular values, and the turns give the directions that the matrix stretches by them.
-/

namespace Flange

/-- A direction with its image under the matrix. -/
structure Stretch (α : Type) where
  direction : Vec α
  image : Vec α

namespace Stretch

variable {α : Type} [Scalar α]

/-- The factor of the stretch. -/
def factor (s : Stretch α) : α := Vec.norm s.image

def combine (c : α) (s : Stretch α) (d : α) (t : Stretch α) : Stretch α where
  direction := Vec.add (Vec.scale c s.direction) (Vec.scale d t.direction)
  image := Vec.add (Vec.scale c s.image) (Vec.scale d t.image)

/-- Spacing of numbers next to one. -/
def precision : Rat := mkRat 1 (Nat.pow 2 52)

/-- Makes the two images orthogonal; `none` when they already are. -/
def rotate (s t : Stretch α) : Option (Stretch α × Stretch α) :=
  let a := Vec.dot s.image s.image
  let b := Vec.dot t.image t.image
  let g := Vec.dot s.image t.image
  if Scalar.le (Scalar.abs g) (Scalar.ofRat precision * Vec.root (a * b)) then none
  else if !Scalar.isFinite g then none
  else
    let one : α := Scalar.ofRat 1
    let z := (b - a) / (Scalar.ofRat 2 * g)
    let u := one / (Scalar.abs z + Vec.root (one + z * z))
    let u := if Scalar.lt z Vec.zero then -u else u
    let c := one / Vec.root (one + u * u)
    let d := c * u
    some (combine c s (-d) t, combine d s c t)

/-- Turns `s` against each of the others; whether anything was turned. -/
def rotateAll (s : Stretch α) : List (Stretch α) → Bool × Stretch α × List (Stretch α)
  | [] => (false, s, [])
  | t :: ts =>
    match rotate s t with
    | none =>
      let (turned, s, ts) := rotateAll s ts
      (turned, s, t :: ts)
    | some (s, t) =>
      let (_, s, ts) := rotateAll s ts
      (true, s, t :: ts)

/-- Turns every pair once; `fuel` is the number of stretches. -/
def sweep : (fuel : Nat) → List (Stretch α) → Bool × List (Stretch α)
  | 0, ss => (false, ss)
  | _, [] => (false, [])
  | fuel + 1, s :: ss =>
    let (turned, s, ss) := rotateAll s ss
    let (more, ss) := sweep fuel ss
    (turned || more, s :: ss)

def sweeps : (fuel : Nat) → List (Stretch α) → List (Stretch α)
  | 0, ss => ss
  | fuel + 1, ss =>
    let (turned, ss) := sweep ss.length ss
    if turned then sweeps fuel ss else ss

/-- The unit directions with their images, the columns of the matrix. -/
def start (columns : List (Vec α)) : List (Stretch α) :=
  columns.zipIdx.map fun (c, j) =>
    { direction := (List.range columns.length).map fun i =>
        Scalar.ofRat (if i = j then 1 else 0)
      image := c }

def maxSweeps : Nat := 60

/-- Orthogonal directions with orthogonal images, the largest stretch first. -/
def ofRows (n : Nat) (rows : List (Vec α)) : List (Stretch α) :=
  (sweeps maxSweeps (start (Vec.columns n rows))).mergeSort fun s t =>
    Scalar.le t.factor s.factor

end Stretch

namespace Vec

variable {α : Type} [Scalar α]

/-- How much more the square matrix stretches in one direction than in another. -/
def condition (rows : List (Vec α)) : α :=
  let ss := (Stretch.ofRows rows.length rows).map Stretch.factor
  match ss.head?, ss.getLast? with
  | some a, some b => a / b
  | _, _ => zero

end Vec

end Flange

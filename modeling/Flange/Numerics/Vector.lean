import Flange.Expr.Eval

/-! # Vectors and matrices

Lists of numbers, and lists of rows or columns, with their arithmetic.
-/

namespace Flange

abbrev Vec (α : Type) := List α

namespace Vec

variable {α : Type} [Scalar α]

def zero : α := Scalar.ofRat 0

def sum (x : Vec α) : α := x.foldl (· + ·) zero

def dot (x y : Vec α) : α := sum (List.zipWith (· * ·) x y)

def root (a : α) : α := Scalar.power a (1 / 2)

def norm (x : Vec α) : α := root (dot x x)

def scale (c : α) (x : Vec α) : Vec α := x.map (c * ·)

def add (x y : Vec α) : Vec α := List.zipWith (· + ·) x y

def sub (x y : Vec α) : Vec α := List.zipWith (· - ·) x y

/-- The largest magnitude of an entry. -/
def largest (x : Vec α) : α := x.foldl (fun m a => Scalar.max m (Scalar.abs a)) zero

/-- The sum of the vectors, each of length `n`. -/
def total (n : Nat) (xs : List (Vec α)) : Vec α := xs.foldl add (List.replicate n zero)

/-- The columns of the matrix with the given rows, which have length `n`. -/
def columns (n : Nat) (rows : List (Vec α)) : List (Vec α) :=
  (List.range n).map fun j => rows.map fun r => r.getD j zero

end Vec

end Flange

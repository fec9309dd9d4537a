/-! # Sorted lists -/

namespace Flange

variable {α : Type}

/-- `x` put before the first element that it may precede. -/
def insertBy (le : α → α → Bool) (x : α) : List α → List α
  | [] => [x]
  | y :: ys => if le x y then x :: y :: ys else y :: insertBy le x ys

/-- Sorted by `le`, elements that it makes equal in their order. -/
def sortedBy (le : α → α → Bool) : List α → List α
  | [] => []
  | x :: xs => insertBy le x (sortedBy le xs)

end Flange

import Mathlib.Algebra.Order.Field.Basic
import Mathlib.Tactic.Linarith
import Mathlib.Tactic.Ring
import Flange.Proofs.Reduction.Classes

/-! # Values that get lost

Each step keeps the strong values of a class, or loses one that is close to another, or compares the
only one that is left with a constant. So the values of a class are as close to each other as the
tolerance allows, taken as often as there are values.
-/

namespace Flange

namespace Aliases

variable {ctx : AliasContext} {ks : Constants} {a b : Aliases} {x : Event} {xs : List Event}
  {e sub : Expr} {vs ws : List Var} {r u v w : Var} {p p' c q s g L M : Rat}

/-- No variable of the class of `r` is less than `1 / L` times `r`. -/
def AtLeast (ks : Constants) (xs : List Event) (us : List Var) (r : Var) (L : Rat) : Prop :=
  ∀ v ∈ us, (root ks xs v).2 = r → 1 ≤ L * |(root ks xs v).1|

section Holders

variable (hus : EquationSystem.unknownsIn vs sub = w :: ws) (hx : Merged v w s a b)
include hus hx

end Holders

theorem AtLeast.tail (hx : Passed ks a b x) (h : AtLeast ks (x :: xs) a.unknowns r L) :
    AtLeast ks xs b.unknowns r L := by
  intro u hu hr
  cases hx with
  | dropped e hstrong hweak hunknowns => exact h u (hunknowns ▸ hu) hr
  | ended e vs v sub hus hv hmem hx =>
    obtain ⟨hu, hne⟩ := (hmem u).mp hu
    simpa only [root_of_ne hne] using h u hu (by rwa [root_of_ne hne])
  | merged e vs v sub w ws hus hv hw hmem hx =>
    obtain ⟨hu, hne⟩ := (hmem u).mp hu
    simpa only [root_of_ne hne] using h u hu (by rwa [root_of_ne hne])

end Aliases

end Flange

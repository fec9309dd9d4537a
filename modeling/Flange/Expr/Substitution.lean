import Flange.Expr.Derivative

/-! # Substitution

Symbols are replaced all at once. A replaced function is also replaced under its derivatives,
which become the derivatives of the replacement.
-/

namespace Flange

abbrev Replacement := List (Symbol × Expr)

namespace Expr

/-- What `σ` puts for `s`. -/
def replaceSymbol (σ : Replacement) (s : Symbol) : Expr :=
  match σ.lookup s with
  | some e => e
  | none =>
    match s with
    | .var v =>
      if v.order = 0 then sym s
      else match σ.lookup (.var v.base) with
        | some e => e.timeDerivatives v.order
        | none => sym s
    | s => sym s

/-- The factors of the result of substituting `σ` in `e`. -/
def substituteFactors (σ : Replacement) : Expr → List Expr
  | num q => [num q]
  | sym s => [replaceSymbol σ s]
  | sum a b => [productOf (substituteFactors σ a) + productOf (substituteFactors σ b)]
  | prod a b => productOf (substituteFactors σ a) :: substituteFactors σ b
  | power a q => [(productOf (substituteFactors σ a)).pow q]
  | fn f a => [apply f (productOf (substituteFactors σ a))]
  | sat a => [saturate (productOf (substituteFactors σ a))]
  | gate a b =>
    [gated (productOf (substituteFactors σ a)) (productOf (substituteFactors σ b))]
  | raised a b =>
    [raise (productOf (substituteFactors σ a)) (productOf (substituteFactors σ b))]

def substitute (σ : Replacement) (e : Expr) : Expr :=
  if σ.isEmpty then e else productOf (substituteFactors σ e)

end Expr

end Flange

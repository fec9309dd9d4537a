import Flange.Number.Symbolic
import Flange.Number.Precise

/-! # Constant expressions

The value of an expression over parameters whose values are known.
-/

namespace Flange

/-- Values of parameters. -/
abbrev Constants := List (String × Decimal)

namespace Constants

/-- What an expression is evaluated at when nothing but the constants is known. -/
def valuation (ks : Constants) : Valuation Precise where
  time := .undefined
  par n := match ks.lookup n with
    | some d => .exact d.toRat
    | none => .undefined
  var _ := .undefined

/-- Whether the symbols of `e` are all constants. -/
def determine (ks : Constants) (e : Expr) : Bool :=
  e.symbols.all fun
    | .par n => (ks.lookup n).isSome
    | _ => false

end Constants

namespace Expr

/-- The value of `e`; `none` when it has no real value. -/
def value? (ks : Constants) (e : Expr) : Option Rat := (e.number? ks.valuation).bind Precise.toRat?

end Expr

end Flange

import Flange.Expr.Arithmetic

/-! # Derivatives

One recursion differentiates an expression, given the derivative of each symbol. The partial
derivative treats every derivative of a variable as a symbol of its own; the time derivative
raises its order.
-/

namespace Flange

namespace Expr

/-- The derivative of a product, from each factor paired with its derivative. -/
def leibnizFrom (before : List Expr) : List (Expr × Expr) → Expr
  | [] => zero
  | (e, d) :: rest =>
    let here := if d.isZero then zero
      else (before ++ d :: rest.map Prod.fst).foldl (· * ·) one
    here + leibnizFrom (before ++ [e]) rest

def leibniz : List (Expr × Expr) → Expr
  | [(_, d)] => d
  | ps => leibnizFrom [] ps

/-- The derivative of `f` at the argument `a`. -/
def fnDerivative (f : Fn) (a : Expr) : Expr :=
  match f with
  | .sin => cos a
  | .cos => -(sin a)
  | .tanh => one - (tanh a).pow 2
  | .exp => exp a
  | .log => a.pow (-1)
  | .abs => sign a
  | .sign => num 2 * impulse 0 a
  | .impulse k => impulse (k + 1) a

/-- The factors of `e`, each with its derivative, when `δ s` is the derivative of `s`. -/
def factorDerivatives (δ : Symbol → Expr) : Expr → List (Expr × Expr)
  | num q => [(num q, zero)]
  | sym s => [(sym s, δ s)]
  | sum a b =>
    [(sum a b, leibniz (factorDerivatives δ a) + leibniz (factorDerivatives δ b))]
  | prod a b => (a, leibniz (factorDerivatives δ a)) :: factorDerivatives δ b
  | power a q =>
    let d := leibniz (factorDerivatives δ a)
    [(power a q, if d.isZero then zero
      else if q.den = 1 ∧ 0 < q then d * num q * a.pow (q - 1)
      else power a q * (d * num q * a.pow (-1)))]
  | fn f a =>
    let d := leibniz (factorDerivatives δ a)
    [(fn f a, if d.isZero then zero else fnDerivative f a * d)]
  | sat a => [(sat a, gated a (leibniz (factorDerivatives δ a)))]
  | gate a b => [(gate a b, gated a (leibniz (factorDerivatives δ b)))]
  | raised a b =>
    let da := leibniz (factorDerivatives δ a)
    let db := leibniz (factorDerivatives δ b)
    -- a negative base has the same power with its magnitude, but for the sign
    [(raised a b, if da.isZero && db.isZero then zero
      else raised a b * (db * log (abs a) + da * b * a.pow (-1)))]

def derive (δ : Symbol → Expr) (e : Expr) : Expr := leibniz (factorDerivatives δ e)

/-- The derivative of a symbol with respect to time. -/
def symbolRate : Symbol → Expr
  | .time => one
  | .par _ => zero
  | .var v => var v.der

def timeDerivative (e : Expr) : Expr := e.derive symbolRate

def timeDerivatives (e : Expr) : Nat → Expr
  | 0 => e
  | k + 1 => (e.timeDerivatives k).timeDerivative

/-- The derivative with respect to `s`; with respect to time it is the time derivative. -/
def partialDerivative (s : Symbol) (e : Expr) : Expr :=
  match s with
  | .time => e.timeDerivative
  | s => e.derive fun u => if u = s then one else zero

end Expr

end Flange

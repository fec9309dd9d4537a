import Flange.Symbol

/-! # Expressions

Real expressions over symbols. Sums and products are binary trees; the operations of
`Flange.Expr.Arithmetic` keep them in one normal form, so that equal sums and products are equal
trees.
-/

namespace Flange

inductive Fn
  | sin | cos | tanh | exp | log | abs | sign
  /-- the derivative of that order of the unit impulse, 0 as a function -/
  | impulse (order : Nat)
  deriving DecidableEq, Repr, Inhabited

namespace Fn

def rank : Fn → Nat
  | sin => 0 | cos => 1 | tanh => 2 | exp => 3 | log => 4 | abs => 5 | sign => 6
  | impulse k => 7 + k

end Fn

inductive Expr
  | num (q : Rat)
  | sym (s : Symbol)
  | sum (a b : Expr)
  | prod (a b : Expr)
  | power (a : Expr) (q : Rat)
  | fn (f : Fn) (a : Expr)
  /-- the argument cut to the interval from -1 to 1 -/
  | sat (a : Expr)
  /-- `b` where `a` lies in the interval from -1 to 1, and 0 elsewhere -/
  | gate (a b : Expr)
  /-- `a` to the power `b`, where `b` is no number -/
  | raised (a b : Expr)
  deriving DecidableEq, Repr, Inhabited

namespace Expr

def zero : Expr := num 0

def one : Expr := num 1

def var (v : Var) : Expr := sym (.var v)

def par (n : String) : Expr := sym (.par n)

def time : Expr := sym .time

def isZero : Expr → Bool
  | num q => q == 0
  | _ => false

def rank : Expr → Nat
  | num _ => 0 | sym _ => 1 | power _ _ => 2 | fn _ _ => 3 | sat _ => 4 | gate _ _ => 5
  | prod _ _ => 6 | sum _ _ => 7 | raised _ _ => 8

def cmpRat (a b : Rat) : Ordering :=
  if a < b then .lt else if a = b then .eq else .gt

/-- The order in which terms and factors are kept. -/
def cmp : Expr → Expr → Ordering
  | num a, num b => cmpRat a b
  | sym a, sym b => Symbol.cmp a b
  | sum a b, sum c d => (cmp a c).then (cmp b d)
  | prod a b, prod c d => (cmp a c).then (cmp b d)
  | power a p, power b q => (cmp a b).then (cmpRat p q)
  | fn f a, fn g b => (compare f.rank g.rank).then (cmp a b)
  | sat a, sat b => cmp a b
  | gate a b, gate c d | raised a b, raised c d => (cmp a c).then (cmp b d)
  | a, b => compare a.rank b.rank

/-- Every symbol in `e`, from the left. -/
def symbolList : Expr → List Symbol
  | num _ => []
  | sym s => [s]
  | sum a b | prod a b | gate a b | raised a b => symbolList a ++ symbolList b
  | power a _ | fn _ a | sat a => symbolList a

def symbols (e : Expr) : List Symbol := e.symbolList.eraseDups

def vars (e : Expr) : List Var := e.symbols.filterMap Symbol.var?

/-- The functions of time in `e`, those under a derivative included. -/
def functions (e : Expr) : List Var := (e.vars.map Var.base).eraseDups

def derivatives (e : Expr) : List Var := e.vars.filter Var.isDerivative

def params (e : Expr) : List String := e.symbols.filterMap Symbol.par?

def hasDerivative (e : Expr) : Bool := e.symbolList.any fun
  | .var v => v.isDerivative
  | _ => false

/-- Whether `s` occurs in the symbol `u`: a function occurs in its derivatives. -/
def Mentions (s u : Symbol) : Prop :=
  u = s ∨ match s, u with
    | .var v, .var w => v.order = 0 ∧ w.name = v.name
    | .time, .var _ => True
    | _, _ => False

instance (s u : Symbol) : Decidable (Mentions s u) := by
  unfold Mentions; split <;> infer_instance

def has (e : Expr) (s : Symbol) : Bool := e.symbolList.any fun u => decide (Mentions s u)

/-- No symbol at all occurs in `e`. -/
def isNumber (e : Expr) : Bool := e.symbolList.isEmpty

/-- The displays of all symbols of `e` but time; a derivative also lists its function. -/
def atoms (e : Expr) : List String :=
  let shown := e.symbols.filter (· != .time)
  (sortSymbols (shown ++ e.functions.map .var)).map Symbol.display

end Expr

end Flange

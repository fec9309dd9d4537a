import Flange.Expr.Linear

/-! # First-order form

Derivatives of higher order are replaced by first derivatives of new variables, and the relations
between the new variables become equations.
-/

namespace Flange

/-- Expressions without derivatives of order above one. -/
structure Lowered where
  exprs : List Expr
  newVars : List Var := []
  /-- what each derivative was replaced by -/
  replaced : List (Var × Var) := []

namespace Lowered

/-- `name` with underscores appended until it is none of the taken names. -/
def freshName (taken : List String) : (fuel : Nat) → String → String
  | 0, name => name
  | fuel + 1, name => if taken.contains name then freshName taken fuel (name ++ "_") else name

def fresh (taken : List String) (name : String) : String :=
  freshName taken (taken.length + 1) name

/-- The highest order of each function that has derivatives of order above one. -/
def highestOrders (known : List Var) (es : List Expr) : List (Var × Nat) :=
  let ders := (es.flatMap Expr.derivatives).filter fun d =>
    1 < d.order && !known.contains d.base
  (sortVars (ders.map Var.base)).map fun x =>
    (x, ((ders.filter fun d => d.base == x).map Var.order).foldl max 1)

/-- The new variables for the derivatives of `x` of orders 1 to `k`, with the names they take. -/
def chain (x : Var) : (k : Nat) → List String → List Var × List String
  | 0, taken => ([], taken)
  | k + 1, taken =>
    let (vs, taken) := chain x k taken
    let name := fresh taken (x.der (k + 1)).flatName
    (vs ++ [⟨name, 0⟩], taken ++ [name])

/-- The new variables of all listed functions. -/
def chains : List (Var × Nat) → List String → List (Var × List Var)
  | [], _ => []
  | (x, k) :: rest, taken =>
    let (vs, taken) := chain x (k - 1) taken
    (x, vs) :: chains rest taken

/-- Each new variable is the derivative of the one before it. -/
def relations (x : Var) : List Var → List Expr
  | [] => []
  | v :: vs => (Expr.var v - Expr.var x.der) :: relations v vs

/-- Derivatives of `x` with what stands for them: new variables and, for the highest, the first
derivative of the last of these. -/
def replacements (x : Var) (vs : List Var) : List (Var × Var) :=
  (vs.zipIdx.map fun (v, j) => (x.der (j + 1), v)) ++
    [(x.der (vs.length + 1), (vs.getLast?.getD x).der)]

def replacement (ps : List (Var × Var)) : Replacement :=
  ps.map fun p => (.var p.1, .var p.2)

end Lowered

/-- Lowers the order of all derivatives but those of the known functions. -/
def lowerOrder (known : List Var) (taken : List String) (es : List Expr) : Lowered :=
  match Lowered.highestOrders known es with
  | [] => ⟨es, [], []⟩
  | orders =>
    let cs := Lowered.chains orders taken
    let ps := cs.flatMap fun (x, vs) => Lowered.replacements x vs
    { exprs := es.map (Expr.substitute (Lowered.replacement ps)) ++
        cs.flatMap fun (x, vs) => Lowered.relations x vs
      newVars := cs.flatMap Prod.snd
      replaced := ps }

end Flange

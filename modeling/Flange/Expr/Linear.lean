import Flange.Expr.Substitution
import Flange.Expr.Fraction

/-! # Linear equations

Linear coefficients of single equations, and the elimination that solves a block of equations or
selects independent columns. Coefficients are zero only when they vanish identically.
-/

namespace Flange

namespace Expr

/-- The coefficient `a` of `e = a * s + b`; `none` unless `e` is linear in `s` and `a` does not
vanish identically. -/
def linearCoeff? (e : Expr) (s : Symbol) : Option Expr :=
  let c := e.partialDerivative s
  if c.isZero || c.has s then none else some c

/-- The solution for `s` of the equation `0 = e`, when `e` is linear in `s`. -/
def solveLinear? (e : Expr) (s : Symbol) : Option Expr :=
  (e.linearCoeff? s).map fun c => -(e.substitute [(s, zero)]) / c

/-- No partial derivative of the expressions depends on the symbols. -/
def jointlyLinear (es : List Expr) (ss : List Symbol) : Bool :=
  es.all fun e => ss.all fun s =>
    let c := e.partialDerivative s
    !ss.any fun u => c.has u

end Expr

namespace Fraction

variable (k : Nat)

/-- Index of the row with the shortest entry that is not zero in column `j`. -/
def pivotRow? (j : Nat) (rows : List (List Fraction)) : Option Nat :=
  let cands := rows.zipIdx.filterMap fun (row, i) =>
    match row[j]? with
    | some f => if f.isZero then none else some (f.size, i)
    | none => none
  match cands with
  | [] => none
  | c :: cs => some (cs.foldl (fun b d => if d.1 < b.1 then d else b) c).2

/-- Takes a multiple of `pivot` from `row` so that column `j` becomes zero; `pivot` has 1 there. -/
def clearColumn (j : Nat) (pivot row : List Fraction) : List Fraction :=
  match row[j]? with
  | some f => if f.isZero then row else List.zipWith (fun a p => sub k a (mul k f p)) row pivot
  | none => row

def normalizeRow (j : Nat) (row : List Fraction) : List Fraction :=
  match row[j]? with
  | some f => let g := inv k f; row.map (mul k · g)
  | none => row

/-- Clears the listed columns in turn; the solved rows come back in column order. -/
def eliminate : List Nat → (done rest : List (List Fraction)) → Option (List (List Fraction))
  | [], done, _ => some done
  | j :: js, done, rest =>
    match pivotRow? j rest with
    | none => none
    | some i =>
      match rest[i]? with
      | none => none
      | some row =>
        let pivot := normalizeRow k j row
        eliminate js (done.map (clearColumn k j pivot) ++ [pivot])
          ((rest.eraseIdx i).map (clearColumn k j pivot))

/-- The first columns, from the left, that are independent. -/
def pivots : List Nat → List (List Fraction) → List Nat
  | [], _ => []
  | j :: js, rows =>
    match pivotRow? j rows with
    | none => pivots js rows
    | some i =>
      match rows[i]? with
      | none => pivots js rows
      | some row =>
        let pivot := normalizeRow k j row
        j :: pivots js ((rows.eraseIdx i).map (clearColumn k j pivot))

end Fraction

namespace Expr

/-- The solution of the equations `0 = e` for the symbols, when they are linear in them and their
coefficients are not singular. -/
def solveBlock? (es : List Expr) (ss : List Symbol) : Option (List Expr) :=
  let zeros : Replacement := ss.map fun s => (s, zero)
  let rows := es.map fun e => ss.map (e.partialDerivative ·) ++ [-(e.substitute zeros)]
  let gens := generatorsOf rows.flatten
  let fractions := rows.map fun row => row.map (Fraction.ofExpr gens)
  (Fraction.eliminate gens.length (List.range ss.length) [] fractions).map fun solved =>
    solved.map fun row => ((row[ss.length]?).map (Fraction.toExpr gens)).getD zero

/-- The first independent columns of a matrix of expressions. -/
def pivotColumns (matrix : List (List Expr)) : List Nat :=
  let gens := generatorsOf matrix.flatten
  let width := (matrix.head?.map List.length).getD 0
  Fraction.pivots gens.length (List.range width) (matrix.map (·.map (Fraction.ofExpr gens)))

end Expr

end Flange

import Flange.Expr.Derivative
import Flange.Graph.Augment
import Flange.Reduction.Structure

/-! # Differentiation of equations

Equations are differentiated until all can be matched to highest derivatives. When the search for
an augmenting path fails, the equations it coloured are too many for their highest derivatives:
each of them is differentiated, and so is each variable it coloured.
-/

namespace Flange

/-- Equations and variables are numbered; what is derived from one is appended. -/
structure Differentiation where
  exprs : List Expr
  vars : List Var
  /-- for each equation its variables, ascending -/
  adjacent : List (List Nat)
  /-- the derivative of each variable -/
  derivedVar : List (Option Nat)
  /-- the derivative of each equation -/
  derivedEq : List (Option Nat)
  /-- the equation matched to each variable -/
  assign : Assignment
  deriving Repr

namespace Differentiation

/-- Equations of the given structure, none of them differentiated. -/
def start (s : Structure) (es : List Expr) : Differentiation where
  exprs := es
  vars := s.all
  adjacent := s.perEquation.map fun vs => vs.map s.all.idxOf
  derivedVar := s.all.map fun v => s.all.findIdx? (· == v.der)
  derivedEq := es.map fun _ => none
  assign := s.all.map fun _ => none

variable (d : Differentiation)

def derivedVarOf (j : Nat) : Option Nat := (d.derivedVar[j]?).join

def derivedEqOf (i : Nat) : Option Nat := (d.derivedEq[i]?).join

/-- The nodes left when every variable with a derivative is taken out. -/
def withoutDerived {ν : Type} [BEq ν] (nodes vars : List ν) (derived : List (Option Nat)) :
    List ν :=
  nodes.filter fun v => !(vars.zip derived).any fun p => p.1 == v && p.2.isSome

/-- The variables of equation `i` that are highest derivatives. -/
def highest (i : Nat) : List Nat :=
  (d.adjacent.getD i []).filter fun j => (d.derivedVarOf j).isNone

/-- Appends the derivative of variable `j`. -/
def differentiateVar (j : Nat) : Differentiation :=
  { d with
    vars := d.vars ++ [(d.vars.getD j default).der]
    derivedVar := d.derivedVar.set j (some d.vars.length) ++ [none]
    assign := d.assign ++ [none] }

def ascending (is : List Nat) : List Nat := sortedBy (fun a b => decide (a ≤ b)) is

/-- The variables of the derivative of an equation: those of the equation and their
derivatives. -/
def differentiatedRow (row : List Nat) : List Nat :=
  ascending (row ++ row.filterMap d.derivedVarOf).eraseDups

/-- Appends the derivative of equation `i`. -/
def differentiateEq (i : Nat) : Differentiation :=
  { d with
    exprs := d.exprs ++ [(d.exprs.getD i .zero).timeDerivative]
    adjacent := d.adjacent ++ [d.differentiatedRow (d.adjacent.getD i [])]
    derivedEq := d.derivedEq.set i (some d.exprs.length) ++ [none] }

/-- Matches the derivative of variable `j` to the derivative of its equation. -/
def carryMatch (j : Nat) : Differentiation :=
  match d.derivedVarOf j with
  | none => d
  | some k => { d with assign := d.assign.set k (((d.assign[j]?).join).bind d.derivedEqOf) }

/-- Differentiates what a failed search has coloured. -/
def differentiate (s : Search) : Differentiation :=
  let vars := ascending s.redVariables
  let d := vars.foldl differentiateVar d
  let d := (ascending s.redEquations).foldl differentiateEq d
  vars.foldl carryMatch d

/-- Matches equation `i`, or a derivative of it, in at most `steps` searches. -/
def matchFrom : (steps i : Nat) → Differentiation → Option Differentiation
  | 0, _, _ => none
  | steps + 1, i, d =>
    match augment d.highest d.assign i with
    | (true, s) => some { d with assign := s.assign }
    | (false, s) =>
      let d := d.differentiate s
      match d.derivedEqOf i with
      | none => none
      | some k => matchFrom steps k d

/-- Matches the equations from `k` on. -/
def matchAll (steps : Nat) : List Nat → Differentiation → Except ModelError Differentiation
  | [], d => .ok d
  | k :: ks, d =>
    match matchFrom steps k d with
    | some d => matchAll steps ks d
    | none =>
      .error
        { cause := .reduction (.stepsExceeded steps k), equations := (d.exprs[k]?).toList }

/-- Equations that have not been differentiated, in order. -/
def leaves : List Nat :=
  (List.range d.exprs.length).filter fun i => (d.derivedEqOf i).isNone

/-- The variable that equation `i` is matched to. -/
def matchedVar? (i : Nat) : Option Nat :=
  ((List.range d.vars.length).filter fun j => (d.assign[j]?).join == some i).getLast?

def var (j : Nat) : Var := d.vars.getD j default

/-- The equation that equation `i` is the derivative of. -/
def parent? (i : Nat) : Option Nat :=
  (List.range d.exprs.length).find? fun k => d.derivedEqOf k == some i

end Differentiation

/-- Differentiates equations until all are matched to highest derivatives. -/
def Structure.differentiate (s : Structure) (es : List Expr) (steps : Nat) :
    Except ModelError Differentiation :=
  Differentiation.matchAll steps (List.range s.size) (Differentiation.start s es)

end Flange

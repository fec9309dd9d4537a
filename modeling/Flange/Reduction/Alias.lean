import Flange.Expr.Linear
import Flange.System
import Flange.Run

/-! # Aliases

An equation that makes an unknown equal to another one up to sign, or to a constant, is solved for
the unknown. The solution goes into all other equations and the equation is dropped. This repeats
until no such equation is left.
-/

namespace Flange

/-- Equal up to a relative and an absolute tolerance. -/
def isClose (a b : Rat) : Bool :=
  (a - b).abs ≤ mkRat 1 100000000 + mkRat 1 100000 * b.abs

/-- What stays the same while aliases are eliminated. -/
structure AliasContext where
  knowns : Constants
  /-- the declared kinds of functions -/
  kind? : Var → Option SymKind
  /-- the largest value, relative or absolute, that counts as zero -/
  tolerance : Rat := mkRat 1 10000000000

structure Aliases where
  exprs : List Expr
  /-- the unknowns left -/
  unknowns : List Var
  observed : Observed := []
  strong : InitialValues := []
  weak : InitialValues := []
  warnings : List String := []

/-- What is done with an equation. -/
inductive AliasAction
  | drop
  | eliminate (v : Var) (solution : Expr)

namespace AliasContext

variable (ctx : AliasContext)

/-- Outputs go first, then potentials and flows, then variables, then the rest. -/
def rank (v : Var) : Nat :=
  match ctx.kind? v with
  | some .outp => 0
  | some .pot => 1
  | some .flow => 1
  | some .var => 2
  | _ => 3

/-- Whether `v` is rather eliminated than `w`. -/
def before (differentiated : List Var) (v w : Var) : Bool :=
  let dv := differentiated.contains v
  let dw := differentiated.contains w
  if dv != dw then dw
  else if ctx.rank v != ctx.rank w then ctx.rank v < ctx.rank w
  else v.display ≤ w.display

/-- The solution `v = -rest / coeff` when both are constants. -/
def matchConstant (e : Expr) (v : Var) : Option (Var × Expr) := do
  let coeff ← e.linearCoeff? (.var v)
  let rest := e.substitute [(.var v, .zero)]
  if ctx.knowns.determine coeff && ctx.knowns.determine rest then some (v, -rest / coeff)
  else none

/-- The solution `v = w` or `v = -w` when `e` is `c * v + c * w` or `c * v - c * w`. -/
def matchPair (differentiated : List Var) (e : Expr) (v w : Var) : Option (Var × Expr) := do
  let cv ← e.linearCoeff? (.var v)
  let cw ← e.linearCoeff? (.var w)
  if cv.isNumber && cw.isNumber && (cv == cw || cv == -cw) &&
      (e.substitute [(.var v, .zero), (.var w, .zero)]).isZero then
    if ctx.before differentiated v w then some (v, -cw / cv * .var w)
    else some (w, -cv / cw * .var v)
  else none

/-- The unknown that `e` gives, and its value. -/
def match? (unknowns differentiated : List Var) (e : Expr) : Option (Var × Expr) :=
  if e.hasDerivative then none
  else match EquationSystem.unknownsIn unknowns e with
  | [v] => ctx.matchConstant e v
  | [v, w] => ctx.matchPair differentiated e v w
  | _ => none

def refuse (cause : ReductionCause) (equations : List Expr) (symbols : List Symbol := []) :
    Failure :=
  .model { cause := .reduction cause, equations, symbols }

/-- Why an equation without unknowns cannot be dropped. One that has no value is dropped: it is not
larger than the tolerance. -/
def trivialFault? (e : Expr) : Option Failure :=
  if e.isZero then none
  else if !e.functions.isEmpty then some (refuse .onlyInputs [e])
  else if !ctx.knowns.determine e then some (refuse .onlyTimeAndParameters [e])
  else match e.number? ctx.knowns.valuation with
  | none => some .notReal
  | some x =>
    match x.toRat? with
    | none => none
    | some q =>
      if ctx.tolerance * (if q.abs < 1 then 1 else q.abs) < q.abs then
        some (refuse (.contradictoryConstant (NumberFormat.standard.render q)) [e])
      else none

/-- What to do with `e`, if anything. -/
def action? (unknowns differentiated : List Var) (e : Expr) :
    Except Failure (Option AliasAction) :=
  if (EquationSystem.unknownsIn unknowns e).isEmpty then
    if e.hasDerivative then .ok none
    else match ctx.trivialFault? e with
    | some f => .error f
    | none => .ok (some .drop)
  else .ok ((ctx.match? unknowns differentiated e).map fun p => .eliminate p.1 p.2)

/-- The first equation that something is to be done with. -/
def scan (unknowns differentiated : List Var) :
    List Expr → Nat → Except Failure (Option (Nat × AliasAction))
  | [], _ => .ok none
  | e :: es, i =>
    match ctx.action? unknowns differentiated e with
    | .error f => .error f
    | .ok (some a) => .ok (some (i, a))
    | .ok none => scan unknowns differentiated es (i + 1)

end AliasContext

namespace Aliases

open NumberFormat

/-- The value `q` is close to the number, if that is one. -/
def agrees (c : Precise) (q : Rat) : Bool := c.toRat?.any (isClose q)

/-- The value of an alias that is a constant is compared with the initial values of `v`. -/
def checkConstant (ctx : AliasContext) (s : Aliases) (v : Var) (sub : Expr)
    (strong weak : Option Rat) : Except (Failure × Aliases) Aliases :=
  match sub.number? ctx.knowns.valuation with
  | none => .error (.notReal, s)
  | some c =>
    if strong.any fun q => !agrees c q then
      let value := (strong.map standard.render).getD ""
      .error (AliasContext.refuse (.conflictWithConstant v value c.render) [] [.var v], s)
    else
      match weak.filter fun q => !agrees c q with
      | none => .ok s
      | some q =>
        let warning := s!"Weak initial value {standard.render q} of {v.display} ignored, " ++
          s!"it equals the constant {c.render}."
        .ok { s with warnings := s.warnings ++ [warning] }

/-- Gives `w` the strong value that it has from its alias `v = s * w`. -/
def carryStrong (a : Aliases) (v w : Var) (s : Rat) :
    Option Rat → Except (Failure × Aliases) Aliases
  | none => .ok a
  | some q =>
    match a.strong.lookup w with
    | some r =>
      if isClose r (q / s) then .ok a
      else
        .error (AliasContext.refuse
          (.conflictOfAliases v w (standard.render q) (standard.render (r * s))) []
          [.var v, .var w], a)
    | none => .ok { a with strong := a.strong.set w (q / s), weak := a.weak.erase w }

/-- Gives `w` the weak value that it has from its alias `v = s * w`, unless it has another. -/
def carryWeak (a : Aliases) (v w : Var) (s : Rat) : Option Rat → Aliases
  | none => a
  | some q =>
    if a.strong.has w then a
    else match a.weak.lookup w with
    | some r =>
      if isClose r (q / s) then { a with weak := a.weak.set w (q / s) }
      else
        let warning := s!"Conflicting weak ICs for {w.display}={standard.render r} and aliasee " ++
          s!"{v.display} ic={standard.render (q / s)}, ignoring the latter."
        { a with warnings := a.warnings ++ [warning] }
    | none => { a with weak := a.weak.set w (q / s) }

/-- Moves the initial values of `v`, which equals `sub`, to the variable in `sub`. -/
def carry (ctx : AliasContext) (a : Aliases) (v : Var) (sub : Expr) :
    Except (Failure × Aliases) Aliases :=
  let strong := a.strong.lookup v
  let weak := a.weak.lookup v
  let a := { a with strong := a.strong.erase v, weak := a.weak.erase v }
  if strong.isNone && weak.isNone then .ok a
  else match EquationSystem.unknownsIn a.unknowns sub with
  | [] => checkConstant ctx a v sub strong weak
  | w :: _ =>
    match (sub.substitute [(.var w, .one)]).value? ctx.knowns with
    | none => .error (.notReal, a)
    | some s => (carryStrong a v w s strong).map fun a => carryWeak a v w s weak

/-- Eliminates `v`, which equation `i` makes equal to `sub`. -/
def eliminate (ctx : AliasContext) (a : Aliases) (i : Nat) (v : Var) (sub : Expr) :
    Except (Failure × Aliases) Aliases :=
  let σ : Replacement := [(.var v, sub)]
  carry ctx
    { a with
      exprs := (a.exprs.eraseIdx i).map (Expr.substitute σ)
      unknowns := a.unknowns.filter fun w => w != v
      observed := Observed.set (a.observed.map fun p => (p.1, p.2.substitute σ)) v sub }
    v sub

def differentiated (a : Aliases) : List Var :=
  (a.exprs.flatMap fun e => e.derivatives.map Var.base).eraseDups

/-- One elimination, or `none` when nothing is left to do. -/
def step (ctx : AliasContext) (a : Aliases) : Except (Failure × Aliases) (Option Aliases) :=
  match ctx.scan a.unknowns a.differentiated a.exprs 0 with
  | .error f => .error (f, a)
  | .ok none => .ok none
  | .ok (some (i, .drop)) => .ok (some { a with exprs := a.exprs.eraseIdx i })
  | .ok (some (i, .eliminate v sub)) => (eliminate ctx a i v sub).map some

/-- Steps until nothing is left to do; each step takes one equation. -/
def steps (ctx : AliasContext) : (fuel : Nat) → Aliases → Except (Failure × Aliases) Aliases
  | 0, a => .ok a
  | fuel + 1, a =>
    match step ctx a with
    | .error f => .error f
    | .ok none => .ok a
    | .ok (some b) => steps ctx fuel b

/-- Eliminates all aliases; a refusal comes with what was eliminated before it. -/
def run (ctx : AliasContext) (a : Aliases) : Except (Failure × Aliases) Aliases :=
  steps ctx (a.exprs.length + 1) a

/-- The unknowns of a system with its equations, before any elimination. -/
def ofSystem (s : EquationSystem) : Aliases :=
  { exprs := s.exprs, unknowns := s.unknowns, observed := s.observed, strong := s.strong
    weak := s.weak }

def contextOf (s : EquationSystem) : AliasContext := { knowns := s.knowns, kind? := s.kind? }

def summaryLine (a : Aliases) : LogLine :=
  ⟨.debug, s!"AliasElimination eliminated {a.observed.length} variables, " ++
    s!"{a.exprs.length} equations remain.", []⟩

end Aliases

end Flange

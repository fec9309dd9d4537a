import Flange.Numerics.SingularValues

/-! # Least squares

A point where the sum of the squares of some functions is least, found by linear steps that are
kept within a trusted radius. The radius grows and shrinks with the quality of the steps.
-/

namespace Flange

structure LeastSquares (α : Type) where
  /-- the functions at a point -/
  residuals : Vec α → Vec α
  /-- for each function its partial derivatives -/
  jacobian : Vec α → List (Vec α)
  start : Vec α

/-- The search, between two steps. -/
structure TrustSearch (α : Type) where
  point : Vec α
  residuals : Vec α
  /-- half the sum of squares -/
  cost : α
  radius : α
  damping : α
  evaluations : Nat

/-- The linear problem at a point. -/
structure LocalModel (α : Type) where
  rows : List (Vec α)
  gradient : Vec α
  stretches : List (Stretch α)
  /-- components of the residuals along the images -/
  components : Vec α

namespace LeastSquares

variable {α : Type} [Scalar α]

/-- The relative change of cost and point, and the gradient, that count as zero. -/
def tolerance : α := Scalar.ofRat (mkRat 1 1000000000000)

def half : α := Scalar.ofRat (1 / 2)

def costOf (f : Vec α) : α := half * Vec.dot f f

def localModel (rows : List (Vec α)) (n : Nat) (f : Vec α) : LocalModel α :=
  let ss := Stretch.ofRows n rows
  { rows
    gradient := (Vec.columns n rows).map (Vec.dot · f)
    stretches := ss
    components := ss.map fun s =>
      let c := s.factor
      if Scalar.lt Vec.zero c then Vec.dot s.image f / c else Vec.zero }

end LeastSquares

namespace LocalModel

variable {α : Type} [Scalar α] (m : LocalModel α)

def factors : Vec α := m.stretches.map Stretch.factor

/-- The step with the given components along the directions. -/
def stepAlong (cs : Vec α) : Vec α :=
  Vec.total m.stretches.length
    (List.zipWith (fun s c => Vec.scale (-c) s.direction) m.stretches cs)

/-- Whether a factor is lost in rounding beside the largest one. -/
def isLost (factor : α) : Bool :=
  match m.factors.head? with
  | some a => !Scalar.lt (Scalar.ofRat (Stretch.precision * m.rows.length) * a) factor
  | none => true

/-- Whether no stretch is lost in rounding. -/
def isRegular : Bool :=
  decide (m.stretches.length ≤ m.rows.length) && m.factors.all fun s => !m.isLost s

/-- By how much the damped step is longer than the radius, and how fast that falls with the
damping. -/
def excess (radius damping : α) : α × α :=
  let suf := List.zipWith (· * ·) m.factors m.components
  let denom := m.factors.map fun s => s * s + damping
  let len := Vec.norm (List.zipWith (· / ·) suf denom)
  let slope := Vec.sum (List.zipWith (fun a d => a * a / (d * d * d)) suf denom)
  (len - radius, -(slope / len))

/-- Bounds of the damping, and the damping. -/
structure Damping (α : Type) where
  lower : α
  upper : α
  value : α

/-- A damping between the bounds. -/
def middle (lower upper : α) : α :=
  Scalar.max (Scalar.ofRat (1 / 1000) * upper) (Vec.root (lower * upper))

/-- Corrects the damping until the step is about as long as the radius. -/
def adjust (radius : α) : (fuel : Nat) → Damping α → α
  | 0, d => d.value
  | fuel + 1, d =>
    let a := if Scalar.lt d.value d.lower || Scalar.lt d.upper d.value
      then middle d.lower d.upper else d.value
    let (phi, slope) := m.excess radius a
    let upper := if Scalar.lt phi Vec.zero then a else d.upper
    let ratio := phi / slope
    let lower := Scalar.max d.lower (a - ratio)
    let next := a - (phi + radius) * ratio / radius
    if Scalar.lt (Scalar.abs phi) (Scalar.ofRat (1 / 100) * radius) then next
    else adjust radius fuel ⟨lower, upper, next⟩

/-- The shortest step to the least sum of squares of the linear problem. Along a stretch that is
lost in rounding it does not move. -/
def shortest : Vec α :=
  m.stepAlong (List.zipWith (fun c s => if m.isLost s then Vec.zero else c / s)
    m.components m.factors)

/-- The step that the linear problem asks for within the radius, with its damping. -/
def step (radius damping : α) : Vec α × α :=
  let newton := m.shortest
  if Scalar.le (Vec.norm newton) radius then (newton, Vec.zero)
  else
    let suf := List.zipWith (· * ·) m.factors m.components
    let upper := Vec.norm suf / radius
    let (phi, slope) := m.excess radius Vec.zero
    let lower := if m.isRegular then -(phi / slope) else Vec.zero
    let isZero := Scalar.le damping Vec.zero && Scalar.le Vec.zero damping
    let first := if !m.isRegular && isZero then middle lower upper else damping
    let a := m.adjust radius 10 ⟨lower, upper, first⟩
    let p := m.stepAlong (List.zipWith (fun c s => c / (s * s + a)) suf m.factors)
    (Vec.scale (radius / Vec.norm p) p, a)

/-- The decrease of the cost that the linear problem promises for a step. -/
def predicted (p : Vec α) : α :=
  let js := m.rows.map (Vec.dot · p)
  Vec.zero - (LeastSquares.half * Vec.dot js js + Vec.dot p m.gradient)

end LocalModel

namespace LeastSquares

variable {α : Type} [Scalar α]

/-- The radius after a step of the given quality. -/
def nextRadius (radius actual predicted length : α) : α × α :=
  let ratio := if Scalar.lt Vec.zero predicted then actual / predicted
    else if Scalar.le predicted Vec.zero && Scalar.le Vec.zero predicted &&
        Scalar.le actual Vec.zero && Scalar.le Vec.zero actual then Scalar.ofRat 1
    else Vec.zero
  let bounded := Scalar.lt (Scalar.ofRat (95 / 100) * radius) length
  if Scalar.lt ratio (Scalar.ofRat (1 / 4)) then (Scalar.ofRat (1 / 4) * length, ratio)
  else if Scalar.lt (Scalar.ofRat (3 / 4)) ratio && bounded then
    (radius * Scalar.ofRat 2, ratio)
  else (radius, ratio)

/-- Whether cost or point hardly change any more. -/
def isSettled (actual cost length size ratio : α) : Bool :=
  (Scalar.lt actual (tolerance * cost) && Scalar.lt (Scalar.ofRat (1 / 4)) ratio) ||
    Scalar.lt length (tolerance * (tolerance + size))

/-- The outcome of the trials at one point. -/
inductive Trial (α : Type)
  /-- a better point, and whether the search ends there -/
  | moved (s : TrustSearch α) (settled : Bool)
  | stuck

/-- Shrinks the radius until a step lowers the cost. -/
def tryStep (p : LeastSquares α) (m : LocalModel α) (limit : Nat) :
    (fuel : Nat) → TrustSearch α → Trial α
  | 0, _ => .stuck
  | fuel + 1, s =>
    if limit ≤ s.evaluations then .stuck
    else
      let (step, damping) := m.step s.radius s.damping
      let point := Vec.add s.point step
      let f := p.residuals point
      let length := Vec.norm step
      let evaluations := s.evaluations + 1
      if !f.all Scalar.isFinite then
        tryStep p m limit fuel
          { s with radius := Scalar.ofRat (1 / 4) * length, damping, evaluations }
      else
        let cost := costOf f
        let actual := s.cost - cost
        let (radius, ratio) := nextRadius s.radius actual (m.predicted step) length
        let settled := isSettled actual s.cost length (Vec.norm s.point) ratio
        let damping := if settled then damping else damping * (s.radius / radius)
        let radius := if settled then s.radius else radius
        if Scalar.lt Vec.zero actual then
          .moved ⟨point, f, cost, radius, damping, evaluations⟩ settled
        else if settled then .stuck
        else tryStep p m limit fuel { s with radius, damping, evaluations }

def isFinite (rows : List (Vec α)) : Bool := rows.all fun r => r.all Scalar.isFinite

/-- Steps until the search ends; `none` where a partial derivative is not finite. -/
def search (p : LeastSquares α) (n limit : Nat) : (fuel : Nat) → TrustSearch α → Option (Vec α)
  | 0, s => some s.point
  | fuel + 1, s =>
    if limit ≤ s.evaluations then some s.point
    else
      let rows := p.jacobian s.point
      let m := localModel rows n s.residuals
      if !isFinite rows then none
      else if Scalar.lt (Vec.largest m.gradient) tolerance then some s.point
      else
        match tryStep p m limit limit s with
        | .stuck => some s.point
        | .moved t true => some t.point
        | .moved t false => search p n limit fuel t

/-- The point found from the start with at most `limit` evaluations. -/
def solve (p : LeastSquares α) (limit : Option Nat := none) : Option (Vec α) :=
  let n := p.start.length
  let limit := limit.getD (100 * n)
  let f := p.residuals p.start
  let size := Vec.norm p.start
  let radius := if Scalar.lt Vec.zero size then size else Scalar.ofRat 1
  search p n limit limit ⟨p.start, f, costOf f, radius, Vec.zero, 1⟩

end LeastSquares

end Flange

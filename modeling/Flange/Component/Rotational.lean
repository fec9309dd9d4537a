import Flange.Component.Template
import Flange.Expr.Derivative

/-! # Rotational components

The templates of one-dimensional rotational mechanics. The potential of a flange is an angle, its
flow is a torque, positive into the component.
-/

namespace Flange

namespace Rotational

open Flange.Expr

/-- Declares a parameter whose value must satisfy `r`, and says so in the words of `rule`. -/
def checked (key : String) (value : Option Decimal) (r : Requirement) (rule : String) :
    Declare Quantity := do
  let c ← get
  Declare.parameter key value (some r)
    (some ("Component " ++ c.interface.template ++ " " ++ c.name ++ " must have " ++ rule))

def positive (key : String) (value : Option Decimal) : Declare Quantity :=
  checked key value (.above 0) (key ++ ">0")

def nonnegative (key : String) (value : Option Decimal) : Declare Quantity :=
  checked key value (.atLeast 0) (key ++ ">=0")

/-- Angle and torque of both flanges. -/
structure TwoFlanges where
  phiA : Quantity
  tauA : Quantity
  phiB : Quantity
  tauB : Quantity

def twoFlanges : Declare TwoFlanges := do
  let (phiA, tauA) ← Declare.flange "flange_a"
  let (phiB, tauB) ← Declare.flange "flange_b" "b"
  return ⟨phiA, tauA, phiB, tauB⟩

/-- Two flanges between which no torque is lost. -/
def balancedFlanges : Declare TwoFlanges := do
  let f ← twoFlanges
  Declare.equation zero (f.tauA.expr + f.tauB.expr)
  return f

/-- Two flanges with their relative angle. -/
def compliantFlanges : Declare (TwoFlanges × Quantity) := do
  let f ← balancedFlanges
  let phiRel ← Declare.own "phi_rel" .var
  Declare.equation phiRel.expr (f.phiB.expr - f.phiA.expr)
  return (f, phiRel)

/-- The angle of the support and, when there is one, its torque. -/
def support (used : Bool) : Declare (Expr × Option Quantity) := do
  if used then
    let (phi, tau) ← Declare.flange "support"
    return (phi.expr, some tau)
  else return (zero, none)

def oneFlange (template : String) : Interface := { template, connectors := ["flange"] }

def oneFlangeSupported (template : String) : Interface :=
  { template, connectors := ["flange"], optional := ["support"] }

def twoFlange (template : String) : Interface :=
  { template, connectors := ["flange_a", "flange_b"] }

def oneUnit : Option Decimal := some ⟨10, 1⟩

def noOffset : Option Decimal := some ⟨0, 1⟩

/-- `J * der w = tau_a + tau_b` with `w = der phi`. -/
def inertia : Template where
  interface := twoFlange "Inertia"
  build a := do
    let f ← twoFlanges
    let J ← positive "J" (a.number "J" oneUnit)
    let phi ← Declare.own "phi" .var { initial := a.number "phi", isFixed := a.flag "phi_fixed" }
    let w ← Declare.own "w" .var { initial := a.number "w", isFixed := a.flag "w_fixed" }
    Declare.equation f.phiA.expr phi.expr
    Declare.equation f.phiB.expr phi.expr
    Declare.equation w.expr phi.rate
    Declare.equation (J.expr * w.rate) (f.tauA.expr + f.tauB.expr)

/-- `tau_b = c * (phi_rel - phi_rel0)`. -/
def spring : Template where
  interface := twoFlange "Spring"
  build a := do
    let (f, phiRel) ← compliantFlanges
    let c ← positive "c" (a.number "c" oneUnit)
    let phiRel0 ← Declare.parameter "phi_rel0" (a.number "phi_rel0" noOffset)
    Declare.equation f.tauB.expr (c.expr * (phiRel.expr - phiRel0.expr))

/-- `tau_b = d * (der phi_b - der phi_a)`. -/
def damper : Template where
  interface := twoFlange "Damper"
  build a := do
    let f ← balancedFlanges
    let d ← positive "d" (a.number "d" oneUnit)
    Declare.equation f.tauB.expr (d.expr * (f.phiB.rate - f.phiA.rate))

/-- A spring and a damper in parallel. -/
def springDamper : Template where
  interface := twoFlange "SpringDamper"
  build a := do
    let (f, phiRel) ← compliantFlanges
    let c ← positive "c" (a.number "c" oneUnit)
    let d ← nonnegative "d" (a.number "d" oneUnit)
    let phiRel0 ← Declare.parameter "phi_rel0" (a.number "phi_rel0" noOffset)
    Declare.equation f.tauB.expr
      (c.expr * (phiRel.expr - phiRel0.expr) + d.expr * phiRel.rate)

/-- A gear without inertia; `ratio` is the speed of `flange_a` over that of `flange_b`. -/
def idealGear : Template where
  interface :=
    { template := "IdealGear", connectors := ["flange_a", "flange_b"], optional := ["support"]
      exclusive := [("flange_a", "flange_b")] }
  build a := do
    let f ← twoFlanges
    let (phiS, tauS) ← support (a.flag "use_support")
    let r ← checked "ratio" (a.number "ratio" oneUnit) .nonzero "ratio!=0"
    Declare.equation (f.phiB.expr - phiS) ((f.phiA.expr - phiS) / r.expr)
    Declare.equation f.tauA.expr (-f.tauB.expr / r.expr)
    match tauS with
    | some tau => Declare.equation tau.expr (-(f.tauA.expr + f.tauB.expr))
    | none => pure ()

/-- The steep part of the friction torque near rest. -/
def coulombTorque (smooth : Bool) (tauC w wBrk : Expr) : Expr :=
  let x := w / (wBrk / num 10)
  tauC * (if smooth then tanh x else saturate x)

/-- The part of the friction torque that must be overcome to break away. -/
def stribeckTorque (tauBrk tauC w wBrk : Expr) : Expr :=
  let wSt := wBrk * sqrt (num 2)
  sqrt (num 2 * par "constants_e") * (tauBrk - tauC) * exp (-((w / wSt).pow 2)) * w / wSt

/-- Coulomb, viscous and, with a breakaway torque, Stribeck friction. -/
def friction : Template where
  interface := twoFlange "Friction"
  build a := do
    let formulation := a.text "formulation" "smooth"
    if ["smooth", "regularized"].contains formulation then
      let g ← balancedFlanges
      let f ← nonnegative "f" (a.number "f" (some ⟨1, 3⟩))
      let tauC ← nonnegative "tau_c" (a.number "tau_c" (some ⟨200, 1⟩))
      let wBrk ← positive "w_brk" (a.number "w_brk" (some ⟨6283, 5⟩))
      let wRel ← Declare.own "w_rel" .var
      let coulomb := coulombTorque (formulation == "smooth") tauC.expr wRel.expr wBrk.expr
      let stribeck ← match a.number "tau_brk" with
        | none => pure zero
        | some v =>
          let tauBrk ← nonnegative "tau_brk" (some v)
          pure (stribeckTorque tauBrk.expr tauC.expr wRel.expr wBrk.expr)
      Declare.equation wRel.expr (g.phiB.rate - g.phiA.rate)
      Declare.equation g.tauB.expr (stribeck + coulomb + f.expr * wRel.expr)
    else
      let c ← get
      Declare.refuseAlone (.unknownFormulation c.interface.template c.name formulation)

/-- A flange that does not move. -/
def fixed : Template where
  interface := oneFlange "Fixed"
  build a := do
    let (phi, _) ← Declare.flange "flange"
    let phi0 ← Declare.parameter "phi0" (a.number "phi0" noOffset)
    Declare.equation phi.expr phi0.expr

/-- The torque `drive` on the flange, with its reaction on the support. -/
def sourceEquations (tau : Quantity) (tauS : Option Quantity) (drive : Expr) : Declare Unit := do
  Declare.equation tau.expr (-drive)
  match tauS with
  | some s => Declare.equation s.expr drive
  | none => pure ()

/-- A torque read from the input `tau`. -/
def torque : Template where
  interface := oneFlangeSupported "Torque"
  build a := do
    let (_, tau) ← Declare.flange "flange"
    let (_, tauS) ← support (a.flag "use_support")
    let drive ← Declare.own "tau" .inp
    sourceEquations tau tauS drive.expr

def constantTorque : Template where
  interface := oneFlangeSupported "ConstantTorque"
  build a := do
    let (_, tau) ← Declare.flange "flange"
    let (_, tauS) ← support (a.flag "use_support")
    let drive ← Declare.parameter "tau_constant" (a.number "tau_constant" oneUnit)
    sourceEquations tau tauS drive.expr

/-- The speed of the flange against the support follows the input `w_ref`. -/
def speed : Template where
  interface := oneFlangeSupported "Speed"
  build a := do
    let (phi, tau) ← Declare.flange "flange"
    let (phiS, tauS) ← support (a.flag "use_support")
    let wRef ← Declare.own "w_ref" .inp
    Declare.equation (phi.expr - phiS).timeDerivative wRef.expr
    match tauS with
    | some s => Declare.equation s.expr (-tau.expr)
    | none => pure ()

/-- A flange without torque whose state is read as the output `key`. -/
def sensor (key : String) (reading : Quantity → Expr) : Declare Unit := do
  let (phi, tau) ← Declare.flange "flange"
  let out ← Declare.own key .outp
  Declare.equation out.expr (reading phi) .outp
  Declare.equation tau.expr zero

def angleSensor : Template where
  interface := oneFlange "AngleSensor"
  build _ := sensor "phi" Quantity.expr

def speedSensor : Template where
  interface := oneFlange "SpeedSensor"
  build _ := sensor "w" Quantity.rate

/-- The speed of `flange_b` relative to `flange_a`. -/
def relSpeedSensor : Template where
  interface := twoFlange "RelSpeedSensor"
  build _ := do
    let f ← twoFlanges
    let w ← Declare.own "w_rel" .outp
    Declare.equation w.expr (f.phiB.rate - f.phiA.rate) .outp
    Declare.equation f.tauA.expr zero
    Declare.equation f.tauB.expr zero

/-- The torque that passes from `flange_a` to `flange_b`. -/
def torqueSensor : Template where
  interface := twoFlange "TorqueSensor"
  build _ := do
    let f ← balancedFlanges
    let tau ← Declare.own "tau" .outp
    Declare.equation tau.expr f.tauA.expr .outp
    Declare.equation f.phiA.expr f.phiB.expr

def templates : List Template :=
  [inertia, spring, damper, springDamper, idealGear, friction, fixed, torque, constantTorque,
    speed, angleSensor, speedSensor, relSpeedSensor, torqueSensor]

def template? (name : String) : Option Template := templates.find? fun t => t.name == name

end Rotational

end Flange

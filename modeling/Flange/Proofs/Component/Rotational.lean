import Flange.Component.Rotational
import Flange.Proofs.Component.Declare

/-! # What the rotational templates build

A component of each template, by its ports, its equations, its variables and the parameters whose
values are restricted. Setting the value of a parameter changes none of them.
-/

namespace Flange

/-- A quantity of the component `name` that is not a parameter, by its name in the component. -/
def Var.inner (name key : String) : Var := ⟨name ++ "_" ++ key, 0⟩

/-- The names of the parameters whose values must satisfy a requirement, with it. -/
def Component.restrictions (c : Component) : List (String × Requirement) :=
  (c.ofKind .param).filterMap fun q => q.requirement.map fun r => (q.name, r)

/-- The quantities that are neither parameters nor inputs. -/
def Component.variables (c : Component) : List Quantity :=
  c.quantities.filter fun q => q.kind != .param && q.kind != .inp

/-- The quantity with the value `v`, if it has the name `n`. -/
def Quantity.assign (n : String) (v : Decimal) (q : Quantity) : Quantity :=
  if q.name = n then { q with value := some v } else q

theorem Quantity.assign_eq (n : String) (v : Decimal) (q : Quantity) :
    ∃ u, q.assign n v = { q with value := u } ∧ (q.value.isSome → u.isSome) := by
  rw [assign]
  split
  · exact ⟨some v, rfl, fun _ => rfl⟩
  · exact ⟨q.value, rfl, id⟩

/-- What does not depend on the value of a quantity is not changed by setting it. -/
theorem Quantity.comp_assign {α : Type} {f : Quantity → α}
    (hf : ∀ q u, f { q with value := u } = f q) (n : String) (v : Decimal) :
    f ∘ Quantity.assign n v = f := by
  funext q
  obtain ⟨u, heq, -⟩ := q.assign_eq n v
  rw [Function.comp_apply, heq, hf]

theorem Quantity.Declared.assign {q : Quantity} (h : q.Declared) (n : String) (v : Decimal) :
    (q.assign n v).Declared := by
  obtain ⟨u, heq, hu⟩ := q.assign_eq n v
  rw [heq]
  exact ⟨fun hkind => hu (h.value hkind)⟩

theorem Quantity.Plain.assign {q : Quantity} (h : q.Plain) (n : String) (v : Decimal) :
    (q.assign n v).Plain := by
  refine ⟨h.toDeclared.assign n v, ?_⟩
  obtain ⟨u, heq, -⟩ := q.assign_eq n v
  rw [heq]
  exact h.symbol

namespace Component

theorem setValue_eq (c : Component) (key : String) (v : Decimal) : c.setValue key v = c ∨
    ∃ n, c.setValue key v = { c with quantities := c.quantities.map (Quantity.assign n v) } := by
  rw [setValue]
  split
  · exact Or.inl rfl
  · next s _ => exact Or.inr ⟨s.name, rfl⟩

theorem restrictions_assign (c : Component) (n : String) (v : Decimal) :
    restrictions { c with quantities := c.quantities.map (Quantity.assign n v) } =
      c.restrictions := by
  rw [restrictions, ofKind, List.filter_map, List.filterMap_map,
    Quantity.comp_assign (fun _ _ => rfl), Quantity.comp_assign (fun _ _ => rfl)]
  rfl

theorem variables_assign (c : Component) (n : String) (v : Decimal) :
    (Component.variables { c with quantities := c.quantities.map (Quantity.assign n v) }).map
      Quantity.name = c.variables.map Quantity.name := by
  rw [Component.variables, List.filter_map, List.map_map, Quantity.comp_assign (fun _ _ => rfl),
    Quantity.comp_assign (fun _ _ => rfl)]
  rfl

end Component

namespace Rotational

open Declare Flange.Expr

variable {c b : Component} {n key : String} {id : Nat} {name : Option String} {a : Arguments}

/-! ### Shapes -/

section Shapes

variable (n : String)

def phi (port : String) : Expr := (Quantity.angle n port).expr

def phiRate (port : String) : Expr := (Quantity.angle n port).rate

def tau (port : String) : Expr := (Quantity.torque n port).expr

def inner (key : String) : Expr := var (.inner n key)

def innerRate (key : String) : Expr := var (Var.inner n key).der

def constant (key : String) : Expr := par (n ++ "_" ++ key)

def twoPorts : List Port := [.flange n "flange_a", .flange n "flange_b" .b]

/-- The support, when there is one. -/
def supportPort : Bool → List Port
  | true => [.flange n "support"]
  | false => []

def supportAngle : Bool → Expr
  | true => phi n "support"
  | false => zero

/-- The torque on the support, when there is one, is `e`. -/
def supportTorque (e : Expr) : Bool → List Equation
  | true => [⟨tau n "support", e⟩]
  | false => []

/-- The restriction of the breakaway torque, when there is one. -/
def breakaway : Bool → List (String × Requirement)
  | true => [(n ++ "_" ++ "tau_brk", .atLeast 0)]
  | false => []

def lossless : Equation := ⟨zero, tau n "flange_a" + tau n "flange_b"⟩

def stretch : Equation := ⟨inner n "phi_rel", phi n "flange_b" - phi n "flange_a"⟩

end Shapes

/-- The ports, the equations and the restrictions of a component of the name `n`, by its
template. -/
inductive Shape (n : String) :
    String → List Port → List Equation → List (String × Requirement) → Prop
  | inertia : Shape n "Inertia" (twoPorts n)
      [⟨phi n "flange_a", inner n "phi"⟩, ⟨phi n "flange_b", inner n "phi"⟩,
        ⟨inner n "w", innerRate n "phi"⟩,
        ⟨constant n "J" * innerRate n "w", tau n "flange_a" + tau n "flange_b"⟩]
      [(n ++ "_" ++ "J", .above 0)]
  | spring : Shape n "Spring" (twoPorts n)
      [lossless n, stretch n,
        ⟨tau n "flange_b", constant n "c" * (inner n "phi_rel" - constant n "phi_rel0")⟩]
      [(n ++ "_" ++ "c", .above 0)]
  | damper : Shape n "Damper" (twoPorts n)
      [lossless n,
        ⟨tau n "flange_b", constant n "d" * (phiRate n "flange_b" - phiRate n "flange_a")⟩]
      [(n ++ "_" ++ "d", .above 0)]
  | springDamper : Shape n "SpringDamper" (twoPorts n)
      [lossless n, stretch n,
        ⟨tau n "flange_b", constant n "c" * (inner n "phi_rel" - constant n "phi_rel0") +
          constant n "d" * innerRate n "phi_rel"⟩]
      [(n ++ "_" ++ "c", .above 0), (n ++ "_" ++ "d", .atLeast 0)]
  | idealGear (supported : Bool) : Shape n "IdealGear" (twoPorts n ++ supportPort n supported)
      (⟨phi n "flange_b" - supportAngle n supported,
          (phi n "flange_a" - supportAngle n supported) / constant n "ratio"⟩ ::
        ⟨tau n "flange_a", -tau n "flange_b" / constant n "ratio"⟩ ::
        supportTorque n (-(tau n "flange_a" + tau n "flange_b")) supported)
      [(n ++ "_" ++ "ratio", .nonzero)]
  | friction (e : Expr) (breaks : Bool) : Shape n "Friction" (twoPorts n)
      [lossless n, ⟨inner n "w_rel", phiRate n "flange_b" - phiRate n "flange_a"⟩,
        ⟨tau n "flange_b", e⟩]
      ((n ++ "_" ++ "f", .atLeast 0) :: (n ++ "_" ++ "tau_c", .atLeast 0) ::
        (n ++ "_" ++ "w_brk", .above 0) :: breakaway n breaks)
  | fixed : Shape n "Fixed" [.flange n "flange"] [⟨phi n "flange", constant n "phi0"⟩] []
  | torque (supported : Bool) : Shape n "Torque" (.flange n "flange" :: supportPort n supported)
      (⟨tau n "flange", -inner n "tau"⟩ :: supportTorque n (inner n "tau") supported) []
  | constantTorque (supported : Bool) :
      Shape n "ConstantTorque" (.flange n "flange" :: supportPort n supported)
      (⟨tau n "flange", -constant n "tau_constant"⟩ ::
        supportTorque n (constant n "tau_constant") supported) []
  | speed (supported : Bool) : Shape n "Speed" (.flange n "flange" :: supportPort n supported)
      (⟨(phi n "flange" - supportAngle n supported).timeDerivative, inner n "w_ref"⟩ ::
        supportTorque n (-tau n "flange") supported) []
  | angleSensor : Shape n "AngleSensor" [.flange n "flange"]
      [⟨inner n "phi", phi n "flange"⟩, ⟨tau n "flange", zero⟩] []
  | speedSensor : Shape n "SpeedSensor" [.flange n "flange"]
      [⟨inner n "w", phiRate n "flange"⟩, ⟨tau n "flange", zero⟩] []
  | relSpeedSensor : Shape n "RelSpeedSensor" (twoPorts n)
      [⟨inner n "w_rel", phiRate n "flange_b" - phiRate n "flange_a"⟩, ⟨tau n "flange_a", zero⟩,
        ⟨tau n "flange_b", zero⟩] []
  | torqueSensor : Shape n "TorqueSensor" (twoPorts n)
      [lossless n, ⟨inner n "tau", tau n "flange_a"⟩, ⟨phi n "flange_a", phi n "flange_b"⟩] []

/-- The variables of a template beside those of its ports. -/
def innerKeys : String → List String
  | "Inertia" => ["phi", "w"]
  | "Spring" | "SpringDamper" => ["phi_rel"]
  | "Friction" | "RelSpeedSensor" => ["w_rel"]
  | "AngleSensor" => ["phi"]
  | "SpeedSensor" => ["w"]
  | "TorqueSensor" => ["tau"]
  | _ => []

/-- The names of the variables of a component: those of its ports, then its inner ones. -/
def variableNames (n template : String) (ps : List Port) : List String :=
  (ps.flatMap fun p => [p.potential.name, p.flow.name]) ++
    (innerKeys template).map fun key => n ++ "_" ++ key

/-- The component is as its template builds it, but for the values of its parameters. -/
structure Shaped (c : Component) : Prop where
  shape : Shape c.name c.interface.template c.ports (c.equations.map Eqn.equation) c.restrictions
  plain : c.Plain
  named : c.variables.map Quantity.name = variableNames c.name c.interface.template c.ports

/-! ### Steps of the templates -/

/-- The parameter `key` with a value that must satisfy `r`. -/
def restricted (c : Component) (key : String) (value : Option Decimal) (r : Requirement)
    (rule : String) : Quantity :=
  .declared key c.name .param
    { value := value, requirement := some r
      complaint := some ("Component " ++ c.interface.template ++ " " ++ c.name ++
        " must have " ++ rule) }

theorem gives_checked (key : String) (value : Option Decimal) (r : Requirement) (rule : String)
    (c : Component) : Gives (checked key value r rule) c (restricted c key value r rule)
      (c.addQuantity (restricted c key value r rule)) :=
  (gives_get c).bind (gives_own key .param _ c)

theorem gives_twoFlanges (c : Component) : Gives twoFlanges c
    ⟨.angle c.name "flange_a", .torque c.name "flange_a", .angle c.name "flange_b",
      .torque c.name "flange_b"⟩
    ((c.addFlange "flange_a").addFlange "flange_b" .b) :=
  (gives_flange "flange_a" .a c).bind ((gives_flange "flange_b" .b _).bind (gives_pure _ _))

theorem gives_balancedFlanges (c : Component) : Gives balancedFlanges c
    ⟨.angle c.name "flange_a", .torque c.name "flange_a", .angle c.name "flange_b",
      .torque c.name "flange_b"⟩
    (((c.addFlange "flange_a").addFlange "flange_b" .b).addEquation zero
      (tau c.name "flange_a" + tau c.name "flange_b")) :=
  (gives_twoFlanges c).bind ((gives_equation _ _ _ _).bind (gives_pure _ _))

theorem gives_support (supported : Bool) (c : Component) : Gives (support supported) c
    (supportAngle c.name supported, if supported then some (.torque c.name "support") else none)
    (if supported then c.addFlange "support" else c) := by
  cases supported with
  | true => exact (gives_flange "support" .a c).bind (gives_pure _ _)
  | false => exact gives_pure _ _

theorem runOn_of_instantiate {t : Template} (h : t.instantiate id name a = .ok c) :
    (t.build a).runOn (t.blank id name) = (.ok (), c) := by
  rw [Template.instantiate] at h
  rcases hrun : (t.build a).runOn (t.blank id name) with ⟨_ | ⟨⟨⟩⟩, c'⟩ <;> rw [hrun] at h
  · exact absurd h (by simp)
  · rw [Except.ok.inj h]

theorem plain_blank (t : Template) (id : Nat) (name : Option String) :
    (t.blank id name).Plain := by
  simp [Component.Plain, Template.blank]

theorem instantiate_gives {t : Template} (h : t.instantiate id name a = .ok c)
    (hg : Gives (t.build a) (t.blank id name) () b) : c = b ∧ b.Plain := by
  obtain ⟨-, hc, hplain⟩ := hg.of_runOn (runOn_of_instantiate h)
  exact ⟨hc, hplain (plain_blank t id name)⟩

theorem gives_compliantFlanges (c : Component) : Gives compliantFlanges c
    (⟨.angle c.name "flange_a", .torque c.name "flange_a", .angle c.name "flange_b",
      .torque c.name "flange_b"⟩, .declared "phi_rel" c.name .var)
    (((((c.addFlange "flange_a").addFlange "flange_b" .b).addEquation zero
      (tau c.name "flange_a" + tau c.name "flange_b")).addQuantity
      (.declared "phi_rel" c.name .var)).addEquation (inner c.name "phi_rel")
      (phi c.name "flange_b" - phi c.name "flange_a")) :=
  (gives_balancedFlanges c).bind <| (gives_own ..).bind <| (gives_equation ..).bind <|
    gives_pure ..

theorem gives_sensor (key : String) (reading : Quantity → Expr) (c : Component) :
    Gives (sensor key reading) c ()
    ((((c.addFlange "flange").addQuantity (.declared key c.name .outp)).addEquation
      (inner c.name key) (reading (.angle c.name "flange")) .outp).addEquation
      (tau c.name "flange") zero) :=
  (gives_flange "flange" .a c).bind <| (gives_own ..).bind <| (gives_equation ..).bind <|
    gives_equation ..

theorem gives_supportTorque (n : String) (e : Expr) (supported : Bool) (c : Component) :
    Gives (match if supported then some (Quantity.torque n "support") else none with
      | some s => Declare.equation s.expr e
      | none => pure ()) c () (if supported then c.addEquation (tau n "support") e else c) := by
  cases supported with
  | true => exact gives_equation ..
  | false => exact gives_pure ..

theorem gives_sourceEquations (torque : Quantity) (n : String) (e : Expr) (supported : Bool)
    (c : Component) :
    Gives (sourceEquations torque (if supported then some (.torque n "support") else none) e) c ()
      (if supported then (c.addEquation torque.expr (-e)).addEquation (tau n "support") e
        else c.addEquation torque.expr (-e)) :=
  (gives_equation ..).bind (gives_supportTorque n e supported _)

/-! ### Templates

Each proof goes through the steps of the template in their order; what they leave is the shape by
computation.
-/

theorem shaped_inertia (h : inertia.instantiate id name a = .ok c) : Shaped c := by
  obtain ⟨rfl, hplain⟩ := instantiate_gives h <|
    (gives_twoFlanges _).bind <| (gives_checked ..).bind <| (gives_own ..).bind <|
    (gives_own ..).bind <| (gives_equation ..).bind <| (gives_equation ..).bind <|
    (gives_equation ..).bind <| gives_equation ..
  exact ⟨.inertia, hplain, rfl⟩

theorem shaped_spring (h : spring.instantiate id name a = .ok c) : Shaped c := by
  obtain ⟨rfl, hplain⟩ := instantiate_gives h <|
    (gives_compliantFlanges _).bind <| (gives_checked ..).bind <| (gives_own ..).bind <|
    gives_equation ..
  exact ⟨.spring, hplain, rfl⟩

theorem shaped_damper (h : damper.instantiate id name a = .ok c) : Shaped c := by
  obtain ⟨rfl, hplain⟩ := instantiate_gives h <|
    (gives_balancedFlanges _).bind <| (gives_checked ..).bind <| gives_equation ..
  exact ⟨.damper, hplain, rfl⟩

theorem shaped_springDamper (h : springDamper.instantiate id name a = .ok c) : Shaped c := by
  obtain ⟨rfl, hplain⟩ := instantiate_gives h <|
    (gives_compliantFlanges _).bind <| (gives_checked ..).bind <| (gives_checked ..).bind <|
    (gives_own ..).bind <| gives_equation ..
  exact ⟨.springDamper, hplain, rfl⟩

theorem shaped_idealGear (h : idealGear.instantiate id name a = .ok c) : Shaped c := by
  obtain ⟨rfl, hplain⟩ := instantiate_gives h <|
    (gives_twoFlanges _).bind <| (gives_support (a.flag "use_support") _).bind <|
    (gives_checked ..).bind <| (gives_equation ..).bind <| (gives_equation ..).bind <|
    gives_supportTorque _ _ (a.flag "use_support") _
  generalize a.flag "use_support" = supported at hplain ⊢
  cases supported with
  | true => exact ⟨.idealGear true, hplain, rfl⟩
  | false => exact ⟨.idealGear false, hplain, rfl⟩

theorem shaped_fixed (h : fixed.instantiate id name a = .ok c) : Shaped c := by
  obtain ⟨rfl, hplain⟩ := instantiate_gives h <|
    (gives_flange "flange" .a _).bind <| (gives_own ..).bind <| gives_equation ..
  exact ⟨.fixed, hplain, rfl⟩

theorem shaped_torque (h : torque.instantiate id name a = .ok c) : Shaped c := by
  obtain ⟨rfl, hplain⟩ := instantiate_gives h <|
    (gives_flange "flange" .a _).bind <| (gives_support (a.flag "use_support") _).bind <|
    (gives_own ..).bind <| gives_sourceEquations _ _ _ (a.flag "use_support") _
  generalize a.flag "use_support" = supported at hplain ⊢
  cases supported with
  | true => exact ⟨.torque true, hplain, rfl⟩
  | false => exact ⟨.torque false, hplain, rfl⟩

theorem shaped_constantTorque (h : constantTorque.instantiate id name a = .ok c) : Shaped c := by
  obtain ⟨rfl, hplain⟩ := instantiate_gives h <|
    (gives_flange "flange" .a _).bind <| (gives_support (a.flag "use_support") _).bind <|
    (gives_own ..).bind <| gives_sourceEquations _ _ _ (a.flag "use_support") _
  generalize a.flag "use_support" = supported at hplain ⊢
  cases supported with
  | true => exact ⟨.constantTorque true, hplain, rfl⟩
  | false => exact ⟨.constantTorque false, hplain, rfl⟩

theorem shaped_speed (h : speed.instantiate id name a = .ok c) : Shaped c := by
  obtain ⟨rfl, hplain⟩ := instantiate_gives h <|
    (gives_flange "flange" .a _).bind <| (gives_support (a.flag "use_support") _).bind <|
    (gives_own ..).bind <| (gives_equation ..).bind <|
    gives_supportTorque _ _ (a.flag "use_support") _
  generalize a.flag "use_support" = supported at hplain ⊢
  cases supported with
  | true => exact ⟨.speed true, hplain, rfl⟩
  | false => exact ⟨.speed false, hplain, rfl⟩

theorem shaped_friction (h : friction.instantiate id name a = .ok c) : Shaped c := by
  have hblank := plain_blank friction id name
  have hrun := runOn_of_instantiate h
  -- the breakaway torque is a parameter only when it is given
  cases hbrk : a.number "tau_brk" with
  | none =>
    simp only [friction, hbrk] at hrun
    obtain ⟨-, rfl, hplain⟩ := Gives.of_runOn (Gives.ite
      (fun _ => (gives_balancedFlanges _).bind <| (gives_checked ..).bind <|
        (gives_checked ..).bind <| (gives_checked ..).bind <| (gives_own ..).bind <|
        (gives_pure ..).bind <| (gives_equation ..).bind <| gives_equation ..)
      (fun _ => (gives_get _).bind (gives_refuseAlone _))) hrun
    exact ⟨.friction _ false, hplain hblank, rfl⟩
  | some v =>
    simp only [friction, hbrk] at hrun
    obtain ⟨-, rfl, hplain⟩ := Gives.of_runOn (Gives.ite
      (fun _ => (gives_balancedFlanges _).bind <| (gives_checked ..).bind <|
        (gives_checked ..).bind <| (gives_checked ..).bind <| (gives_own ..).bind <|
        (gives_checked ..).bind <| (gives_pure ..).bind <| (gives_equation ..).bind <|
        gives_equation ..)
      (fun _ => (gives_get _).bind (gives_refuseAlone _))) hrun
    exact ⟨.friction _ true, hplain hblank, rfl⟩

theorem shaped_angleSensor (h : angleSensor.instantiate id name a = .ok c) : Shaped c := by
  obtain ⟨rfl, hplain⟩ := instantiate_gives h (gives_sensor "phi" Quantity.expr _)
  exact ⟨.angleSensor, hplain, rfl⟩

theorem shaped_speedSensor (h : speedSensor.instantiate id name a = .ok c) : Shaped c := by
  obtain ⟨rfl, hplain⟩ := instantiate_gives h (gives_sensor "w" Quantity.rate _)
  exact ⟨.speedSensor, hplain, rfl⟩

theorem shaped_relSpeedSensor (h : relSpeedSensor.instantiate id name a = .ok c) : Shaped c := by
  obtain ⟨rfl, hplain⟩ := instantiate_gives h <|
    (gives_twoFlanges _).bind <| (gives_own ..).bind <| (gives_equation ..).bind <|
    (gives_equation ..).bind <| gives_equation ..
  exact ⟨.relSpeedSensor, hplain, rfl⟩

theorem shaped_torqueSensor (h : torqueSensor.instantiate id name a = .ok c) : Shaped c := by
  obtain ⟨rfl, hplain⟩ := instantiate_gives h <|
    (gives_balancedFlanges _).bind <| (gives_own ..).bind <| (gives_equation ..).bind <|
    gives_equation ..
  exact ⟨.torqueSensor, hplain, rfl⟩

theorem shaped_of_instantiate {t : Template} (ht : t ∈ templates)
    (h : t.instantiate id name a = .ok c) : Shaped c := by
  simp only [templates, List.mem_cons, List.not_mem_nil, or_false] at ht
  obtain rfl | rfl | rfl | rfl | rfl | rfl | rfl | rfl | rfl | rfl | rfl | rfl | rfl | rfl := ht
  · exact shaped_inertia h
  · exact shaped_spring h
  · exact shaped_damper h
  · exact shaped_springDamper h
  · exact shaped_idealGear h
  · exact shaped_friction h
  · exact shaped_fixed h
  · exact shaped_torque h
  · exact shaped_constantTorque h
  · exact shaped_speed h
  · exact shaped_angleSensor h
  · exact shaped_speedSensor h
  · exact shaped_relSpeedSensor h
  · exact shaped_torqueSensor h

variable {k : String} {ps : List Port} {es : List Equation} {rs : List (String × Requirement)}

/-- The ports of a component are flanges of different names, with flows into it. -/
theorem Shape.ports (h : Shape n k ps es rs) :
    (ps.map Port.name).Nodup ∧ ∀ p ∈ ps, p.flowSign = 1 := by
  cases h with
  | idealGear supported | torque supported | constantTorque supported | speed supported =>
    cases supported <;> simp [twoPorts, supportPort, Port.flange, Port.flowSign]
  | _ => simp [twoPorts, Port.flange, Port.flowSign]

/-- The names of the parameters that some template restricts. -/
def restrictedKeys : List String := ["J", "c", "d", "ratio", "f", "tau_c", "w_brk", "tau_brk"]

theorem Shape.restrictions (h : Shape n k ps es rs) :
    ∀ p ∈ rs, ∃ key ∈ restrictedKeys, p.1 = n ++ "_" ++ key := by
  cases h with
  | friction e breaks => cases breaks <;> simp [restrictedKeys, breakaway]
  | _ => simp [restrictedKeys]

/-- A component of the library: built by one of its templates, perhaps with values of parameters
set afterwards. -/
inductive Built : Component → Prop
  | instantiate {t : Template} {id : Nat} {name : Option String} {a : Arguments} {c : Component} :
      t ∈ templates → t.instantiate id name a = .ok c → Built c
  | setValue {c : Component} (key : String) (v : Decimal) : Built c → Built (c.setValue key v)

theorem built_of_isOk {t : Template} (ht : t ∈ templates)
    (hok : ((t.build a).runOn (t.blank id name)).1.isOk) :
    Built ((t.build a).runOn (t.blank id name)).2 := by
  have hmade : t.instantiate id name a = .ok ((t.build a).runOn (t.blank id name)).2 := by
    rw [Template.instantiate]
    rcases hrun : (t.build a).runOn (t.blank id name) with ⟨_ | _, c⟩
    · exact absurd (hrun ▸ hok) (by simp [Except.isOk, Except.toBool])
    · rfl
  exact .instantiate ht hmade

theorem Shaped.setValue (h : Shaped c) (key : String) (v : Decimal) :
    Shaped (c.setValue key v) := by
  rcases Component.setValue_eq c key v with heq | ⟨m, heq⟩ <;> rw [heq]
  · exact h
  · constructor
    · rw [Component.restrictions_assign]
      exact h.shape
    · rintro q hq
      obtain ⟨r, hr, rfl⟩ := List.mem_map.mp hq
      exact (h.plain r hr).assign m v
    · rw [Component.variables_assign]
      exact h.named

theorem Built.shaped (h : Built c) : Shaped c := by
  induction h with
  | instantiate ht h => exact shaped_of_instantiate ht h
  | setValue key v _ ih => exact ih.setValue key v

end Rotational

end Flange

import Flange.Proofs.Component.Rotational
import Flange.Proofs.Expr.Powers
import Flange.Proofs.Trajectory

/-! # The power of rotational components

What enters a component through its flanges, as torque times speed, is stored, damped, lost to
friction or taken by a source, as the equations of its template say.
-/

namespace Flange

def Var.angle (name port : String) : Var := ⟨name ++ "_" ++ port ++ "_" ++ "phi", 0⟩

def Var.torque (name port : String) : Var := ⟨name ++ "_" ++ port ++ "_" ++ "tau", 0⟩

namespace Trajectory

variable {T : Trajectory} {f g : ℝ → ℝ} {f' g' t : ℝ} {l r : Expr}

/-- The two sides of the equation agree along the trajectory. -/
def Equates (T : Trajectory) (e : Equation) : Prop :=
  ∀ t ∈ T.domain, e.residual.eval (T.valuation t) = 0

/-- The parameter has a value that meets the requirement. -/
def Meets (T : Trajectory) (p : String × Requirement) : Prop :=
  ∃ q : ℚ, T.par p.1 = q ∧ p.2.Holds q

/-- The power that enters at the port: its flow times the rate of its potential. -/
def portPower (T : Trajectory) (t : ℝ) (p : Port) : ℝ :=
  (T.valuation t).symbol p.flow.symbol * (T.valuation t).rate p.potential.symbol

theorem Equates.eq (h : T.Equates ⟨l, r⟩) (hl : T.Reads l f) (hr : T.Reads r g)
    (ht : t ∈ T.domain) : f t = g t := by
  have hzero := (Expr.denotes_sub (hl t ht) (hr t ht)).eval
  rw [← sub_eq_zero, ← hzero]
  exact h t ht

/-- Values that agree along the trajectory have one derivative. -/
theorem rate_eq (h : ∀ u ∈ T.domain, f u = g u) (ht : t ∈ T.domain) (hf : HasDerivAt f f' t)
    (hg : HasDerivAt g g' t) : f' = g' := by
  have hnear : f =ᶠ[nhds t] g := by
    filter_upwards [T.isOpen.mem_nhds ht] with u hu using h u hu
  exact hf.unique (hg.congr_of_eventuallyEq hnear)

theorem portPower_flange (n port : String) (o : Orientation) : T.portPower t (.flange n port o) =
    T.var (.torque n port) t * T.var (Var.angle n port).der t := rfl

end Trajectory

/-- The templates of sources. -/
def sourceTemplates : List String := ["Torque", "ConstantTorque", "Speed"]

/-- The templates of gears, sensors and fixed flanges. -/
def losslessTemplates : List String :=
  ["IdealGear", "Fixed", "AngleSensor", "SpeedSensor", "RelSpeedSensor", "TorqueSensor"]

namespace Component

variable (T : Trajectory) (t : ℝ) (c : Component)

/-- The power that the inertia or the spring takes up. -/
noncomputable def storedPower : ℝ :=
  match c.interface.template with
  | "Inertia" => T.par (c.name ++ "_" ++ "J") * T.var (.inner c.name "w") t *
      T.var (Var.inner c.name "w").der t
  | "Spring" | "SpringDamper" =>
    T.par (c.name ++ "_" ++ "c") *
      (T.var (.inner c.name "phi_rel") t - T.par (c.name ++ "_" ++ "phi_rel0")) *
      T.var (Var.inner c.name "phi_rel").der t
  | _ => 0

/-- The energy that the inertia or the spring holds. -/
noncomputable def storedEnergy : ℝ :=
  match c.interface.template with
  | "Inertia" => T.par (c.name ++ "_" ++ "J") * T.var (.inner c.name "w") t ^ 2 / 2
  | "Spring" | "SpringDamper" =>
    T.par (c.name ++ "_" ++ "c") *
      (T.var (.inner c.name "phi_rel") t - T.par (c.name ++ "_" ++ "phi_rel0")) ^ 2 / 2
  | _ => 0

/-- The power that the damper turns into heat. -/
noncomputable def dampedPower : ℝ :=
  match c.interface.template with
  | "Damper" => T.par (c.name ++ "_" ++ "d") *
      (T.var (Var.angle c.name "flange_b").der t - T.var (Var.angle c.name "flange_a").der t) ^ 2
  | "SpringDamper" => T.par (c.name ++ "_" ++ "d") * T.var (Var.inner c.name "phi_rel").der t ^ 2
  | _ => 0

/-- The power that the friction takes. -/
noncomputable def frictionPower : ℝ :=
  match c.interface.template with
  | "Friction" => T.var (.torque c.name "flange_b") t * T.var (.inner c.name "w_rel") t
  | _ => 0

/-- The power that the source takes. -/
noncomputable def sourcePower : ℝ :=
  match c.interface.template with
  | "Torque" | "ConstantTorque" | "Speed" => (c.ports.map (T.portPower t)).sum
  | _ => 0

variable {T t c}

theorem hasDerivAt_storedEnergy (ht : t ∈ T.domain) :
    HasDerivAt (fun u => c.storedEnergy T u) (c.storedPower T t) t := by
  -- a constant times half a square changes at the rate of its root
  have hsquare : ∀ (k a : ℝ) (v : Var), HasDerivAt (fun u => k * (T.var v u - a) ^ 2 / 2)
      (k * (T.var v t - a) * T.var v.der t) t := by
    intro k a v
    have h := ((((T.hasDerivAt v t ht).sub_const a).pow 2).const_mul k).div_const 2
    exact h.congr_deriv (by push_cast; ring)
  simp only [storedEnergy, storedPower]
  split
  · simpa using hsquare _ 0 _
  · exact hsquare _ _ _
  · exact hsquare _ _ _
  · exact hasDerivAt_const t _

theorem sourcePower_eq_zero (h : c.interface.template ∉ sourceTemplates) :
    c.sourcePower T t = 0 := by
  rw [sourcePower]
  split <;> simp_all [sourceTemplates]

theorem frictionPower_eq_zero (h : c.interface.template ≠ "Friction") :
    c.frictionPower T t = 0 := by
  rw [frictionPower]
  split <;> simp_all

theorem powers_eq_zero (h : c.interface.template ∈ losslessTemplates) :
    c.storedPower T t + c.dampedPower T t + c.frictionPower T t + c.sourcePower T t = 0 := by
  simp only [losslessTemplates, List.mem_cons, List.not_mem_nil, or_false] at h
  rcases h with h | h | h | h | h | h <;>
    simp [storedPower, dampedPower, frictionPower, sourcePower, h]

end Component

namespace Rotational

open Flange.Expr

variable {T : Trajectory} {t : ℝ} {c : Component} {n key k port : String} {ps : List Port}
  {es : List Equation} {rs : List (String × Requirement)}

/-! ### Readings -/

theorem reads_phi (n port : String) : T.Reads (phi n port) (T.var (.angle n port)) :=
  fun _ _ => denotes_sym _

theorem reads_phiRate (n port : String) : T.Reads (phiRate n port) (T.var (Var.angle n port).der) :=
  fun _ _ => denotes_sym _

theorem reads_tau (n port : String) : T.Reads (tau n port) (T.var (.torque n port)) :=
  fun _ _ => denotes_sym _

theorem reads_inner (n key : String) : T.Reads (inner n key) (T.var (.inner n key)) :=
  fun _ _ => denotes_sym _

theorem reads_innerRate (n key : String) :
    T.Reads (innerRate n key) (T.var (Var.inner n key).der) :=
  fun _ _ => denotes_sym _

theorem reads_constant (n key : String) :
    T.Reads (constant n key) fun _ => T.par (n ++ "_" ++ key) :=
  fun _ _ => denotes_sym _

/-! ### Power of the templates -/

theorem lossless_law (h : T.Equates (lossless n)) (ht : t ∈ T.domain) :
    T.var (.torque n "flange_a") t + T.var (.torque n "flange_b") t = 0 :=
  (h.eq (fun _ _ => denotes_zero)
    (fun t ht => denotes_plus (reads_tau n "flange_a" t ht) (reads_tau n "flange_b" t ht)) ht).symm

theorem stretch_law (h : T.Equates (stretch n)) (ht : t ∈ T.domain) :
    T.var (Var.inner n "phi_rel").der t =
      T.var (Var.angle n "flange_b").der t - T.var (Var.angle n "flange_a").der t :=
  T.rate_eq (fun _ => h.eq (reads_inner n "phi_rel") fun t ht =>
      denotes_sub (reads_phi n "flange_b" t ht) (reads_phi n "flange_a" t ht)) ht
    (T.hasDerivAt _ t ht) ((T.hasDerivAt _ t ht).sub (T.hasDerivAt _ t ht))

theorem power_twoPorts : ((twoPorts n).map (T.portPower t)).sum =
    T.var (.torque n "flange_a") t * T.var (Var.angle n "flange_a").der t +
      T.var (.torque n "flange_b") t * T.var (Var.angle n "flange_b").der t := by
  simp [twoPorts, Trajectory.portPower_flange]

/-- Without loss of torque, the power is that of the second flange against the first. -/
theorem power_lossless (h : T.Equates (lossless n)) (ht : t ∈ T.domain) :
    ((twoPorts n).map (T.portPower t)).sum = T.var (.torque n "flange_b") t *
      (T.var (Var.angle n "flange_b").der t - T.var (Var.angle n "flange_a").der t) := by
  rw [power_twoPorts]
  linear_combination T.var (Var.angle n "flange_a").der t * lossless_law h ht

theorem inertia_power
    (ha : T.Equates ⟨phi n "flange_a", inner n "phi"⟩)
    (hb : T.Equates ⟨phi n "flange_b", inner n "phi"⟩)
    (hw : T.Equates ⟨inner n "w", innerRate n "phi"⟩)
    (hJ : T.Equates ⟨constant n "J" * innerRate n "w", tau n "flange_a" + tau n "flange_b"⟩)
    (ht : t ∈ T.domain) : ((twoPorts n).map (T.portPower t)).sum =
      T.par (n ++ "_" ++ "J") * T.var (.inner n "w") t * T.var (Var.inner n "w").der t := by
  -- both flanges turn with the inertia
  have hspeed : ∀ port, T.Equates ⟨phi n port, inner n "phi"⟩ →
      T.var (Var.angle n port).der t = T.var (.inner n "w") t := by
    intro port h
    rw [hw.eq (reads_inner n "w") (reads_innerRate n "phi") ht]
    exact T.rate_eq (fun _ => h.eq (reads_phi n port) (reads_inner n "phi")) ht
      (T.hasDerivAt _ t ht) (T.hasDerivAt _ t ht)
  have hmotion := hJ.eq
    (fun t ht => denotes_mul (reads_constant n "J" t ht) (reads_innerRate n "w" t ht))
    (fun t ht => denotes_plus (reads_tau n "flange_a" t ht) (reads_tau n "flange_b" t ht)) ht
  rw [power_twoPorts, hspeed _ ha, hspeed _ hb]
  linear_combination -T.var (.inner n "w") t * hmotion

theorem spring_power (hbalance : T.Equates (lossless n)) (hstretch : T.Equates (stretch n))
    (h : T.Equates
      ⟨tau n "flange_b", constant n "c" * (inner n "phi_rel" - constant n "phi_rel0")⟩)
    (ht : t ∈ T.domain) : ((twoPorts n).map (T.portPower t)).sum = T.par (n ++ "_" ++ "c") *
      (T.var (.inner n "phi_rel") t - T.par (n ++ "_" ++ "phi_rel0")) *
      T.var (Var.inner n "phi_rel").der t := by
  have htorque := h.eq (reads_tau n "flange_b") (fun t ht =>
    denotes_mul (reads_constant n "c" t ht)
      (denotes_sub (reads_inner n "phi_rel" t ht) (reads_constant n "phi_rel0" t ht))) ht
  rw [power_lossless hbalance ht, stretch_law hstretch ht, htorque]

theorem damper_power (hbalance : T.Equates (lossless n))
    (h : T.Equates
      ⟨tau n "flange_b", constant n "d" * (phiRate n "flange_b" - phiRate n "flange_a")⟩)
    (ht : t ∈ T.domain) : ((twoPorts n).map (T.portPower t)).sum = T.par (n ++ "_" ++ "d") *
      (T.var (Var.angle n "flange_b").der t - T.var (Var.angle n "flange_a").der t) ^ 2 := by
  have htorque := h.eq (reads_tau n "flange_b") (fun t ht =>
    denotes_mul (reads_constant n "d" t ht)
      (denotes_sub (reads_phiRate n "flange_b" t ht) (reads_phiRate n "flange_a" t ht))) ht
  rw [power_lossless hbalance ht, htorque]
  ring

theorem springDamper_power (hbalance : T.Equates (lossless n)) (hstretch : T.Equates (stretch n))
    (h : T.Equates
      ⟨tau n "flange_b", constant n "c" * (inner n "phi_rel" - constant n "phi_rel0") +
        constant n "d" * innerRate n "phi_rel"⟩)
    (ht : t ∈ T.domain) : ((twoPorts n).map (T.portPower t)).sum = T.par (n ++ "_" ++ "c") *
      (T.var (.inner n "phi_rel") t - T.par (n ++ "_" ++ "phi_rel0")) *
      T.var (Var.inner n "phi_rel").der t +
      T.par (n ++ "_" ++ "d") * T.var (Var.inner n "phi_rel").der t ^ 2 := by
  have htorque := h.eq (reads_tau n "flange_b") (fun t ht => denotes_plus
    (denotes_mul (reads_constant n "c" t ht)
      (denotes_sub (reads_inner n "phi_rel" t ht) (reads_constant n "phi_rel0" t ht)))
    (denotes_mul (reads_constant n "d" t ht) (reads_innerRate n "phi_rel" t ht))) ht
  rw [power_lossless hbalance ht, ← stretch_law hstretch ht, htorque]
  ring

theorem friction_power (hbalance : T.Equates (lossless n))
    (h : T.Equates ⟨inner n "w_rel", phiRate n "flange_b" - phiRate n "flange_a"⟩)
    (ht : t ∈ T.domain) : ((twoPorts n).map (T.portPower t)).sum =
      T.var (.torque n "flange_b") t * T.var (.inner n "w_rel") t := by
  have hspeed := h.eq (reads_inner n "w_rel") (fun t ht =>
    denotes_sub (reads_phiRate n "flange_b" t ht) (reads_phiRate n "flange_a" t ht)) ht
  rw [power_lossless hbalance ht, hspeed]

theorem torqueSensor_power (hbalance : T.Equates (lossless n))
    (h : T.Equates ⟨phi n "flange_a", phi n "flange_b"⟩) (ht : t ∈ T.domain) :
    ((twoPorts n).map (T.portPower t)).sum = 0 := by
  have hspeed := T.rate_eq
    (fun _ => h.eq (reads_phi n "flange_a") (reads_phi n "flange_b")) ht (T.hasDerivAt _ t ht)
    (T.hasDerivAt _ t ht)
  rw [power_lossless hbalance ht, hspeed, sub_self, mul_zero]

/-- A flange without torque passes no power. -/
theorem free_power (h : T.Equates ⟨tau n port, zero⟩) (ht : t ∈ T.domain) (o : Orientation) :
    T.portPower t (.flange n port o) = 0 := by
  rw [Trajectory.portPower_flange, h.eq (reads_tau n port) (fun _ _ => denotes_zero) ht, zero_mul]

theorem fixed_power (h : T.Equates ⟨phi n port, constant n key⟩) (ht : t ∈ T.domain)
    (o : Orientation) : T.portPower t (.flange n port o) = 0 := by
  have hspeed := T.rate_eq
    (fun _ => h.eq (reads_phi n port) (reads_constant n key)) ht (T.hasDerivAt _ t ht)
    (hasDerivAt_const t _)
  rw [Trajectory.portPower_flange, hspeed, mul_zero]

/-- The angle of the support and the power at the support, whether the support is a flange or does not
move. -/
theorem support_power {supported : Bool} {e : Expr} {f : ℝ → ℝ} (he : T.Reads e f)
    (h : ∀ q ∈ supportTorque n e supported, T.Equates q) (ht : t ∈ T.domain) :
    ∃ s s', T.Reads (supportAngle n supported) s ∧ HasDerivAt s s' t ∧
      ((supportPort n supported).map (T.portPower t)).sum = f t * s' := by
  cases supported with
  | true =>
    refine ⟨_, _, reads_phi n "support", T.hasDerivAt _ t ht, ?_⟩
    rw [supportPort, List.map_singleton, List.sum_singleton, Trajectory.portPower_flange,
      (h _ (.head _)).eq (reads_tau n "support") he ht]
  | false =>
    exact ⟨_, 0, fun _ _ => denotes_zero, hasDerivAt_const t 0, by simp [supportPort]⟩

/-- The gear passes power between its flanges and its support without loss. -/
theorem idealGear_power {supported : Bool} (hratio : T.par (n ++ "_" ++ "ratio") ≠ 0)
    (hangle : T.Equates ⟨phi n "flange_b" - supportAngle n supported,
      (phi n "flange_a" - supportAngle n supported) / constant n "ratio"⟩)
    (htorque : T.Equates ⟨tau n "flange_a", -tau n "flange_b" / constant n "ratio"⟩)
    (hsupport : ∀ e ∈ supportTorque n (-(tau n "flange_a" + tau n "flange_b")) supported,
      T.Equates e) (ht : t ∈ T.domain) :
    ((twoPorts n ++ supportPort n supported).map (T.portPower t)).sum = 0 := by
  have hforce := htorque.eq (reads_tau n "flange_a") (fun t ht =>
    denotes_div (denotes_neg (reads_tau n "flange_b" t ht)) (reads_constant n "ratio" t ht) hratio)
    ht
  obtain ⟨s, s', hs, hrate, hsum⟩ := support_power (fun t ht => denotes_neg
    (denotes_plus (reads_tau n "flange_a" t ht) (reads_tau n "flange_b" t ht))) hsupport ht
  have hspeed := T.rate_eq (fun _ => hangle.eq
    (fun t ht => denotes_sub (reads_phi n "flange_b" t ht) (hs t ht))
    (fun t ht => denotes_div (denotes_sub (reads_phi n "flange_a" t ht) (hs t ht))
      (reads_constant n "ratio" t ht) hratio)) ht
    ((T.hasDerivAt _ t ht).sub hrate) (((T.hasDerivAt _ t ht).sub hrate).div_const _)
  rw [List.map_append, List.sum_append, power_twoPorts, hsum, hforce]
  linear_combination T.var (.torque n "flange_b") t * hspeed

/-- What enters through the ports is stored, damped, lost to friction or taken by a source. -/
theorem Shape.power (h : Shape c.name k ps es rs) (hk : c.interface.template = k)
    (hps : c.ports = ps) (hes : ∀ e ∈ es, T.Equates e) (hrs : ∀ p ∈ rs, T.Meets p)
    (ht : t ∈ T.domain) : (ps.map (T.portPower t)).sum = c.storedPower T t + c.dampedPower T t +
      c.frictionPower T t + c.sourcePower T t := by
  simp only [Component.storedPower, Component.dampedPower, Component.frictionPower,
    Component.sourcePower, hk, hps]
  cases h with
  | inertia =>
    simp only [List.forall_mem_cons] at hes
    simpa using inertia_power hes.1 hes.2.1 hes.2.2.1 hes.2.2.2.1 ht
  | spring =>
    simp only [List.forall_mem_cons] at hes
    simpa using spring_power hes.1 hes.2.1 hes.2.2.1 ht
  | damper =>
    simp only [List.forall_mem_cons] at hes
    simpa using damper_power hes.1 hes.2.1 ht
  | springDamper =>
    simp only [List.forall_mem_cons] at hes
    simpa using springDamper_power hes.1 hes.2.1 hes.2.2.1 ht
  | idealGear supported =>
    simp only [List.forall_mem_cons] at hes hrs
    obtain ⟨q, hq, hne⟩ := hrs.1
    have hratio : T.par (c.name ++ "_" ++ "ratio") ≠ 0 := by
      rw [hq]
      exact_mod_cast hne
    simpa using idealGear_power hratio hes.1 hes.2.1 hes.2.2 ht
  | friction e breaks =>
    simp only [List.forall_mem_cons] at hes
    simpa using friction_power hes.1 hes.2.1 ht
  | fixed =>
    simp only [List.forall_mem_cons] at hes
    simpa using fixed_power hes.1 ht .a
  | torque supported | constantTorque supported | speed supported => simp
  | angleSensor | speedSensor =>
    simp only [List.forall_mem_cons] at hes
    simpa using free_power hes.2.1 ht .a
  | relSpeedSensor =>
    simp only [List.forall_mem_cons] at hes
    simp [twoPorts, free_power hes.2.1 ht, free_power hes.2.2.1 ht]
  | torqueSensor =>
    simp only [List.forall_mem_cons] at hes
    simpa using torqueSensor_power hes.1 hes.2.2.1 ht

/-- Dampers take power, because their coefficients are not negative. -/
theorem Shape.dampedPower_nonneg (h : Shape c.name k ps es rs) (hk : c.interface.template = k)
    (hrs : ∀ p ∈ rs, T.Meets p) : 0 ≤ c.dampedPower T t := by
  simp only [Component.dampedPower, hk]
  cases h with
  | damper =>
    obtain ⟨q, hq, hpos⟩ := hrs _ (.head _)
    have hd : (0 : ℝ) ≤ T.par (c.name ++ "_" ++ "d") := by
      rw [hq]
      exact_mod_cast hpos.le
    exact mul_nonneg hd (sq_nonneg _)
  | springDamper =>
    obtain ⟨q, hq, hnonneg⟩ := hrs _ (.tail _ (.head _))
    have hd : (0 : ℝ) ≤ T.par (c.name ++ "_" ++ "d") := by
      rw [hq]
      exact_mod_cast hnonneg
    exact mul_nonneg hd (sq_nonneg _)
  | _ => exact le_refl 0

end Rotational

end Flange

import Flange.Proofs.Component.Power

/-! # Variables of the rotational components

A template has one equation for each of its ports and for each of its inner variables. The inner
variables occur in its equations, and so do the angles of its ports, unless it is a source of
torque: the angles of such a source are left to its connections.
-/

namespace Flange

namespace Expr

variable {ρ τ : Valuation ℝ} {e : Expr} {n : String}

/-- A function on which the value depends occurs. -/
theorem mem_functions_of_eval_ne (h : ∀ s, (∀ v, s = .var v → v.name ≠ n) →
    ρ.symbol s = τ.symbol s) (hne : e.eval ρ ≠ e.eval τ) : ⟨n, 0⟩ ∈ e.functions := by
  by_contra hnot
  apply hne
  apply eval_congr
  intro s hs
  apply h s
  rintro v rfl rfl
  exact hnot (mem_functions.mpr ⟨v, mem_vars.mpr hs, rfl⟩)

end Expr

namespace Trajectory

/-- The function `n` and its first derivative start at `x`, and all other variables are at rest. -/
noncomputable def ramp (n : String) (x : ℝ) : Trajectory where
  domain := Set.univ
  isOpen := isOpen_always
  par _ := (2 : ℕ)
  var v t := if v.name = n then
      match v.order with
      | 0 => x * (1 + t)
      | 1 => x
      | _ => 0
    else 0
  hasDerivAt v t _ := by
    obtain ⟨m, k⟩ := v
    by_cases hm : m = n
    · simp only [Var.der, hm, if_true]
      match k with
      | 0 => simpa using ((hasDerivAt_id t).const_add 1).const_mul x
      | 1 => exact hasDerivAt_const t x
      | k + 2 => exact hasDerivAt_const t 0
    · simpa [Var.der, hm] using hasDerivAt_const t (0 : ℝ)

variable {n : String} {x y : ℝ}

@[simp] theorem ramp_var (v : Var) : (ramp n x).var v 0 =
    if v.name = n ∧ v.order ≤ 1 then x else 0 := by
  obtain ⟨m, k⟩ := v
  by_cases hm : m = n
  · match k with
    | 0 => simp [ramp, hm]
    | 1 => simp [ramp, hm]
    | k + 2 => simp [ramp, hm]
  · simp [ramp, hm]

@[simp] theorem ramp_par (m : String) : (ramp n x).par m = 2 := Nat.cast_ofNat

theorem ramp_symbol {s : Symbol} (h : ∀ v, s = .var v → v.name ≠ n) :
    ((ramp n x).valuation 0).symbol s = ((ramp n y).valuation 0).symbol s := by
  cases s with
  | var v =>
    have hname := h v rfl
    simp [Valuation.symbol, hname]
  | _ => rfl

end Trajectory

open Trajectory in
/-- A function occurs in an equation when the difference of the two sides depends on it. -/
theorem Equation.mem_functions_residual {q : Equation} {n : String} {l r : Trajectory → ℝ → ℝ}
    (h : ∀ T : Trajectory, (∀ m, T.par m = 2) → T.Reads q.lhs (l T) ∧ T.Reads q.rhs (r T))
    (hne : l (ramp n 1) 0 - r (ramp n 1) 0 ≠ l (ramp n 0) 0 - r (ramp n 0) 0) :
    ⟨n, 0⟩ ∈ q.residual.functions := by
  have hvalue : ∀ x, q.residual.eval ((ramp n x).valuation 0) =
      l (ramp n x) 0 - r (ramp n x) 0 := by
    intro x
    obtain ⟨hl, hr⟩ := h (ramp n x) ramp_par
    exact (Expr.denotes_sub (hl 0 trivial) (hr 0 trivial)).eval
  apply Expr.mem_functions_of_eval_ne (ρ := (ramp n 1).valuation 0) (τ := (ramp n 0).valuation 0)
  · exact fun s => ramp_symbol
  · rwa [hvalue, hvalue]

/-- One of the equations contains the function. -/
def Mentions (es : List Equation) (m : String) : Prop := ∃ e ∈ es, ⟨m, 0⟩ ∈ e.residual.functions

instance (es : List Equation) : DecidablePred (Mentions es) := fun m => by
  unfold Mentions
  infer_instance

namespace Rotational

open Flange.Expr

variable {n k m port : String} {ps : List Port} {es : List Equation}
  {rs : List (String × Requirement)} {u v w : Var}

/-- The name of the angle of the flange `port` of the component `n`. -/
def angleName (n port : String) : String := n ++ "_" ++ port ++ "_" ++ "phi"

/-! ### Equations of the templates -/

theorem pair_functions (hne : v.name ≠ w.name) (hv : v.order ≤ 1) (hw : w.order ≤ 1)
    (hm : m = v.name ∨ m = w.name) : ⟨m, 0⟩ ∈ (⟨var v, var w⟩ : Equation).residual.functions := by
  apply Equation.mem_functions_residual fun T _ => ⟨T.reads_var v, T.reads_var w⟩
  rcases hm with rfl | rfl
  · simp [hv, hne.symm]
  · simp [hw, hne]

theorem difference_functions (huv : u.name ≠ v.name) (huw : u.name ≠ w.name)
    (hvw : v.name ≠ w.name) (hu : u.order ≤ 1) (hv : v.order ≤ 1) (hw : w.order ≤ 1)
    (hm : m = u.name ∨ m = v.name ∨ m = w.name) :
    ⟨m, 0⟩ ∈ (⟨var u, var v - var w⟩ : Equation).residual.functions := by
  apply Equation.mem_functions_residual fun T _ => ⟨T.reads_var u, fun t ht =>
    denotes_sub (T.reads_var v t ht) (T.reads_var w t ht)⟩
  rcases hm with rfl | rfl | rfl
  · simp [hu, huv.symm, huw.symm]
  · simp [hv, huv, hvw.symm]
  · simp [hw, huw, hvw]

theorem stretch_functions (hm : m = n ++ "_" ++ "phi_rel" ∨ m = angleName n "flange_b" ∨
    m = angleName n "flange_a") : ⟨m, 0⟩ ∈ (stretch n).residual.functions := by
  apply difference_functions (u := .inner n "phi_rel") (v := .angle n "flange_b")
    (w := .angle n "flange_a") _ _ _ zero_le_one zero_le_one zero_le_one hm
  all_goals simp [Var.angle, Var.inner, String.append_assoc]

/-- The relative speed of the flanges. -/
def slip (n : String) : Equation :=
  ⟨inner n "w_rel", phiRate n "flange_b" - phiRate n "flange_a"⟩

theorem slip_functions (hm : m = n ++ "_" ++ "w_rel" ∨ m = angleName n "flange_b" ∨
    m = angleName n "flange_a") : ⟨m, 0⟩ ∈ (slip n).residual.functions := by
  apply difference_functions (u := .inner n "w_rel") (v := (Var.angle n "flange_b").der)
    (w := (Var.angle n "flange_a").der) _ _ _ zero_le_one le_rfl le_rfl hm
  all_goals simp [Var.angle, Var.inner, String.append_assoc]

theorem damper_functions (hm : m = angleName n "flange_a" ∨ m = angleName n "flange_b") :
    ⟨m, 0⟩ ∈ (⟨tau n "flange_b",
      constant n "d" * (phiRate n "flange_b" - phiRate n "flange_a")⟩ :
        Equation).residual.functions := by
  apply Equation.mem_functions_residual fun T _ => ⟨reads_tau n "flange_b", fun t ht =>
    denotes_mul (reads_constant n "d" t ht)
      (denotes_sub (reads_phiRate n "flange_b" t ht) (reads_phiRate n "flange_a" t ht))⟩
  rcases hm with rfl | rfl <;> simp [angleName, Var.angle, Var.torque, String.append_assoc]

/-- The support has an angle, or stays where it is. -/
theorem reads_supportAngle (T : Trajectory) (n : String) : ∀ supported : Bool,
    T.Reads (supportAngle n supported)
      (if supported then T.var (.angle n "support") else fun _ => 0)
  | true => reads_phi n "support"
  | false => fun _ _ => denotes_zero

/-- The ports of a supported component beside its support. -/
def portNames (supported : Bool) (ports : List String) : List String :=
  if supported then ports ++ ["support"] else ports

theorem gear_functions {supported : Bool}
    (hport : port ∈ portNames supported ["flange_a", "flange_b"]) :
    ⟨angleName n port, 0⟩ ∈ (⟨phi n "flange_b" - supportAngle n supported,
      (phi n "flange_a" - supportAngle n supported) / constant n "ratio"⟩ :
        Equation).residual.functions := by
  apply Equation.mem_functions_residual fun T hT => ⟨fun t ht =>
      denotes_sub (reads_phi n "flange_b" t ht) (reads_supportAngle T n supported t ht), fun t ht =>
      denotes_div (denotes_sub (reads_phi n "flange_a" t ht) (reads_supportAngle T n supported t ht))
        (reads_constant n "ratio" t ht) (by rw [hT]; norm_num)⟩
  cases supported with
  | true =>
    simp only [portNames, if_true, List.cons_append, List.nil_append, List.mem_cons,
      List.not_mem_nil, or_false] at hport
    rcases hport with rfl | rfl | rfl
    all_goals simp [angleName, Var.angle, String.append_assoc]
    all_goals norm_num
  | false =>
    simp only [portNames, Bool.false_eq_true, if_false, List.mem_cons, List.not_mem_nil,
      or_false] at hport
    rcases hport with rfl | rfl <;> simp [angleName, Var.angle, String.append_assoc]

theorem fixed_functions (key : String) :
    ⟨angleName n "flange", 0⟩ ∈ (⟨phi n "flange", constant n key⟩ : Equation).residual.functions := by
  apply Equation.mem_functions_residual fun T _ => ⟨reads_phi n "flange", reads_constant n key⟩
  simp [angleName, Var.angle]

theorem reads_supportRate (T : Trajectory) (n : String) (supported : Bool) :
    ∀ t ∈ T.domain, HasDerivAt (if supported then T.var (.angle n "support") else fun _ => 0)
      (if supported then T.var (Var.angle n "support").der t else 0) t := by
  intro t ht
  cases supported with
  | true => exact T.hasDerivAt _ t ht
  | false => exact hasDerivAt_const t 0

theorem speed_functions {supported : Bool} (hport : port ∈ portNames supported ["flange"]) :
    ⟨angleName n port, 0⟩ ∈ (⟨(phi n "flange" - supportAngle n supported).timeDerivative,
      inner n "w_ref"⟩ : Equation).residual.functions := by
  apply Equation.mem_functions_residual fun T _ => ⟨Trajectory.Reads.timeDerivative
    (fun t ht => denotes_sub (reads_phi n "flange" t ht) (reads_supportAngle T n supported t ht))
    fun t ht => (T.hasDerivAt _ t ht).sub (reads_supportRate T n supported t ht),
    reads_inner n "w_ref"⟩
  cases supported with
  | true =>
    simp only [portNames, if_true, List.cons_append, List.nil_append, List.mem_cons,
      List.not_mem_nil, or_false] at hport
    rcases hport with rfl | rfl <;>
      simp [angleName, Var.angle, Var.inner, String.append_assoc]
  | false =>
    simp only [portNames, Bool.false_eq_true, if_false, List.mem_cons, List.not_mem_nil,
      or_false] at hport
    subst hport
    simp [angleName, Var.angle, Var.inner, String.append_assoc]

/-! ### Templates -/

/-- The templates of sources that set a torque. -/
def driveTemplates : List String := ["Torque", "ConstantTorque"]

theorem Shape.length (h : Shape n k ps es rs) : es.length = ps.length + (innerKeys k).length := by
  cases h with
  | idealGear supported | torque supported | constantTorque supported | speed supported =>
    cases supported <;> rfl
  | _ => rfl

theorem angle_of_mem_twoPorts {supported : Bool} {p : Port}
    (hp : p ∈ twoPorts n ++ supportPort n supported) :
    ∃ port ∈ portNames supported ["flange_a", "flange_b"], p.potential.name = angleName n port := by
  cases supported with
  | true =>
    simp only [twoPorts, supportPort, List.cons_append, List.nil_append, List.mem_cons,
      List.not_mem_nil, or_false] at hp
    rcases hp with rfl | rfl | rfl
    · exact ⟨"flange_a", by simp [portNames], rfl⟩
    · exact ⟨"flange_b", by simp [portNames], rfl⟩
    · exact ⟨"support", by simp [portNames], rfl⟩
  | false =>
    simp only [twoPorts, supportPort, List.append_nil, List.mem_cons, List.not_mem_nil,
      or_false] at hp
    rcases hp with rfl | rfl
    · exact ⟨"flange_a", by simp [portNames], rfl⟩
    · exact ⟨"flange_b", by simp [portNames], rfl⟩

theorem angle_of_mem_onePort {supported : Bool} {p : Port}
    (hp : p ∈ .flange n "flange" :: supportPort n supported) :
    ∃ port ∈ portNames supported ["flange"], p.potential.name = angleName n port := by
  rcases List.mem_cons.mp hp with rfl | hp
  · exact ⟨"flange", by cases supported <;> simp [portNames], rfl⟩
  · cases supported with
    | true =>
      obtain rfl := List.mem_singleton.mp hp
      exact ⟨"support", by simp [portNames], rfl⟩
    | false => exact absurd hp List.not_mem_nil

theorem Shape.exists_flange (h : Shape n k ps es rs) : ∀ p ∈ ps, ∃ port o, p = .flange n port o := by
  have hsupport : ∀ supported, ∀ p ∈ supportPort n supported, ∃ port o, p = .flange n port o := by
    intro supported p hp
    cases supported with
    | true => exact ⟨_, _, List.mem_singleton.mp hp⟩
    | false => exact absurd hp List.not_mem_nil
  have htwo : ∀ p ∈ twoPorts n, ∃ port o, p = .flange n port o := by
    intro p hp
    rcases List.mem_cons.mp hp with rfl | hp
    · exact ⟨_, _, rfl⟩
    · exact ⟨_, _, List.mem_singleton.mp hp⟩
  cases h with
  | idealGear supported => exact List.forall_mem_append.mpr ⟨htwo, hsupport supported⟩
  | torque supported | constantTorque supported | speed supported =>
    exact List.forall_mem_cons.mpr ⟨⟨_, _, rfl⟩, hsupport supported⟩
  | fixed | angleSensor | speedSensor => exact List.forall_mem_singleton.mpr ⟨_, _, rfl⟩
  | _ => exact htwo

/-- The inner variables of a template occur in its equations. -/
theorem Shape.mentions_inner (h : Shape n k ps es rs) :
    ∀ key ∈ innerKeys k, Mentions es (n ++ "_" ++ key) := by
  cases h with
  | inertia =>
    simp only [innerKeys, List.forall_mem_cons]
    exact ⟨⟨_, .head _, pair_functions (v := .angle n "flange_a") (w := .inner n "phi")
        (by simp [Var.angle, Var.inner, String.append_assoc]) zero_le_one zero_le_one (Or.inr rfl)⟩,
      ⟨_, .tail _ (.tail _ (.head _)), pair_functions (v := .inner n "w")
        (w := (Var.inner n "phi").der) (by simp [Var.inner, String.append_assoc])
        zero_le_one le_rfl (Or.inl rfl)⟩, List.forall_mem_nil _⟩
  | spring | springDamper =>
    simp only [innerKeys, List.forall_mem_singleton]
    exact ⟨_, .tail _ (.head _), stretch_functions (Or.inl rfl)⟩
  | friction e breaks =>
    simp only [innerKeys, List.forall_mem_singleton]
    exact ⟨slip n, .tail _ (.head _), slip_functions (Or.inl rfl)⟩
  | angleSensor =>
    simp only [innerKeys, List.forall_mem_singleton]
    exact ⟨_, .head _, pair_functions (v := .inner n "phi") (w := .angle n "flange")
      (by simp [Var.angle, Var.inner, String.append_assoc]) zero_le_one zero_le_one (Or.inl rfl)⟩
  | speedSensor =>
    simp only [innerKeys, List.forall_mem_singleton]
    exact ⟨_, .head _, pair_functions (v := .inner n "w") (w := (Var.angle n "flange").der)
      (by simp [Var.angle, Var.inner, String.append_assoc]) zero_le_one le_rfl (Or.inl rfl)⟩
  | relSpeedSensor =>
    simp only [innerKeys, List.forall_mem_singleton]
    exact ⟨slip n, .head _, slip_functions (Or.inl rfl)⟩
  | torqueSensor =>
    simp only [innerKeys, List.forall_mem_singleton]
    exact ⟨_, .tail _ (.head _), pair_functions (v := .inner n "tau") (w := .torque n "flange_a")
      (by simp [Var.torque, Var.inner, String.append_assoc]) zero_le_one zero_le_one (Or.inl rfl)⟩
  | _ => exact List.forall_mem_nil _

/-- The angles of the ports occur in the equations of a template that sets no torque. -/
theorem Shape.mentions_angles (h : Shape n k ps es rs) (hk : k ∉ driveTemplates) :
    ∀ p ∈ ps, Mentions es p.potential.name := by
  cases h with
  | inertia =>
    simp only [twoPorts, List.forall_mem_cons]
    exact ⟨⟨_, .head _, pair_functions (v := .angle n "flange_a") (w := .inner n "phi")
        (by simp [Var.angle, Var.inner, String.append_assoc]) zero_le_one zero_le_one (Or.inl rfl)⟩,
      ⟨_, .tail _ (.head _), pair_functions (v := .angle n "flange_b") (w := .inner n "phi")
        (by simp [Var.angle, Var.inner, String.append_assoc]) zero_le_one zero_le_one (Or.inl rfl)⟩,
      List.forall_mem_nil _⟩
  | spring | springDamper =>
    simp only [twoPorts, List.forall_mem_cons]
    exact ⟨⟨_, .tail _ (.head _), stretch_functions (Or.inr (Or.inr rfl))⟩,
      ⟨_, .tail _ (.head _), stretch_functions (Or.inr (Or.inl rfl))⟩, List.forall_mem_nil _⟩
  | damper =>
    simp only [twoPorts, List.forall_mem_cons]
    exact ⟨⟨_, .tail _ (.head _), damper_functions (Or.inl rfl)⟩,
      ⟨_, .tail _ (.head _), damper_functions (Or.inr rfl)⟩, List.forall_mem_nil _⟩
  | idealGear supported =>
    intro p hp
    obtain ⟨port, hport, hname⟩ := angle_of_mem_twoPorts hp
    exact ⟨_, .head _, hname ▸ gear_functions hport⟩
  | friction e breaks =>
    simp only [twoPorts, List.forall_mem_cons]
    exact ⟨⟨slip n, .tail _ (.head _), slip_functions (Or.inr (Or.inr rfl))⟩,
      ⟨slip n, .tail _ (.head _), slip_functions (Or.inr (Or.inl rfl))⟩, List.forall_mem_nil _⟩
  | fixed =>
    simp only [List.forall_mem_singleton]
    exact ⟨_, .head _, fixed_functions _⟩
  | torque | constantTorque => exact absurd (by simp [driveTemplates]) hk
  | speed supported =>
    intro p hp
    obtain ⟨port, hport, hname⟩ := angle_of_mem_onePort hp
    exact ⟨_, .head _, hname ▸ speed_functions hport⟩
  | angleSensor =>
    simp only [List.forall_mem_singleton]
    exact ⟨_, .head _, pair_functions (v := .inner n "phi") (w := .angle n "flange")
      (by simp [Var.angle, Var.inner, String.append_assoc]) zero_le_one zero_le_one (Or.inr rfl)⟩
  | speedSensor =>
    simp only [List.forall_mem_singleton]
    exact ⟨_, .head _, pair_functions (v := .inner n "w") (w := (Var.angle n "flange").der)
      (by simp [Var.angle, Var.inner, String.append_assoc]) zero_le_one le_rfl (Or.inr rfl)⟩
  | relSpeedSensor =>
    simp only [twoPorts, List.forall_mem_cons]
    exact ⟨⟨slip n, .head _, slip_functions (Or.inr (Or.inr rfl))⟩,
      ⟨slip n, .head _, slip_functions (Or.inr (Or.inl rfl))⟩, List.forall_mem_nil _⟩
  | torqueSensor =>
    have hpair : ∀ m, m = angleName n "flange_a" ∨ m = angleName n "flange_b" →
        ⟨m, 0⟩ ∈ (⟨phi n "flange_a", phi n "flange_b"⟩ : Equation).residual.functions := fun m hm =>
      pair_functions (v := .angle n "flange_a") (w := .angle n "flange_b")
        (by simp [Var.angle, String.append_assoc]) zero_le_one zero_le_one hm
    simp only [twoPorts, List.forall_mem_cons]
    exact ⟨⟨_, .tail _ (.tail _ (.head _)), hpair _ (Or.inl rfl)⟩,
      ⟨_, .tail _ (.tail _ (.head _)), hpair _ (Or.inr rfl)⟩, List.forall_mem_nil _⟩

/-- The name of a torque is told from that of an angle by its end. -/
theorem append_tau_ne_angleName (a n port : String) : a ++ "tau" ≠ angleName n port := by
  intro heq
  have hlast := congrArg (fun s : String => s.toList.reverse) heq
  simp [angleName] at hlast

theorem over_torque (a n port : String) :
    (var ⟨a ++ "tau", 0⟩).Over fun f => f.name ≠ angleName n port :=
  within_var.mpr (append_tau_ne_angleName a n port)

theorem not_mentions_source {supported : Bool} {drive : Expr}
    (hdrive : drive.Over fun f => f.name ≠ angleName n port) :
    ¬ Mentions (⟨tau n "flange", -drive⟩ :: supportTorque n drive supported)
      (angleName n port) := by
  have hover : ∀ e ∈ (⟨tau n "flange", -drive⟩ : Equation) :: supportTorque n drive supported,
      e.residual.Over fun f => f.name ≠ angleName n port := by
    intro e he
    rcases List.mem_cons.mp he with rfl | he
    · exact within_sub (over_torque _ _ _) (within_neg hdrive)
    · cases supported with
      | true =>
        obtain rfl := List.mem_singleton.mp he
        exact within_sub (over_torque _ _ _) hdrive
      | false => exact absurd he List.not_mem_nil
  rintro ⟨e, he, hmem⟩
  exact over_iff.mp (hover e he) _ hmem rfl

/-- The angles of the ports of a source of torque do not occur in its equations. -/
theorem Shape.not_mentions_angles (h : Shape n k ps es rs) (hk : k ∈ driveTemplates) :
    ∀ p ∈ ps, ¬ Mentions es p.potential.name := by
  cases h with
  | torque supported =>
    intro p hp
    obtain ⟨port, -, hname⟩ := angle_of_mem_onePort hp
    rw [hname]
    exact not_mentions_source (over_torque _ _ _)
  | constantTorque supported =>
    intro p hp
    obtain ⟨port, -, hname⟩ := angle_of_mem_onePort hp
    rw [hname]
    exact not_mentions_source (within_sym.mpr trivial)
  | _ => exact absurd hk (by simp [driveTemplates])

end Rotational

end Flange

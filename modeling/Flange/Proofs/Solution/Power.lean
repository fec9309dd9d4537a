import Flange.Proofs.Assembly
import Flange.Proofs.Connection.Power
import Mathlib.Analysis.Calculus.Deriv.MeanValue

/-! # The power balance of rotational diagrams

Whatever the diagram, the power that its inertias and springs take up, that its dampers and frictions
lose and that its sources take adds up to zero along every solution. Without sources and friction the
stored energy never grows.
-/

namespace Flange

/-- Along the trajectory the equations of the system hold, and its parameters have the values that are
known of them. -/
structure EquationSystem.ObeyedBy (T : Trajectory) (s : EquationSystem) : Prop where
  knowns : ∀ p ∈ s.knowns, T.par p.1 = (p.2.toRat : ℝ)
  exprs : ∀ e ∈ s.exprs, ∀ t ∈ T.domain, e.eval (T.valuation t) = 0

namespace Rotational

variable {T : Trajectory} {t : ℝ} {c : Component} {cs : List Component}

/-! ### Components of an obeyed system -/

/-- A restricted parameter is not taken for a constant. -/
theorem restricted_ne_constant (n : String) {key : String} (hkey : key ∈ restrictedKeys) :
    ∀ p ∈ mathConstants, n ++ "_" ++ key ≠ p.1 := by
  have hlast : ∀ key ∈ restrictedKeys, ∀ p ∈ mathConstants,
      key.toList.getLast? ≠ p.1.toList.getLast? ∧ key.toList ≠ [] := by decide
  rintro p hp heq
  obtain ⟨hne, hnil⟩ := hlast key hkey p hp
  rw [← heq, String.toList_append, List.getLast?_append_of_ne_nil _ hnil] at hne
  exact hne rfl

/-- What a template restricts a parameter to holds of the value that is known of it. -/
theorem Shaped.meets (h : Shaped c) (hvalid : c.validate = .ok ())
    (hpar : ∀ q ∈ c.quantities, q.kind = .param → (∀ p ∈ mathConstants, q.name ≠ p.1) →
      ∀ v ∈ q.value, T.par q.name = (v.toRat : ℝ)) : ∀ p ∈ c.restrictions, T.Meets p := by
  intro p hp
  obtain ⟨key, hkey, hname⟩ := h.shape.restrictions p hp
  obtain ⟨q, hq, hqp⟩ := List.mem_filterMap.mp hp
  obtain ⟨r, hr, rfl⟩ := Option.map_eq_some_iff.mp hqp
  have hmem := List.mem_filter.mp hq
  have hkind : q.kind = .param := by simpa using hmem.2
  obtain ⟨v, hv⟩ := Option.isSome_iff_exists.mp ((h.plain q hmem.1).value hkind)
  have hne : ∀ p ∈ mathConstants, q.name ≠ p.1 := by
    rw [show q.name = _ from hname]
    exact restricted_ne_constant _ hkey
  refine ⟨v.toRat, hpar q hmem.1 hkind hne v hv, ?_⟩
  exact Component.isValid_of_validate hvalid q hq hkind r hr v hv

/-! ### Energy -/

theorem hasDerivAt_energy (ht : t ∈ T.domain) : ∀ cs : List Component,
    HasDerivAt (fun u => (cs.map fun c => c.storedEnergy T u).sum)
      (cs.map fun c => c.storedPower T t).sum t
  | [] => hasDerivAt_const t 0
  | c :: cs => by
    simp only [List.map_cons, List.sum_cons]
    exact (Component.hasDerivAt_storedEnergy ht).add (hasDerivAt_energy ht cs)

/-- What never takes up power loses energy. -/
theorem energy_antitone {a b : ℝ} (hab : a ≤ b) (hsub : Set.Icc a b ⊆ T.domain)
    (h : ∀ t ∈ T.domain, (cs.map fun c => c.storedPower T t).sum ≤ 0) :
    (cs.map fun c => c.storedEnergy T b).sum ≤ (cs.map fun c => c.storedEnergy T a).sum := by
  have hslope : ∀ t ∈ Set.Icc a b, HasDerivAt (fun u => (cs.map fun c => c.storedEnergy T u).sum)
      (cs.map fun c => c.storedPower T t).sum t := fun t ht => hasDerivAt_energy (hsub ht) cs
  have hanti : AntitoneOn (fun u => (cs.map fun c => c.storedEnergy T u).sum) (Set.Icc a b) := by
    apply antitoneOn_of_hasDerivWithinAt_nonpos (convex_Icc a b)
    · exact fun t ht => (hslope t ht).continuousAt.continuousWithinAt
    · exact fun t ht => (hslope t (interior_subset ht)).hasDerivWithinAt
    · exact fun t ht => h t (hsub (interior_subset ht))
  exact hanti (Set.left_mem_Icc.mpr hab) (Set.right_mem_Icc.mpr hab) hab

/-! ### Diagrams -/

variable {l : Library} {d : Diagram} {verbose : Bool} {s : EquationSystem}

/-- What an assembly asks of the components, and what a trajectory that obeys the system gives. -/
structure Obeyed (T : Trajectory) (d : Diagram) : Prop where
  shaped : ∀ c ∈ d.components, Shaped c
  equations : ∀ c ∈ d.components, ∀ e ∈ c.equations.map Eqn.equation, T.Equates e
  meets : ∀ c ∈ d.components, ∀ p ∈ c.restrictions, T.Meets p
  ports : ∀ t ∈ T.domain,
    (d.components.map fun c => (c.ports.map (T.portPower t)).sum).sum = 0

theorem obeyed_of_assemble (hbuilt : ∀ c ∈ d.components, Built c)
    (hterms : ∀ ts ∈ d.connections, ∀ t ∈ ts, t.component ∈ d.components)
    (hs : (assemble l d verbose).outcome = .ok s) (hT : s.ObeyedBy T) : Obeyed T d := by
  obtain ⟨k, nodes, hk, hnodes, rfl⟩ := Assembly.assemble_ok hs
  have hshaped : ∀ c ∈ d.components, Shaped c := fun c hc => (hbuilt c hc).shaped
  obtain ⟨hnames, hvalid, hknown⟩ := Assembly.check_ok hk
  have hequates : ∀ e ∈ (nodes.filter fun e => e.kind == .pot) ++
      (nodes.filter fun e => e.kind == .flow) ++ d.components.flatMap Component.equations,
      T.Equates e.equation := fun e he => hT.exprs e.residual (List.mem_map_of_mem he)
  constructor
  case shaped => exact hshaped
  case equations =>
    rintro c hc e he
    obtain ⟨q, hq, rfl⟩ := List.mem_map.mp he
    exact hequates q (List.mem_append_right _ (List.mem_flatMap.mpr ⟨c, hc, hq⟩))
  case meets =>
    intro c hc
    apply (hshaped c hc).meets (hvalid c hc)
    intro q hq hkind hne v hv
    have hsymbol : q.symbol = .par q.name := by
      rw [((hshaped c hc).plain q hq).symbol, hkind]
      rfl
    exact hT.knowns _ (hknown c hc q hq hkind q.name hsymbol hne v hv)
  case ports =>
    intro t ht
    have hnodes' : ∀ e ∈ nodes, T.Equates e.equation := by
      intro e he
      refine hequates e (List.mem_append_left _ (List.mem_append.mpr ?_))
      exact (Assembly.kind_of_mem_nodes hnodes e he).imp
        (fun h => List.mem_filter.mpr ⟨he, by simp [h]⟩)
        (fun h => List.mem_filter.mpr ⟨he, by simp [h]⟩)
    rw [← Assembly.power_eq_zero (fun c hc => (hshaped c hc).shape.ports.1) hnames hterms hnodes
      hnodes' ht]
    congr 1
    refine List.map_congr_left fun c hc => congrArg List.sum (List.map_congr_left fun p hp => ?_)
    rw [(hshaped c hc).shape.ports.2 p hp, Int.cast_one, one_mul]

/-- Along every solution, what the inertias and springs take up, the dampers and frictions lose and
the sources take adds up to zero; gears, sensors and fixed flanges pass power without loss. Without
sources and friction the stored energy never grows. -/
theorem power_balance (hbuilt : ∀ c ∈ d.components, Built c)
    (hterms : ∀ ts ∈ d.connections, ∀ t ∈ ts, t.component ∈ d.components)
    (hs : (assemble l d verbose).outcome = .ok s) (hT : s.ObeyedBy T) :
    (∀ t ∈ T.domain,
      (d.components.map fun c => c.storedPower T t).sum +
        (d.components.map fun c => c.dampedPower T t).sum +
        (d.components.map fun c => c.frictionPower T t).sum +
        (d.components.map fun c => c.sourcePower T t).sum = 0) ∧
    (∀ t ∈ T.domain, ∀ c ∈ d.components, c.interface.template ∈ losslessTemplates →
      (c.ports.map (T.portPower t)).sum = 0) ∧
    ((∀ c ∈ d.components, c.interface.template ∉ "Friction" :: sourceTemplates) →
      ∀ a b, a ≤ b → Set.Icc a b ⊆ T.domain →
        (d.components.map fun c => c.storedEnergy T b).sum ≤
          (d.components.map fun c => c.storedEnergy T a).sum) := by
  have h := obeyed_of_assemble hbuilt hterms hs hT
  have hpower : ∀ t ∈ T.domain, ∀ c ∈ d.components, (c.ports.map (T.portPower t)).sum =
      c.storedPower T t + c.dampedPower T t + c.frictionPower T t + c.sourcePower T t :=
    fun t ht c hc => (h.shaped c hc).shape.power rfl rfl (h.equations c hc) (h.meets c hc) ht
  have hbalance : ∀ t ∈ T.domain,
      (d.components.map fun c => c.storedPower T t).sum +
        (d.components.map fun c => c.dampedPower T t).sum +
        (d.components.map fun c => c.frictionPower T t).sum +
        (d.components.map fun c => c.sourcePower T t).sum = 0 := by
    intro t ht
    rw [← h.ports t ht, List.map_congr_left (hpower t ht), List.sum_map_add, List.sum_map_add,
      List.sum_map_add]
  refine ⟨hbalance, fun t ht c hc hlossless => ?_,
    fun hpassive a b hab hsub => energy_antitone hab hsub fun t ht => ?_⟩
  · rw [hpower t ht c hc, Component.powers_eq_zero hlossless]
  · have hdamped : 0 ≤ (d.components.map fun c => c.dampedPower T t).sum := by
      refine List.sum_nonneg fun x hx => ?_
      obtain ⟨c, hc, rfl⟩ := List.mem_map.mp hx
      exact (h.shaped c hc).shape.dampedPower_nonneg rfl (h.meets c hc)
    have hfriction : (d.components.map fun c => c.frictionPower T t).sum = 0 := by
      refine List.sum_eq_zero fun x hx => ?_
      obtain ⟨c, hc, rfl⟩ := List.mem_map.mp hx
      exact Component.frictionPower_eq_zero (List.ne_of_not_mem_cons (hpassive c hc))
    have hsource : (d.components.map fun c => c.sourcePower T t).sum = 0 := by
      refine List.sum_eq_zero fun x hx => ?_
      obtain ⟨c, hc, rfl⟩ := List.mem_map.mp hx
      exact Component.sourcePower_eq_zero (List.not_mem_of_not_mem_cons (hpassive c hc))
    have := hbalance t ht
    linarith

/-! ### A rotor that is slowed down -/

namespace Braked

/-- A component of the template without arguments. -/
def part (t : Template) (id : Nat) (name : String) : Component :=
  ((t.build []).runOn (t.blank id (some name))).2

def wall : Component := part fixed 0 "wall"

def brake : Component := part damper 1 "brake"

def rotor : Component := part inertia 2 "rotor"

/-- A rotor with a damper between it and a wall. -/
def diagram : Diagram where
  components := [wall, brake, rotor]
  connections := [[⟨wall, "flange"⟩, ⟨brake, "flange_a"⟩], [⟨brake, "flange_b"⟩, ⟨rotor, "flange_a"⟩]]

/-- The variables as multiples of `exp (-t)`. -/
def weight : String → ℝ
  | "rotor_w" | "brake_flange_b_tau" | "wall_flange_tau" => 1
  | "rotor_phi" | "rotor_flange_a_phi" | "rotor_flange_b_phi" | "brake_flange_b_phi" => -1
  | "rotor_flange_a_tau" | "brake_flange_a_tau" => -1
  | _ => 0

/-- The values of the parameters and constants. -/
def values : List (String × Decimal) :=
  [("wall_phi0", ⟨0, 1⟩), ("brake_d", ⟨10, 1⟩), ("rotor_J", ⟨10, 1⟩)] ++ mathConstants

/-- The rotor slows down exponentially. -/
noncomputable def motion : Trajectory where
  domain := Set.univ
  isOpen := Trajectory.isOpen_always
  par n := (((values.lookup n).map Decimal.toRat).getD 0 : ℚ)
  var v t := weight v.name * (-1) ^ v.order * Real.exp (-t)
  hasDerivAt v t _ := by
    have h := ((hasDerivAt_id t).neg.exp).const_mul (weight v.name * (-1) ^ v.order)
    refine h.congr_deriv ?_
    simp [Var.der, pow_succ]

/-- The residuals of the system. -/
def residuals : List Expr :=
  let minus (e : Expr) : Expr := .prod (.num (-1)) e
  let v (name : String) : Expr := .var ⟨name, 0⟩
  let rate (name : String) : Expr := .var ⟨name, 1⟩
  [.sum (minus (v "brake_flange_a_phi")) (v "wall_flange_phi"),
    .sum (v "brake_flange_b_phi") (minus (v "rotor_flange_a_phi")),
    .sum (minus (v "brake_flange_a_tau")) (minus (v "wall_flange_tau")),
    .sum (minus (v "brake_flange_b_tau")) (minus (v "rotor_flange_a_tau")),
    minus (v "rotor_flange_b_tau"),
    .sum (minus (.par "wall_phi0")) (v "wall_flange_phi"),
    .sum (minus (v "brake_flange_a_tau")) (minus (v "brake_flange_b_tau")),
    .sum (v "brake_flange_b_tau") (minus (.prod (.par "brake_d")
      (.sum (minus (rate "brake_flange_a_phi")) (rate "brake_flange_b_phi")))),
    .sum (v "rotor_flange_a_phi") (minus (v "rotor_phi")),
    .sum (v "rotor_flange_b_phi") (minus (v "rotor_phi")),
    .sum (minus (rate "rotor_phi")) (v "rotor_w"),
    .sum (minus (v "rotor_flange_a_tau"))
      (.sum (minus (v "rotor_flange_b_tau")) (.prod (.par "rotor_J") (rate "rotor_w")))]

theorem assembled : ∃ s, (assemble .standard diagram).outcome = .ok s ∧ s.exprs = residuals ∧
    s.knowns = values := by
  have h : (assemble .standard diagram).outcome.toOption.map (fun s => (s.exprs, s.knowns)) =
      some (residuals, values) := by decide +kernel
  cases hrun : (assemble .standard diagram).outcome with
  | error e => simp [hrun, Except.toOption] at h
  | ok s =>
    rw [hrun, Except.toOption, Option.map_some, Option.some.injEq] at h
    exact ⟨s, rfl, congrArg Prod.fst h, congrArg Prod.snd h⟩

theorem knowns : ∀ p ∈ values, motion.par p.1 = (p.2.toRat : ℝ) := by
  have hlookup : ∀ p ∈ values, values.lookup p.1 = some p.2 := by decide
  intro p hp
  simp only [motion, hlookup p hp, Option.map_some, Option.getD_some]

theorem solved : ∀ e ∈ residuals, ∀ t ∈ motion.domain, e.eval (motion.valuation t) = 0 := by
  have hzero : (⟨0, 1⟩ : Decimal).toRat = 0 := by decide
  have hone : (⟨10, 1⟩ : Decimal).toRat = 1 := by decide +kernel
  have hwall : motion.par "wall_phi0" = 0 := by
    simpa [hzero] using knowns ("wall_phi0", ⟨0, 1⟩) (by decide)
  have hbrake : motion.par "brake_d" = 1 := by
    simpa [hone] using knowns ("brake_d", ⟨10, 1⟩) (by decide)
  have hrotor : motion.par "rotor_J" = 1 := by
    simpa [hone] using knowns ("rotor_J", ⟨10, 1⟩) (by decide)
  intro e he t _
  fin_cases he <;>
    simp [Expr.var, Expr.par, Trajectory.valuation, Valuation.symbol, hwall, hbrake, hrotor] <;>
    simp [motion, weight]

theorem built_part {t : Template} {id : Nat} {name : String} (ht : t ∈ templates)
    (hok : ((t.build []).runOn (t.blank id (some name))).1.isOk) : Built (part t id name) :=
  built_of_isOk ht hok

theorem built : ∀ c ∈ diagram.components, Built c := by
  have hwall : Built wall := built_part (List.mem_of_getElem? (i := 6) rfl) (by decide +kernel)
  have hbrake : Built brake := built_part (List.mem_of_getElem? (i := 2) rfl) (by decide +kernel)
  have hrotor : Built rotor := built_part (List.mem_of_getElem? (i := 0) rfl) (by decide +kernel)
  simp [diagram, hwall, hbrake, hrotor]

theorem power_balance_braked :
    (∀ c ∈ diagram.components, Built c) ∧
      (∀ ts ∈ diagram.connections, ∀ t ∈ ts, t.component ∈ diagram.components) ∧
      ∃ s, (assemble .standard diagram).outcome = .ok s ∧ s.ObeyedBy motion ∧
        (∀ t, (diagram.components.map fun c => c.storedPower motion t).sum +
          (diagram.components.map fun c => c.dampedPower motion t).sum +
          (diagram.components.map fun c => c.frictionPower motion t).sum +
          (diagram.components.map fun c => c.sourcePower motion t).sum = 0) ∧
        ∀ a b, a ≤ b → (diagram.components.map fun c => c.storedEnergy motion b).sum ≤
          (diagram.components.map fun c => c.storedEnergy motion a).sum := by
  have hterms : ∀ ts ∈ diagram.connections, ∀ t ∈ ts, t.component ∈ diagram.components := by
    simp [diagram]
  obtain ⟨s, hs, hexprs, hknowns⟩ := assembled
  have hT : s.ObeyedBy motion := ⟨hknowns ▸ knowns, hexprs ▸ solved⟩
  obtain ⟨hbalance, -, henergy⟩ := power_balance built hterms hs hT
  have hpassive : ∀ c ∈ diagram.components,
      c.interface.template ∉ "Friction" :: sourceTemplates := by decide +kernel
  exact ⟨built, hterms, s, hs, hT, fun t => hbalance t trivial,
    fun a b hab => henergy hpassive a b hab fun _ _ => trivial⟩

end Braked

end Rotational

end Flange

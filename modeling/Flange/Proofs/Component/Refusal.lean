import Flange.Proofs.Component.Declare

/-! # Refused declarations

A declaration that is refused leaves the component as it was, with one exception: a flange is
declared in parts, and what is refused after its angle has been declared leaves the angle behind,
so that the flange cannot be declared any more.
-/

namespace Flange

/-- A declaration that a component may be asked for. -/
inductive Declaration
  | quantity (shortName base : String) (kind : SymKind) (o : QuantityOptions)
      (given : Option Symbol)
  | parameter (shortName : String) (value : Option Decimal) (requirement : Option Requirement)
      (complaint : Option String)
  | flange (name orientation : String) (flowInto : Bool) (angle : Option Decimal) (isFixed : Bool)
  | equation (lhs rhs : Expr) (kind : EqnKind)
  | noEquation

namespace Component

variable (c : Component)

/-- A quantity of the component has the name. -/
def Names (n : String) : Prop := n ∈ c.quantities.map Quantity.name

instance (n : String) : Decidable (c.Names n) :=
  inferInstanceAs (Decidable (n ∈ c.quantities.map Quantity.name))

def addQuantities (qs : List Quantity) : Component := { c with quantities := c.quantities ++ qs }

/-- The angle of a flange, with its initial value. -/
def angleOf (port : String) (angle : Option Decimal) (isFixed : Bool) : Quantity :=
  .declared "phi" (c.name ++ "_" ++ port) .pot { initial := angle, isFixed }

def torqueOf (port : String) : Quantity := .torque c.name port

end Component

namespace Declaration

def make : Declaration → Declare Unit
  | quantity shortName base kind o given => do
    let _ ← Declare.quantity shortName base kind o given
  | parameter shortName value r complaint => do
    let _ ← Declare.parameter shortName value r complaint
  | flange name orientation flowInto angle isFixed => do
    let _ ← Declare.flange name orientation flowInto angle isFixed
  | equation lhs rhs kind => Declare.equation lhs rhs kind
  | noEquation => Declare.noEquation

/-- The outcome of the declaration and the component after it. -/
def on (d : Declaration) (c : Component) : Except ModelError Unit × Component := d.make.runOn c

/-- The declaration is one of a flange and gets as far as its angle, but not to its port. -/
def Stops (c : Component) : Declaration → Prop
  | flange name orientation _ angle isFixed =>
    c.port? name = none ∧ ¬ c.Names (c.angleOf name angle isFixed).name ∧
      (c.Names (c.torqueOf name).name ∨ Orientation.ofName? orientation = none)
  | _ => False

/-- What a flange leaves behind that stops half-way. -/
def leftover (c : Component) : Declaration → List Quantity
  | flange name _ _ angle isFixed =>
    c.angleOf name angle isFixed ::
      if c.Names (c.torqueOf name).name then [] else [c.torqueOf name]
  | _ => []

end Declaration

namespace Declare

variable {α β : Type} {d : Declare α} {f : α → Declare β} {c c' : Component} {e : ModelError}
  {shortName base : String} {kind : SymKind} {o : QuantityOptions} {given : Option Symbol}

theorem runOn_bind_of_ok {a : α} (h : d.runOn c = (.ok a, c')) :
    (d >>= f).runOn c = (f a).runOn c' := by
  rw [runOn_bind, h]

theorem runOn_bind_of_error (h : d.runOn c = (.error e, c')) :
    (d >>= f).runOn c = (.error e, c') := by
  rw [runOn_bind, h]

theorem runOn_get_bind (f : Component → Declare β) (c : Component) :
    ((get : Declare Component) >>= f).runOn c = (f c).runOn c := runOn_bind_of_ok rfl

/-- When it is refused, the step leaves the component as it was. -/
def Clean (d : Declare α) : Prop :=
  ∀ {c e c'}, d.runOn c = (.error e, c') → c' = c ∧ e.kind = .definition

theorem Clean.discard (h : Clean d) : Clean (do let _ ← d : Declare Unit) := by
  intro c e c' hrun
  rcases hd : d.runOn c with ⟨e' | a, c''⟩
  · obtain ⟨he, rfl⟩ := Prod.mk.inj ((runOn_bind_of_error hd).symm.trans hrun)
    obtain rfl := Except.error.inj he
    exact h hd
  · exact absurd (Prod.mk.inj ((runOn_bind_of_ok hd).symm.trans hrun)).1 (by simp)

/-- What comes of declaring the quantity `q`, which is accepted as such when `fit` holds. -/
inductive Outcome (q : Quantity) (fit : Prop) (c : Component) :
    Except ModelError Quantity × Component → Prop
  | refused {e : ModelError} : ¬ fit ∨ c.Names q.name → e.kind = .definition →
      Outcome q fit c (.error e, c)
  | declared : fit → ¬ c.Names q.name → Outcome q fit c (.ok q, c.addQuantity q)

theorem outcome_quantity (shortName base : String) (kind : SymKind) (o : QuantityOptions)
    (given : Option Symbol) (c : Component) : Outcome (.declared shortName base kind o given)
      (Quantity.refusal? (base ++ "_" ++ shortName) kind o = none) c
      ((quantity shortName base kind o given).runOn c) := by
  rw [quantity, Quantity.make]
  cases hr : Quantity.refusal? (base ++ "_" ++ shortName) kind o with
  | some cause => exact .refused (Or.inl (by simp)) rfl
  | none =>
    dsimp only
    rw [runOn_get_bind]
    split
    · next htaken =>
      refine .refused (Or.inr ?_) rfl
      obtain ⟨q, hq, hname⟩ := List.any_eq_true.mp htaken
      exact List.mem_map.mpr ⟨q, hq, beq_iff_eq.mp hname⟩
    · next hfree =>
      refine .declared rfl ?_
      rintro hmem
      obtain ⟨q, hq, hname⟩ := List.mem_map.mp hmem
      exact hfree (List.any_eq_true.mpr ⟨q, hq, beq_iff_eq.mpr hname⟩)

theorem clean_quantity : Clean (quantity shortName base kind o given) := by
  intro c e c' hrun
  have h := outcome_quantity shortName base kind o given c
  rw [hrun] at h
  cases h with
  | refused _ hkind => exact ⟨rfl, hkind⟩

theorem clean_parameter {value : Option Decimal} {r : Option Requirement}
    {complaint : Option String} : Clean (parameter shortName value r complaint) := by
  intro c e c' hrun
  rw [parameter, own, runOn_get_bind] at hrun
  exact clean_quantity hrun

theorem clean_equation {lhs rhs : Expr} {k : EqnKind} : Clean (equation lhs rhs k) := by
  intro c e c' hrun
  rw [equation, runOn_get_bind] at hrun
  cases he : Equation.of? lhs rhs with
  | none =>
    rw [he] at hrun
    obtain ⟨he, rfl⟩ := Prod.mk.inj hrun
    exact ⟨rfl, Except.error.inj he ▸ rfl⟩
  | some q =>
    rw [he] at hrun
    dsimp only at hrun
    split at hrun
    · obtain ⟨he, rfl⟩ := Prod.mk.inj hrun
      exact ⟨rfl, Except.error.inj he ▸ rfl⟩
    · exact absurd (Prod.mk.inj hrun).1 (by simp)

theorem clean_noEquation : Clean noEquation := by
  intro c e c' hrun
  obtain ⟨he, rfl⟩ := Prod.mk.inj hrun
  exact ⟨rfl, Except.error.inj he ▸ rfl⟩

/-! ### Flanges -/

theorem angleOf_name (port : String) (angle : Option Decimal) (isFixed : Bool) :
    (c.angleOf port angle isFixed).name = c.name ++ "_" ++ port ++ "_" ++ "phi" := rfl

theorem torqueOf_name (port : String) :
    (c.torqueOf port).name = c.name ++ "_" ++ port ++ "_" ++ "tau" := rfl

theorem names_addQuantity {q : Quantity} {n : String} :
    (c.addQuantity q).Names n ↔ c.Names n ∨ n = q.name := by
  simp [Component.Names, Component.addQuantity]

/-- The torque of a flange is named differently from its angle. -/
theorem names_torque_iff {port : String} {angle : Option Decimal} {isFixed : Bool} :
    (c.addQuantity (c.angleOf port angle isFixed)).Names (c.torqueOf port).name ↔
      c.Names (c.torqueOf port).name := by
  rw [names_addQuantity, or_iff_left]
  rw [angleOf_name, torqueOf_name]
  intro h
  have hlist := congrArg String.toList h
  simp only [String.toList_append, List.append_cancel_left_eq] at hlist
  exact absurd hlist (by decide)

/-- What comes of declaring a flange. -/
inductive FlangeOutcome (name orientation : String) (angle : Option Decimal) (isFixed : Bool)
    (c : Component) : Except ModelError (Quantity × Quantity) × Component → Prop
  | refused {e : ModelError} : c.port? name ≠ none ∨ c.Names (c.angleOf name angle isFixed).name →
      e.kind = .definition → FlangeOutcome name orientation angle isFixed c (.error e, c)
  | torqueTaken {e : ModelError} : c.port? name = none →
      ¬ c.Names (c.angleOf name angle isFixed).name → c.Names (c.torqueOf name).name →
      e.kind = .definition → FlangeOutcome name orientation angle isFixed c
        (.error e, c.addQuantity (c.angleOf name angle isFixed))
  | unoriented {e : ModelError} : c.port? name = none →
      ¬ c.Names (c.angleOf name angle isFixed).name → ¬ c.Names (c.torqueOf name).name →
      Orientation.ofName? orientation = none → e.kind = .definition →
      FlangeOutcome name orientation angle isFixed c
        (.error e, (c.addQuantity (c.angleOf name angle isFixed)).addQuantity (c.torqueOf name))
  | declared {c' : Component} : ¬ c.Names (c.angleOf name angle isFixed).name →
      ¬ c.Names (c.torqueOf name).name → Orientation.ofName? orientation ≠ none →
      FlangeOutcome name orientation angle isFixed c
        (.ok (c.angleOf name angle isFixed, c.torqueOf name), c')

/-- Of an angle and a torque a flange is made when its orientation is known. -/
theorem makePort_rotational {phi tau : Quantity} (hphi : phi.kind = .pot) (htau : tau.kind = .flow)
    (name orientation : String) (flowInto : Bool) :
    makePort name Domain.rotational.name (some phi) (some tau) orientation flowInto true =
      match Orientation.ofName? orientation with
      | none => .error (.unknownOrientation name orientation)
      | some o => .ok ⟨name, .rotational, phi, tau, o, flowInto, true⟩ := by
  cases ho : Orientation.ofName? orientation with
  | none => simp [makePort, ofName?_rotational, Option.filter, hphi, htau, ho]
  | some o => simp [makePort, ofName?_rotational, Option.filter, hphi, htau, ho]

theorem outcome_flange (name orientation : String) (flowInto : Bool) (angle : Option Decimal)
    (isFixed : Bool) (c : Component) : FlangeOutcome name orientation angle isFixed c
      ((flange name orientation flowInto angle isFixed).runOn c) := by
  rw [flange, runOn_get_bind]
  cases hport : c.port? name with
  | some p =>
    rw [if_pos (by simp)]
    exact .refused (Or.inl (by simp [hport])) rfl
  | none =>
    rw [if_neg (by simp)]
    have hphi : Outcome (c.angleOf name angle isFixed) _ c _ :=
      outcome_quantity "phi" (c.name ++ "_" ++ name) .pot { initial := angle, isFixed } none c
    rcases hrun : (quantity "phi" (c.name ++ "_" ++ name) .pot
      { initial := angle, isFixed }).runOn c with ⟨_, c₁⟩
    rw [hrun] at hphi
    dsimp only
    cases hphi with
    | refused h hkind =>
      rw [runOn_bind_of_error hrun]
      exact .refused (Or.inr (h.resolve_left (by simp [Quantity.refusal?]))) hkind
    | declared _ hangle =>
      rw [runOn_bind_of_ok hrun]
      have htau : Outcome (c.torqueOf name) _ (c.addQuantity (c.angleOf name angle isFixed)) _ :=
        outcome_quantity "tau" (c.name ++ "_" ++ name) .flow {} none _
      rcases hrun' : (quantity "tau" (c.name ++ "_" ++ name) .flow {}).runOn
        (c.addQuantity (c.angleOf name angle isFixed)) with ⟨_, c₂⟩
      rw [hrun'] at htau
      cases htau with
      | refused h hkind =>
        rw [runOn_bind_of_error hrun']
        have htaken := names_torque_iff.mp (h.resolve_left (by simp [Quantity.refusal?]))
        exact .torqueTaken hport hangle htaken hkind
      | declared _ htorque =>
        have htorque := mt names_torque_iff.mpr htorque
        rw [runOn_bind_of_ok hrun', makePort_rotational rfl rfl]
        cases ho : Orientation.ofName? orientation with
        | some o => exact .declared hangle htorque (by simp [ho])
        | none => exact .unoriented hport hangle htorque ho rfl

end Declare

namespace Declaration

open Declare

variable {d d' : Declaration} {c c' : Component} {e : ModelError} {ds : List Declaration}

/-- The flange that is declared. -/
def port? : Declaration → Option String
  | flange name _ _ _ _ => some name
  | _ => none

theorem on_flange (name orientation : String) (flowInto : Bool) (angle : Option Decimal)
    (isFixed : Bool) (c : Component) : (flange name orientation flowInto angle isFixed).on c =
      match (Declare.flange name orientation flowInto angle isFixed).runOn c with
      | (.ok _, c') => (.ok (), c')
      | (.error e, c') => (.error e, c') := by
  rw [on, make, runOn_bind]
  rcases (Declare.flange name orientation flowInto angle isFixed).runOn c with ⟨_ | _, _⟩ <;> rfl

theorem names_addQuantities {qs : List Quantity} {q : Quantity} (hq : q ∈ qs) :
    (c.addQuantities qs).Names q.name :=
  List.mem_map_of_mem (List.mem_append_right _ hq)

theorem addQuantities_ne {qs : List Quantity} (hqs : qs ≠ []) : c.addQuantities qs ≠ c := by
  intro h
  have hlen := congrArg (List.length ∘ Component.quantities) h
  simp only [Component.addQuantities, Function.comp_apply, List.length_append] at hlen
  exact hqs (List.length_eq_zero_iff.mp (by omega))

theorem leftover_ne_nil (h : d.Stops c) : d.leftover c ≠ [] := by
  cases d with
  | flange => simp [leftover]
  | _ => exact h.elim

/-- A declaration that does not stop half-way leaves nothing when it is refused. -/
theorem eq_of_refused (hd : ¬ d.Stops c) (h : d.on c = (.error e, c')) :
    c' = c ∧ e.kind = .definition := by
  cases d with
  | quantity => exact clean_quantity.discard h
  | parameter => exact clean_parameter.discard h
  | equation => exact clean_equation h
  | noEquation => exact clean_noEquation h
  | flange name orientation flowInto angle isFixed =>
    have hout := outcome_flange name orientation flowInto angle isFixed c
    rw [on_flange] at h
    generalize (Declare.flange name orientation flowInto angle isFixed).runOn c = x at h hout
    cases hout with
    | refused _ hkind =>
      obtain ⟨he, rfl⟩ := Prod.mk.inj h
      exact ⟨rfl, Except.error.inj he ▸ hkind⟩
    | torqueTaken hport hangle htorque => exact absurd ⟨hport, hangle, Or.inl htorque⟩ hd
    | unoriented hport hangle _ ho => exact absurd ⟨hport, hangle, Or.inr ho⟩ hd
    | declared => exact absurd (Prod.mk.inj h).1 (by simp)

/-- A declaration that stops half-way is refused and leaves what it has declared. -/
theorem Stops.on_eq (h : d.Stops c) :
    ∃ e, d.on c = (.error e, c.addQuantities (d.leftover c)) ∧ e.kind = .definition := by
  cases d with
  | flange name orientation flowInto angle isFixed =>
    obtain ⟨hport, hangle, hlast⟩ := h
    have hout := outcome_flange name orientation flowInto angle isFixed c
    rw [on_flange]
    generalize (Declare.flange name orientation flowInto angle isFixed).runOn c = x at hout
    cases hout with
    | refused hearly => exact absurd hearly (by simp [hport, hangle])
    | torqueTaken _ _ htorque hkind =>
      refine ⟨_, ?_, hkind⟩
      simp only [leftover, if_pos htorque]
      rfl
    | unoriented _ _ htorque _ hkind =>
      refine ⟨_, ?_, hkind⟩
      simp [leftover, if_neg htorque, Component.addQuantities, Component.addQuantity]
    | declared _ htorque ho => exact absurd hlast (by simp [htorque, ho])
  | _ => exact h.elim

/-- The flange of which the angle is left behind cannot be declared any more. -/
theorem Stops.again (h : d.Stops c) (hport : d'.port? = d.port?) :
    ∃ e, d'.on (c.addQuantities (d.leftover c)) = (.error e, c.addQuantities (d.leftover c)) := by
  cases d with
  | flange name orientation flowInto angle isFixed =>
    cases d' with
    | flange name' orientation' flowInto' angle' isFixed' =>
      obtain rfl : name' = name := Option.some.inj hport
      generalize hc : c.addQuantities _ = c'
      have hangle : c'.Names (c'.angleOf name' angle' isFixed').name := by
        rw [← hc]
        exact names_addQuantities (q := c.angleOf name' angle isFixed) List.mem_cons_self
      have hout := outcome_flange name' orientation' flowInto' angle' isFixed' c'
      rw [on_flange]
      generalize (Declare.flange name' orientation' flowInto' angle' isFixed').runOn c' = x at hout
      cases hout with
      | refused => exact ⟨_, rfl⟩
      | torqueTaken _ hfree => exact absurd hangle hfree
      | unoriented _ hfree => exact absurd hangle hfree
      | declared hfree => exact absurd hangle hfree
    | _ => exact absurd hport (by simp [port?])
  | _ => exact h.elim

/-! ### Runs of declarations -/

/-- What a run of declarations makes of a component, those that are refused included. -/
def built (ds : List Declaration) (c : Component) : Component := ds.foldl (fun c d => (d.on c).2) c

/-- The declarations of a run that are accepted in their turn. -/
def accepted : List Declaration → Component → List Declaration
  | [], _ => []
  | d :: ds, c =>
    match d.on c with
    | (.ok _, c') => d :: accepted ds c'
    | (.error _, c') => accepted ds c'

/-- No declaration of the run stops half-way. -/
def Unstopped : List Declaration → Component → Prop
  | [], _ => True
  | d :: ds, c => ¬ d.Stops c ∧ Unstopped ds (d.on c).2

/-- A run without half-way stops is a construction from the declarations that are accepted. -/
theorem runOn_accepted (h : Unstopped ds c) :
    ((accepted ds c).forM make).runOn c = (.ok (), built ds c) := by
  induction ds generalizing c with
  | nil => rfl
  | cons d ds ih =>
    obtain ⟨hd, hds⟩ := h
    rw [accepted, built, List.foldl_cons, ← built]
    rcases hrun : d.on c with ⟨e | ⟨⟨⟩⟩, c'⟩ <;> rw [hrun] at hds
    · obtain ⟨rfl, -⟩ := eq_of_refused hd hrun
      exact ih hds
    · exact (runOn_bind_of_ok hrun).trans (ih hds)

/-- **What is refused changes nothing, unless it is a flange that stops half-way.** Such a flange is
refused too; its angle, and its torque if the name was free, stay behind, and from then on every
declaration of that flange is refused. A run of declarations none of which stops half-way builds
what those that are accepted build by themselves. -/
theorem refused_keeps_iff (c : Component) :
    (∀ (d : Declaration) (e : ModelError) (c' : Component), d.on c = (.error e, c') →
      e.kind = .definition ∧ (c' = c ↔ ¬ d.Stops c)) ∧
    (∀ d : Declaration, d.Stops c →
      (∃ e, d.on c = (.error e, c.addQuantities (d.leftover c))) ∧
      ∀ d' : Declaration, d'.port? = d.port? → ∃ e,
        d'.on (c.addQuantities (d.leftover c)) = (.error e, c.addQuantities (d.leftover c))) ∧
    ∀ ds : List Declaration, Unstopped ds c →
      ((accepted ds c).forM make).runOn c = (.ok (), built ds c) := by
  refine ⟨fun d e c' hrun => ?_, fun d hstop => ⟨?_, fun d' hport => hstop.again hport⟩,
    fun ds hds => runOn_accepted hds⟩
  · by_cases hstop : d.Stops c
    · obtain ⟨e', hrun', hkind⟩ := hstop.on_eq
      obtain ⟨he, rfl⟩ := Prod.mk.inj (hrun'.symm.trans hrun)
      obtain rfl := Except.error.inj he
      exact ⟨hkind, iff_of_false (addQuantities_ne (leftover_ne_nil hstop)) (fun h => h hstop)⟩
    · obtain ⟨rfl, hkind⟩ := eq_of_refused hstop hrun
      exact ⟨hkind, iff_of_true rfl hstop⟩
  · obtain ⟨e, hrun, -⟩ := hstop.on_eq
    exact ⟨e, hrun⟩

/-- A component without flanges. -/
def bare : Component := ⟨0, "shaft", ⟨"Shaft", [], [], []⟩, [], [], []⟩

/-- A flange of an unknown orientation stops half-way, and cannot be declared with a known one. -/
theorem refused_keeps_iff_unoriented :
    (flange "extra" "c" true none false).Stops bare ∧
      ∃ e, (flange "extra" "b" true none false).on
          (bare.addQuantities [.angle "shaft" "extra", .torque "shaft" "extra"]) =
        (.error e, bare.addQuantities [.angle "shaft" "extra", .torque "shaft" "extra"]) := by
  have hstop : (flange "extra" "c" true none false).Stops bare := by
    refine ⟨rfl, ?_, Or.inr rfl⟩
    simp [Component.Names, bare]
  exact ⟨hstop, ((refused_keeps_iff bare).2.1 _ hstop).2 (flange "extra" "b" true none false) rfl⟩

end Declaration

end Flange

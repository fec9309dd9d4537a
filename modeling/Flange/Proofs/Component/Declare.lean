import Flange.Component.Declare

/-! # What declarations add

A step that is not refused adds quantities, ports and equations behind those of the component, and
gives its parameters values.
-/

namespace Flange

/-- A quantity as a declaration leaves it: it has a value when it is a parameter. -/
structure Quantity.Declared (q : Quantity) : Prop where
  value : q.kind = .param → q.value.isSome

/-- A quantity that was declared with the symbol of its own name and kind. -/
structure Quantity.Plain (q : Quantity) : Prop extends q.Declared where
  symbol : q.symbol = symbolFor q.name q.kind

/-- The quantity that is declared as `base_shortName`. -/
def Quantity.declared (shortName base : String) (kind : SymKind) (o : QuantityOptions := {})
    (given : Option Symbol := none) : Quantity :=
  { o with
    name := base ++ "_" ++ shortName, shortName := shortName
    symbol := given.getD (symbolFor (base ++ "_" ++ shortName) kind), kind := kind }

/-- The angle of the flange `port` of the component `name`. -/
def Quantity.angle (name port : String) : Quantity := .declared "phi" (name ++ "_" ++ port) .pot

/-- The torque of the flange `port` of the component `name`. -/
def Quantity.torque (name port : String) : Quantity := .declared "tau" (name ++ "_" ++ port) .flow

/-- The flange `port` of the component `name`. -/
def Port.flange (name port : String) (o : Orientation := .a) : Port :=
  ⟨port, .rotational, .angle name port, .torque name port, o, true, true⟩

namespace Component

variable (c : Component)

def addQuantity (q : Quantity) : Component := { c with quantities := c.quantities ++ [q] }

def addPort (p : Port) : Component := { c with ports := c.ports ++ [p] }

def addEquation (lhs rhs : Expr) (kind : EqnKind := .comp) : Component :=
  { c with equations := c.equations ++ [⟨⟨lhs, rhs⟩, kind, .component c.name⟩] }

def addFlange (port : String) (o : Orientation := .a) : Component :=
  ((c.addQuantity (.angle c.name port)).addQuantity (.torque c.name port)).addPort
    (.flange c.name port o)

/-- All its quantities were declared. -/
def Declared : Prop := ∀ q ∈ c.quantities, q.Declared

/-- All its quantities have the symbols of their names. -/
def Plain : Prop := ∀ q ∈ c.quantities, q.Plain

variable {c} in
theorem Plain.declared (h : c.Plain) : c.Declared := fun q hq => (h q hq).toDeclared

end Component

namespace Declare

variable {α β : Type} {d : Declare α} {f : α → Declare β} {a : α} {b : β} {c c' c'' : Component}

/-- Unless it is refused, the step on `c` has the result `a` and leaves `c'`. -/
structure Gives (d : Declare α) (c : Component) (a : α) (c' : Component) : Prop where
  of_runOn : ∀ {b s}, d.runOn c = (.ok b, s) → b = a ∧ s = c' ∧ (c.Plain → c'.Plain)

theorem runOn_bind (d : Declare α) (f : α → Declare β) (c : Component) :
    (d >>= f).runOn c = match d.runOn c with
      | (.ok a, c') => (f a).runOn c'
      | (.error e, c') => (.error e, c') := by
  change (match d c with | (r, c') => (ExceptT.bindCont f r : StateM Component _) c') = _
  simp only [runOn]
  rcases d c with ⟨_ | a, c'⟩ <;> rfl

theorem gives_of_runOn (h : d.runOn c = (.ok a, c')) (hkeep : c.Plain → c'.Plain) :
    Gives d c a c' where
  of_runOn hrun := by
    obtain ⟨hb, rfl⟩ := Prod.mk.inj (hrun.symm.trans h)
    exact ⟨Except.ok.inj hb, rfl, hkeep⟩

theorem gives_of_refused {e : ModelError} (h : d.runOn c = (.error e, c'')) : Gives d c a c' where
  of_runOn hrun := absurd (Prod.mk.inj (hrun.symm.trans h)).1 (by simp)

theorem gives_pure (a : α) (c : Component) : Gives (pure a) c a c := gives_of_runOn rfl id

theorem gives_get (c : Component) : Gives get c c c := gives_of_runOn rfl id

theorem Gives.bind (h : Gives d c a c') (h' : Gives (f a) c' b c'') :
    Gives (d >>= f) c b c'' where
  of_runOn hrun := by
    rw [runOn_bind] at hrun
    rcases hd : d.runOn c with ⟨e | a', s'⟩ <;> rw [hd] at hrun
    · exact absurd (Prod.mk.inj hrun).1 (by simp)
    · obtain ⟨rfl, rfl, hkeep⟩ := h.of_runOn hd
      obtain ⟨hb, hs, hkeep'⟩ := h'.of_runOn hrun
      exact ⟨hb, hs, hkeep' ∘ hkeep⟩

theorem gives_refuse (cause : DeclarationCause) : Gives (refuse cause) c a c' :=
  gives_of_refused rfl

theorem gives_refuseAlone (cause : DeclarationCause) : Gives (refuseAlone cause) c a c' :=
  gives_of_refused rfl

theorem Gives.ite {p : Prop} [Decidable p] {d' : Declare α} (h : p → Gives d c a c')
    (h' : ¬p → Gives d' c a c') : Gives (if p then d else d') c a c' := by
  split
  · next hp => exact h hp
  · next hp => exact h' hp

/-! ### Quantities and equations -/

theorem plain_addQuantity {q : Quantity} (hq : q.Plain) (h : c.Plain) :
    (c.addQuantity q).Plain := by
  intro r hr
  rcases List.mem_append.mp hr with hr | hr
  · exact h r hr
  · exact List.mem_singleton.mp hr ▸ hq

/-- A parameter that is not refused has a value. -/
theorem value_of_accepted {name : String} {kind : SymKind} {o : QuantityOptions}
    (h : Quantity.refusal? name kind o = none) (hkind : kind = .param) : o.value.isSome := by
  subst hkind
  rw [Quantity.refusal?] at h
  split at h
  · exact absurd h (by simp)
  · next hvalue => simpa [Option.isSome_iff_ne_none] using hvalue

theorem plain_of_accepted {shortName base : String} {kind : SymKind} {o : QuantityOptions}
    (h : Quantity.refusal? (base ++ "_" ++ shortName) kind o = none) :
    (Quantity.declared shortName base kind o).Plain where
  symbol := rfl
  value := value_of_accepted h

theorem gives_quantity (shortName base : String) (kind : SymKind) (o : QuantityOptions)
    (c : Component) : Gives (quantity shortName base kind o) c (.declared shortName base kind o)
      (c.addQuantity (.declared shortName base kind o)) := by
  rw [quantity, Quantity.make]
  cases hr : Quantity.refusal? (base ++ "_" ++ shortName) kind o with
  | none =>
    refine (gives_get c).bind ?_
    split
    · exact gives_refuse _
    · exact gives_of_runOn rfl (plain_addQuantity (plain_of_accepted hr))
  | some cause => exact gives_refuseAlone cause

theorem gives_own (key : String) (kind : SymKind) (o : QuantityOptions) (c : Component) :
    Gives (own key kind o) c (.declared key c.name kind o)
      (c.addQuantity (.declared key c.name kind o)) :=
  (gives_get c).bind (gives_quantity key c.name kind o c)

theorem gives_equation (lhs rhs : Expr) (kind : EqnKind) (c : Component) :
    Gives (equation lhs rhs kind) c () (c.addEquation lhs rhs kind) := by
  refine (gives_get c).bind ?_
  rcases he : Equation.of? lhs rhs with _ | e
  · exact gives_refuse _
  · obtain rfl : (⟨lhs, rhs⟩ : Equation) = e := by
      simp only [Equation.of?] at he
      split at he
      · simp at he
      · exact Option.some.inj he
    dsimp only
    split
    · exact gives_refuse _
    · exact gives_of_runOn rfl id

/-! ### Flanges -/

theorem putPort_of_new {p : Port} : ∀ {ps : List Port}, (∀ q ∈ ps, q.name ≠ p.name) →
    putPort p ps = ps ++ [p]
  | [], _ => rfl
  | q :: ps, h => by
    obtain ⟨hq, hps⟩ := List.forall_mem_cons.mp h
    rw [putPort, if_neg hq, putPort_of_new hps, List.cons_append]

theorem gives_storePort {p : Port} (h : ∀ q ∈ c.ports, q.name ≠ p.name) :
    Gives (storePort p) c () (c.addPort p) := by
  rw [Component.addPort, ← putPort_of_new h]
  exact gives_of_runOn rfl id

theorem ofName?_name (o : Orientation) : Orientation.ofName? o.name = some o := by
  cases o <;> rfl

theorem ofName?_rotational : Domain.ofName? Domain.rotational.name = some .rotational := rfl

theorem gives_flange (port : String) (o : Orientation) (c : Component) :
    Gives (flange port o.name) c
      (.angle c.name port, .torque c.name port) (c.addFlange port o) := by
  refine (gives_get c).bind ?_
  rcases hport : c.port? port with _ | p
  · simp only [Option.isSome_none, Bool.false_eq_true, ↓reduceIte]
    refine (gives_quantity _ _ _ _ c).bind ((gives_quantity _ _ _ _ _).bind ?_)
    have hmade : makePort port Domain.rotational.name (some (.angle c.name port))
        (some (.torque c.name port)) o.name true true = .ok (.flange c.name port o) := by
      have hflow : (some (Quantity.torque c.name port)).filter (fun s => decide (s.kind = .flow)) =
          some (.torque c.name port) := rfl
      have hpot : (some (Quantity.angle c.name port)).filter (fun s => decide (s.kind = .pot)) =
          some (.angle c.name port) := rfl
      simp only [makePort, ofName?_rotational, hflow, hpot, ofName?_name]
      rfl
    have hphi : Quantity.declared "phi" (c.name ++ "_" ++ port) .pot = .angle c.name port := rfl
    have htau : Quantity.declared "tau" (c.name ++ "_" ++ port) .flow = .torque c.name port := rfl
    rw [hphi, htau, hmade]
    refine (gives_storePort ?_).bind (gives_pure _ _)
    intro q hq heq
    rw [Component.port?, List.find?_eq_none] at hport
    exact hport q hq (beq_iff_eq.mpr heq)
  · simp only [Option.isSome_some, ↓reduceIte]
    exact gives_refuse _

end Declare

end Flange

import Flange.Proofs.Component.Formed
import Flange.Proofs.Unknowns

/-! # What the symbols of a system mean

A symbol that a component declares means what was declared, and a parameter has the value it was
given, unless a mathematical constant has the same name: the constants are put in last, and take the
place of what they meet.
-/

namespace Flange

/-- The value that is known of a symbol. That of a function which was declared as a parameter is
with its quantity. -/
def EquationSystem.known? (s : EquationSystem) : Symbol → Option Decimal
  | .par n => s.knowns.lookup n
  | u => (s.quantities.lookup u).bind fun q => if q.kind = .param then q.value else none

namespace Assembly

variable {l : Library} {d : Diagram} {verbose : Bool} {s : EquationSystem} {k : Checked}
  {cs : List Component} {q : Quantity}

/-- Every symbol means what a component declares of it, and no other declaration or constant has
it. -/
structure OneMeaning (d : Diagram) (s : EquationSystem) : Prop where
  nodup : ((d.components.flatMap Component.quantities).map Quantity.symbol ++
    mathConstants.map fun p => Symbol.par p.1).Nodup
  quantities : ∀ c ∈ d.components, ∀ q ∈ c.quantities, s.quantities.lookup q.symbol = some q
  values : ∀ c ∈ d.components, ∀ q ∈ c.ofKind .param, s.known? q.symbol = q.value

/-- The value of the constant with that symbol. -/
def constantValue? : Symbol → Option Decimal
  | .par n => mathConstants.lookup n
  | _ => none

/-- The quantity that is looked up is the declared one, or a constant in its place. -/
theorem lookup_quantities_of_check (hrun : check l cs = .ok k)
    (hq : q ∈ cs.flatMap Component.quantities) :
    k.quantities.lookup q.symbol = (constantQuantities.lookup q.symbol).or (some q) := by
  obtain ⟨k₀, hfold, rfl⟩ := exists_of_check hrun
  have h := extends_checkComponents hfold
  have hmem : (q.symbol, q) ∈ k₀.quantities := by
    rw [h.quantities]
    exact List.mem_append_right _ (List.mem_map_of_mem hq)
  rw [lookup_quantities_addConstants, lookup_of_mem (h.nodup .nil) hmem]

/-- What is no constant is not looked up as one. -/
theorem lookup_constantQuantities_eq_none {u : Symbol} (h : ∀ p ∈ mathConstants, u ≠ .par p.1) :
    constantQuantities.lookup u = none := by
  apply lookup_eq_none
  intro r hr
  obtain ⟨p, hp, rfl⟩ := List.mem_map.mp hr
  exact (h p hp).symm

/-- The value that is known of a parameter is its own, or that of a constant in its place. -/
theorem known?_of_check {d : Diagram} {eqs : List Eqn} (hcs : ∀ c ∈ d.components, c.Declared)
    (hrun : check l d.components = .ok k) (hq : q ∈ d.components.flatMap Component.quantities)
    (hkind : q.kind = .param) :
    (systemOf d k eqs).known? q.symbol = (constantValue? q.symbol).or q.value := by
  obtain ⟨c, hc, hqc⟩ := List.mem_flatMap.mp hq
  have hquantity : (∀ n, q.symbol ≠ .par n) →
      ((k.quantities.lookup q.symbol).bind fun q => if q.kind = .param then q.value else none) =
        q.value := by
    intro hne
    rw [lookup_quantities_of_check hrun hq, lookup_constantQuantities_eq_none fun p _ => hne p.1,
      Option.none_or, Option.bind_some, if_pos hkind]
  cases hsymbol : q.symbol with
  | par n =>
    obtain ⟨k₀, hfold, rfl⟩ := exists_of_check hrun
    have h := passed_of_check hfold
    obtain ⟨v, hv⟩ := Option.isSome_iff_exists.mp ((hcs c hc q hqc).value hkind)
    have hvalue := lookup_of_mem h.keyed.nodup (h.knows c hc q hqc hkind n hsymbol v hv)
    change ((mathConstants.foldl addConstant k₀).knowns.lookup n) = _
    rw [lookup_knowns_addConstants, hvalue, hv]
    rfl
  | time =>
    rw [hsymbol] at hquantity
    exact hquantity fun n => Symbol.noConfusion
  | var v =>
    rw [hsymbol] at hquantity
    exact hquantity fun n => Symbol.noConfusion

theorem mem_constantQuantities {p : String × Decimal} (hp : p ∈ mathConstants) :
    (Symbol.par p.1, constantQuantity p.1 p.2) ∈ constantQuantities :=
  List.mem_map.mpr ⟨p, hp, rfl⟩

/-- The constants always mean themselves. -/
theorem lookup_constant_of_check (hrun : check l cs = .ok k) {p : String × Decimal}
    (hp : p ∈ mathConstants) :
    k.quantities.lookup (.par p.1) = some (constantQuantity p.1 p.2) ∧
      k.knowns.lookup p.1 = some p.2 := by
  obtain ⟨k₀, -, rfl⟩ := exists_of_check hrun
  constructor
  · rw [lookup_quantities_addConstants,
      lookup_of_mem (by decide) (mem_constantQuantities hp), Option.some_or]
  · rw [lookup_knowns_addConstants, lookup_of_mem (by decide) hp, Option.some_or]

theorem constantValue?_eq_none {u : Symbol} (h : ∀ p ∈ mathConstants, u ≠ .par p.1) :
    constantValue? u = none := by
  cases u with
  | par n =>
    apply lookup_eq_none
    rintro p hp rfl
    exact h p hp rfl
  | time => rfl
  | var v => rfl

/-- No two declarations of an assembled diagram share a symbol, and the constants mean themselves.
What is declared under the name of a constant loses its meaning and its value to it; all symbols
have one meaning just when no component declares such a name. -/
theorem oneMeaning_iff (hdeclared : ∀ c ∈ d.components, c.Declared)
    (hs : (assemble l d verbose).outcome = .ok s) :
    ((d.components.flatMap Component.quantities).map Quantity.symbol).Nodup ∧
      (∀ p ∈ mathConstants, s.quantities.lookup (.par p.1) = some (constantQuantity p.1 p.2) ∧
        s.knowns.lookup p.1 = some p.2) ∧
      (∀ c ∈ d.components, ∀ q ∈ c.quantities,
        s.quantities.lookup q.symbol = (constantQuantities.lookup q.symbol).or (some q) ∧
          (q.kind = .param → s.known? q.symbol = (constantValue? q.symbol).or q.value)) ∧
      (OneMeaning d s ↔ ∀ c ∈ d.components, ∀ q ∈ c.quantities, ∀ p ∈ mathConstants,
        q.symbol ≠ .par p.1) := by
  obtain ⟨k, nodes, hk, -, hsystem⟩ := assemble_ok hs
  obtain ⟨eqs, rfl⟩ : ∃ eqs, s = systemOf d k eqs := ⟨_, hsystem⟩
  have hnodup := nodup_symbols hk
  have hlookup : ∀ c ∈ d.components, ∀ q ∈ c.quantities,
      k.quantities.lookup q.symbol = (constantQuantities.lookup q.symbol).or (some q) ∧
        (q.kind = .param → (systemOf d k eqs).known? q.symbol =
          (constantValue? q.symbol).or q.value) := by
    intro c hc q hq
    have hmem : q ∈ d.components.flatMap Component.quantities := List.mem_flatMap.mpr ⟨c, hc, hq⟩
    constructor
    · exact lookup_quantities_of_check hk hmem
    · exact known?_of_check hdeclared hk hmem
  refine ⟨hnodup, fun p hp => lookup_constant_of_check hk hp, hlookup, ?_⟩
  constructor
  · rintro ⟨hall, -, -⟩ c hc q hq p hp heq
    apply List.disjoint_of_nodup_append hall
    · exact List.mem_map_of_mem (List.mem_flatMap.mpr ⟨c, hc, hq⟩)
    · exact List.mem_map.mpr ⟨p, hp, heq.symm⟩
  · intro h
    constructor
    · apply hnodup.append (by decide)
      intro u hu hconstant
      obtain ⟨q, hq, rfl⟩ := List.mem_map.mp hu
      obtain ⟨c, hc, hqc⟩ := List.mem_flatMap.mp hq
      obtain ⟨p, hp, heq⟩ := List.mem_map.mp hconstant
      exact h c hc q hqc p hp heq.symm
    · intro c hc q hq
      obtain ⟨hquantity, -⟩ := hlookup c hc q hq
      rwa [lookup_constantQuantities_eq_none (h c hc q hq), Option.none_or] at hquantity
    · intro c hc q hq
      obtain ⟨hqc, hkind⟩ := List.mem_filter.mp hq
      have hkind := of_decide_eq_true hkind
      obtain ⟨-, hvalue⟩ := hlookup c hc q hqc
      rw [constantValue?_eq_none (h c hc q hqc), Option.none_or] at hvalue
      exact hvalue hkind

/-! ### A component with the name of the constants -/

namespace Anchored

open Declare

/-- A flange that stays at the angle `e`. -/
def anchor : Template where
  interface := { template := "Anchor", connectors := ["p"] }
  build _ := do
    let (phi, _) ← flange "p"
    let e ← parameter "e" (some ⟨1, 0⟩)
    equation phi.expr e.expr

/-- The only component has the name of the constants. -/
def diagram : Diagram where
  components := [Rotational.Driven.part anchor 0 "constants" []]

theorem keeps_anchor (a : Arguments) : Keeps Component.Formed (anchor.build a) := by
  apply (keeps_flange _ _ _ _ _).bind
  rintro ⟨phi, tau⟩
  apply (keeps_parameter _ _ _ _).bind
  intro e
  exact keeps_equation _ _ _

/-- The angle 1 that the component declares is lost to the constant. -/
theorem oneMeaning_iff_anchored :
    (∀ c ∈ diagram.components, c.Declared) ∧
      ∃ s, (assemble ⟨[("Anchor", anchor)]⟩ diagram).outcome = .ok s ∧
        (∃ c ∈ diagram.components, ∃ q ∈ c.ofKind .param, q.value = some ⟨1, 0⟩ ∧
          s.knowns.lookup q.name = some ⟨2718281828459045, 15⟩) ∧ ¬ OneMeaning diagram s := by
  have hdeclared : ∀ c ∈ diagram.components, c.Declared := by
    intro c hc
    obtain rfl := List.mem_singleton.mp hc
    exact (keeps_anchor [] _ (Component.formed_blank anchor 0 (some "constants"))).declared
  have hrun : (assemble ⟨[("Anchor", anchor)]⟩ diagram).outcome.toOption.isSome := by
    decide +kernel
  obtain ⟨s, hs⟩ := Option.isSome_iff_exists.mp hrun
  have hs := ok_of_toOption hs
  have hparams : diagram.components.flatMap (fun c => (c.ofKind .param).map fun q =>
      (q.name, q.symbol, q.value)) =
        [("constants_e", .par "constants_e", some ⟨1, 0⟩)] := by decide +kernel
  obtain ⟨c, hc, hmem⟩ := List.mem_flatMap.mp (hparams ▸ List.mem_singleton_self _)
  obtain ⟨q, hq, heq⟩ := List.mem_map.mp hmem
  simp only [Prod.mk.injEq] at heq
  obtain ⟨hname, hsymbol, hvalue⟩ := heq
  obtain ⟨hqc, -⟩ := List.mem_filter.mp hq
  have he : ("constants_e", (⟨2718281828459045, 15⟩ : Decimal)) ∈ mathConstants :=
    List.mem_cons_self
  obtain ⟨-, hconstants, -, hiff⟩ := oneMeaning_iff hdeclared hs
  refine ⟨hdeclared, s, hs, ⟨c, hc, q, hq, hvalue, ?_⟩, ?_⟩
  · rw [hname]
    exact (hconstants _ he).2
  · rw [hiff]
    exact fun h => h c hc q hqc _ he hsymbol

end Anchored

end Assembly

end Flange

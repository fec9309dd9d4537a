import Flange.Component.Library
import Flange.Proofs.Component.Rotational
import Flange.Proofs.Connection.Records

/-! # What any declarations leave

However the steps that build a component follow each other, and whichever of them are refused, its
quantities are declared ones and its ports have different names.
-/

namespace Flange

/-- The quantities were declared, and no two ports have one name. -/
structure Component.Formed (c : Component) : Prop where
  declared : c.Declared
  ports : c.PortsDiffer

namespace Declare

variable {α β : Type} {P : Component → Prop} {d : Declare α} {f : α → Declare β}

/-- The component has `P` after the step, refused or not, if it had it before. -/
def Keeps (P : Component → Prop) (d : Declare α) : Prop := ∀ c, P c → P (d.runOn c).2

/-! ### Sequences of steps -/

theorem keeps_pure (a : α) : Keeps P (pure a) := fun _ hc => hc

theorem keeps_refuse (cause : DeclarationCause) : Keeps P (refuse cause : Declare α) :=
  fun _ hc => hc

theorem keeps_refuseAlone (cause : DeclarationCause) : Keeps P (refuseAlone cause : Declare α) :=
  fun _ hc => hc

theorem keeps_modify {u : Component → Component} (h : ∀ c, P c → P (u c)) :
    Keeps P (modify u : Declare Unit) := h

theorem Keeps.bind (h : Keeps P d) (h' : ∀ a, Keeps P (f a)) : Keeps P (d >>= f) := by
  intro c hc
  have hd := h c hc
  rw [runOn_bind]
  rcases hrun : d.runOn c with ⟨_ | a, c'⟩ <;> rw [hrun] at hd
  · exact hd
  · exact h' a c' hd

/-- A step that first looks at the component may go on as if it knew it. -/
theorem keeps_get_bind {f : Component → Declare β} (h : ∀ c, P c → P ((f c).runOn c).2) :
    Keeps P (get >>= f) := h

theorem Keeps.ite {p : Prop} [Decidable p] {d' : Declare α} (h : Keeps P d) (h' : Keeps P d') :
    Keeps P (if p then d else d') := by
  split
  · exact h
  · exact h'

/-! ### Single steps -/

theorem declared_of_make {name shortName : String} {kind : SymKind} {o : QuantityOptions}
    {given : Option Symbol} {q : Quantity}
    (h : Quantity.make name shortName kind o given = .ok q) : q.Declared := by
  rw [Quantity.make] at h
  split at h
  · exact absurd h (by simp)
  · next haccepted => exact ⟨Except.ok.inj h ▸ value_of_accepted haccepted⟩

theorem declared_addQuantity {c : Component} {q : Quantity} (hq : q.Declared) (h : c.Declared) :
    (c.addQuantity q).Declared :=
  List.forall_mem_append.mpr ⟨h, List.forall_mem_singleton.mpr hq⟩

/-- The symbol of the quantity may be any that is given. -/
theorem keeps_quantity (shortName base : String) (kind : SymKind) (o : QuantityOptions)
    (given : Option Symbol) :
    Keeps Component.Formed (quantity shortName base kind o given) := by
  rw [quantity]
  cases hmake : Quantity.make (base ++ "_" ++ shortName) shortName kind o given with
  | error cause => exact keeps_refuseAlone cause
  | ok q =>
    apply keeps_get_bind
    intro c hc
    split
    · exact hc
    · exact ⟨declared_addQuantity (declared_of_make hmake) hc.declared, hc.ports⟩

theorem keeps_own (shortName : String) (kind : SymKind) (o : QuantityOptions) :
    Keeps Component.Formed (own shortName kind o) :=
  keeps_get_bind fun c => keeps_quantity shortName c.name kind o none c

theorem keeps_parameter (shortName : String) (value : Option Decimal)
    (requirement : Option Requirement) (complaint : Option String) :
    Keeps Component.Formed (parameter shortName value requirement complaint) :=
  keeps_own shortName .param { value, requirement, complaint }

/-- A port that takes the place of another one has its name. -/
theorem names_putPort (p : Port) : ∀ ps : List Port, (putPort p ps).map Port.name =
    if p.name ∈ ps.map Port.name then ps.map Port.name else ps.map Port.name ++ [p.name]
  | [] => by simp [putPort]
  | q :: ps => by
    rw [putPort]
    split
    · next heq => simp [heq]
    · next hne =>
      have hne' : p.name ≠ q.name := fun heq => hne heq.symm
      rw [List.map_cons, names_putPort p ps, List.map_cons]
      by_cases hmem : p.name ∈ ps.map Port.name
      · rw [if_pos hmem, if_pos (List.mem_cons_of_mem _ hmem)]
      · have hnot : p.name ∉ q.name :: ps.map Port.name := by simpa [hne'] using hmem
        rw [if_neg hmem, if_neg hnot, List.cons_append]

theorem keeps_storePort (p : Port) : Keeps Component.Formed (storePort p) := by
  apply keeps_modify
  rintro c ⟨hdeclared, hports⟩
  constructor
  · exact hdeclared
  · rw [Component.PortsDiffer, names_putPort]
    split
    · exact hports
    · next hnew => exact hports.append (List.nodup_singleton _) (by simpa using hnew)

theorem keeps_flange (name orientation : String) (flowInto : Bool) (angle : Option Decimal)
    (angleFixed : Bool) :
    Keeps Component.Formed (flange name orientation flowInto angle angleFixed) := by
  apply keeps_get_bind
  intro c
  apply Keeps.ite
  · exact keeps_refuse _
  · apply (keeps_quantity _ _ _ _ _).bind
    intro phi
    apply (keeps_quantity _ _ _ _ _).bind
    intro tau
    split
    · exact keeps_refuseAlone _
    · exact (keeps_storePort _).bind fun _ => keeps_pure _

theorem keeps_port (name domain : String) (potential flow : Option Quantity) (orientation : String)
    (flowInto : Bool) :
    Keeps Component.Formed (port name domain potential flow orientation flowInto) := by
  rw [port]
  split
  · exact keeps_refuseAlone _
  · exact (keeps_storePort _).bind fun _ => keeps_pure _

theorem keeps_equation (lhs rhs : Expr) (kind : EqnKind) :
    Keeps Component.Formed (equation lhs rhs kind) := by
  apply keeps_get_bind
  intro c hc
  split
  · exact hc
  · split
    · exact hc
    · exact ⟨hc.declared, hc.ports⟩

end Declare

namespace Component

variable {c : Component}

/-- Nothing is declared yet. -/
theorem formed_blank (t : Template) (id : Nat) (name : Option String) :
    (t.blank id name).Formed where
  declared _ hq := absurd hq List.not_mem_nil
  ports := List.nodup_nil

theorem Formed.setValue (h : c.Formed) (key : String) (v : Decimal) :
    (c.setValue key v).Formed := by
  rcases c.setValue_eq key v with heq | ⟨n, heq⟩ <;> rw [heq]
  · exact h
  · constructor
    · intro q hq
      obtain ⟨r, hr, rfl⟩ := List.mem_map.mp hq
      exact (h.declared r hr).assign n v
    · exact h.ports

/-- A component that a template builds with declarations is formed by them. -/
theorem formed_of_instantiate {t : Template} {id : Nat} {name : Option String} {a : Arguments}
    (hbuild : Declare.Keeps Formed (t.build a)) (h : t.instantiate id name a = .ok c) :
    c.Formed := by
  have hrun := hbuild _ (formed_blank t id name)
  rw [Template.instantiate] at h
  split at h
  · next hok =>
    rw [hok, Except.ok.inj h] at hrun
    exact hrun
  · exact absurd h (by simp)

end Component

end Flange

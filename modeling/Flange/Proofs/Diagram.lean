import Flange.Diagram
import Flange.Proofs.Run

/-! # Terminals of a diagram

Whatever is added to a diagram or joined in it, the diagram has the components of its terminals.
-/

namespace Flange

namespace Diagram

variable {d d' : Diagram} {c : Component} {t : Terminal} {ts : List Terminal}

/-- The object that the terminal belongs to is one of the components. -/
def Has (d : Diagram) (t : Terminal) : Prop := ∃ c ∈ d.components, c.id = t.component.id

/-- The diagram has the components of its terminals. -/
def Held (d : Diagram) : Prop := ∀ ts ∈ d.connections, ∀ t ∈ ts, d.Has t

theorem components_add (d : Diagram) (c : Component) : d.components ⊆ (d.add c).components := by
  rw [add]
  split
  · exact List.Subset.refl _
  · exact List.subset_append_left _ _

theorem connections_add (d : Diagram) (c : Component) :
    (d.add c).connections = d.connections := by
  rw [add]
  split <;> rfl

theorem Has.add (h : d.Has t) (c : Component) : (d.add c).Has t := by
  obtain ⟨b, hb, hid⟩ := h
  exact ⟨b, components_add d c hb, hid⟩

theorem has_add (d : Diagram) (t : Terminal) : (d.add t.component).Has t := by
  rw [Diagram.add]
  split
  · next hany => simpa [Has] using hany
  · exact ⟨t.component, by simp, rfl⟩

/-- Adding the components of terminals leaves the groups and adds them all. -/
theorem foldl_add (ts : List Terminal) (d : Diagram) :
    (ts.foldl (fun d t => d.add t.component) d).connections = d.connections ∧
      (∀ u, d.Has u → (ts.foldl (fun d t => d.add t.component) d).Has u) ∧
      ∀ t ∈ ts, (ts.foldl (fun d t => d.add t.component) d).Has t := by
  induction ts generalizing d with
  | nil => simp
  | cons t ts ih =>
    obtain ⟨hconnections, hkept, hall⟩ := ih (d.add t.component)
    rw [List.foldl_cons]
    refine ⟨hconnections.trans (connections_add d _), fun u hu => hkept u (hu.add _), ?_⟩
    exact List.forall_mem_cons.mpr ⟨hkept t (has_add d t), hall⟩

theorem Held.add (h : d.Held) (c : Component) : (d.add c).Held := by
  intro ts hts t ht
  rw [connections_add] at hts
  exact (h ts hts t ht).add c

theorem Held.connectTerminals (h : d.Held) (hrun : d.connectTerminals ts = .ok d') : d'.Held := by
  unfold Diagram.connectTerminals at hrun
  split at hrun
  · cases hrun
  · obtain rfl := Except.ok.inj hrun
    obtain ⟨hconnections, hkept, hall⟩ := foldl_add ts d
    intro us hus t ht
    rcases List.mem_append.mp hus with hus | hus
    · exact hkept t (h us (hconnections ▸ hus) t ht)
    · obtain rfl := List.mem_singleton.mp hus
      exact hall t ht

theorem Held.connect {us : List ConnectTerm} (h : d.Held) (hrun : d.connect us = .ok d') :
    d'.Held := by
  unfold Diagram.connect at hrun
  rcases hts : d.terminals us with e | ts <;> rw [hts] at hrun
  · cases hrun
  · exact h.connectTerminals hrun

theorem Held.connectAll {groups : List (List ConnectTerm)} (h : d.Held)
    (hrun : groups.foldlM Diagram.connect d = .ok d') : d'.Held := by
  induction groups generalizing d with
  | nil => exact Except.ok.inj hrun ▸ h
  | cons us groups ih =>
    rw [List.foldlM_cons] at hrun
    rcases hfirst : d.connect us with e | d₁ <;> rw [hfirst] at hrun
    · cases hrun
    · exact ih (h.connect hfirst) hrun

theorem Held.addAll (cs : List Component) (h : d.Held) : (cs.foldl Diagram.add d).Held := by
  induction cs generalizing d with
  | nil => exact h
  | cons c cs ih => exact ih (h.add c)

theorem held_build {name : Option String} {cs : List Component} {groups : List (List ConnectTerm)}
    (hrun : build name cs groups = .ok d) : d.Held := by
  have hempty : ({ name := name.getD "acausal_diagram" } : Diagram).Held := List.forall_mem_nil _
  exact (Held.addAll cs hempty).connectAll hrun

/-- Where an object is one component, a diagram that is built has the components of its terminals. -/
theorem mem_components_of_build {name : Option String} {cs : List Component}
    {groups : List (List ConnectTerm)} (hrun : build name cs groups = .ok d)
    (hid : ∀ c ∈ d.components, ∀ ts ∈ d.connections, ∀ t ∈ ts,
      c.id = t.component.id → c = t.component) :
    ∀ ts ∈ d.connections, ∀ t ∈ ts, t.component ∈ d.components := by
  intro ts hts t ht
  obtain ⟨c, hc, hct⟩ := held_build hrun ts hts t ht
  exact hid c hc ts hts t ht hct ▸ hc

end Diagram

end Flange

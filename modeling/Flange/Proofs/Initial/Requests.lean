import Flange.Initial.Conditions
import Flange.Proofs.Run
import Flange.Proofs.Symbol

/-! # Requests

The equations that are always imposed are the constraints and, for each request and each strong value
that no request replaces, an equation; or else the value holds already.
-/

namespace Flange

namespace Initialization

variable {α : Type} [Scalar α] {r : ReducedSystem} {known : Replacement} {o : InitialOptions}
  {given : List Request} {q : Request} {es : List Expr}

theorem mem_requests : q ∈ requests r given ↔
    q ∈ given ∨ ∃ p ∈ r.strong, q = (.var p.1, p.2) ∧ ∀ k ∈ given, k.1 ≠ .var p.1 := by
  simp only [requests, ReducedSystem.sortedPairs, List.mem_append, List.mem_map, mem_sortedByText,
    List.mem_filter]
  constructor
  · rintro (h | ⟨p, ⟨hp, hnew⟩, rfl⟩)
    · exact Or.inl h
    · exact Or.inr ⟨p, hp, rfl, by simpa using hnew⟩
  · rintro (h | ⟨p, hp, rfl, hnew⟩)
    · exact Or.inl h
    · exact Or.inr ⟨p, ⟨hp, by simpa using hnew⟩, rfl⟩

/-- The request is one of the equations, or it has no unknown and holds up to the tolerance. -/
def Imposes (r : ReducedSystem) (known : Replacement) (α : Type) [Scalar α] (o : InitialOptions)
    (es : List Expr) (q : Request) : Prop :=
  ∃ e, express r known q = .ok e ∧ (r.unknownsIn e ≠ [] ∧ e ∈ es ∨
    (constant? e : Option α).any fun c => !Scalar.lt (Scalar.ofRat o.tolerance) (Scalar.abs c))

theorem strongEquation_ok {e? : Option Expr} :
    (strongEquation r known α o q).outcome = .ok e? ↔
      ∃ e, express r known q = .ok e ∧ (r.unknownsIn e ≠ [] ∧ e? = some e ∨
        r.unknownsIn e = [] ∧ e? = none ∧ (constant? e : Option α).any
          fun c => !Scalar.lt (Scalar.ofRat o.tolerance) (Scalar.abs c)) := by
  unfold strongEquation
  cases he : express r known q with
  | error f => simp [Run.fail]
  | ok e =>
    simp only [Except.ok.injEq, exists_eq_left']
    by_cases hunknowns : r.unknownsIn e = []
    · simp only [hunknowns, List.isEmpty_nil, Bool.not_true, Bool.false_eq_true, if_false, ne_eq,
        not_true_eq_false, false_and, true_and, false_or]
      cases (constant? e : Option α) with
      | none => simp [Run.fail]
      | some c =>
        dsimp only
        split
        · next hlarge => simp [Run.fail, hlarge]
        · next hsmall =>
          rw [Bool.not_eq_true] at hsmall
          simp only [Run.bind_ok, Run.outcome_line, Run.outcome_pure, Except.ok.injEq,
            exists_const, true_and, Option.any_some, hsmall, Bool.not_false, and_true]
          exact eq_comm
    · have hmany : (!(r.unknownsIn e).isEmpty) = true := by simpa using hunknowns
      simp only [hmany, if_true, Run.outcome_pure, Except.ok.injEq, ne_eq, hunknowns,
        not_false_eq_true, true_and, false_and, or_false]
      exact eq_comm

/-- The equations `es` are the constraints and the requests. -/
structure Imposed (r : ReducedSystem) (known : Replacement) (α : Type) [Scalar α]
    (o : InitialOptions) (given : List Request) (es : List Expr) : Prop where
  constraints : ∀ g ∈ r.constraints, settle known g ∈ es
  requests : ∀ q ∈ requests r given, Imposes r known α o es q
  subset : ∀ e ∈ es, (∃ g ∈ r.constraints, settle known g = e) ∨
    ∃ q ∈ Initialization.requests r given, express r known q = .ok e

theorem imposed_of_strongEquations
    (h : (strongEquations r known α o given).outcome = .ok es) :
    Imposed r known α o given es := by
  rw [strongEquations, Run.bind_ok] at h
  obtain ⟨es?, hes, h⟩ := h
  obtain rfl := Except.ok.inj h
  rw [Run.outcome_mapM] at hes
  have hall := mapM_ok hes
  constructor
  · intro g hg
    exact List.mem_append_left _ (List.mem_map_of_mem hg)
  · intro q hq
    obtain ⟨e?, he?, hok⟩ := exists_of_forall₂ hall q hq
    obtain ⟨e, he, ⟨hunknowns, rfl⟩ | ⟨-, -, hholds⟩⟩ := strongEquation_ok.mp hok
    · exact ⟨e, he, Or.inl ⟨hunknowns, List.mem_append_right _ (by simpa using he?)⟩⟩
    · exact ⟨e, he, Or.inr hholds⟩
  · intro e he
    rcases List.mem_append.mp he with he | he
    · exact Or.inl (by simpa using he)
    · obtain ⟨-, he?, rfl⟩ := List.mem_filterMap.mp he
      obtain ⟨q, hq, hok⟩ := exists_of_forall₂ hall.flip (some e) he?
      obtain ⟨f, hf, ⟨-, heq⟩ | ⟨-, heq, -⟩⟩ := strongEquation_ok.mp hok
      · exact Or.inr ⟨q, hq, Option.some.inj heq ▸ hf⟩
      · exact absurd heq (by simp)

/-- Candidates are added to the equations. -/
theorem subset_fill : ∀ {cs es : List Expr}, es ⊆ fill r cs es
  | [], _ => List.Subset.refl _
  | c :: cs, es => by
    rw [fill]
    split
    · exact List.Subset.refl _
    · split
      · exact List.Subset.trans (List.subset_append_left es [c]) subset_fill
      · exact subset_fill

end Initialization

end Flange

import Flange.Proofs.Reduction.Signed
import Flange.Proofs.Reduction.Tolerance
import Flange.Proofs.Run

/-! # Initial values after the elimination of aliases

The variable that is left of a class has a strong value just when the class had one, and it is one of
them; a weak value gives way to nothing else. Where the strong values agree, none is refused.
-/

namespace Flange

namespace AliasContext

variable {ctx : AliasContext} {unknowns differentiated : List Var} {e : Expr} {m : ModelError}

end AliasContext

namespace Aliases

open Flange.Expr (SignedVar)

variable {ctx : AliasContext} {ks : Constants} {a b : Aliases} {x : Event} {xs : List Event}
  {ics ics' : InitialValues} {e sub : Expr} {vs ws : List Var} {u v w : Var} {q : Rat}
  {m : ModelError} {i n : Nat}

/-! ### What is eliminated does not depend on initial values -/

/-- The same equations without initial values. -/
def forget (a : Aliases) : Aliases := { a with strong := [], weak := [], warnings := [] }

/-- What is done with the equations, one after another. -/
def eliminations (ctx : AliasContext) (a : Aliases) : List Event :=
  events ctx (a.exprs.length + 1) a.forget

theorem SameSystem.forget_eq (h : SameSystem a b) : b.forget = a.forget := by
  rw [forget, forget, h.exprs, h.unknowns, h.observed]

theorem forget_eq_of_eliminate (h : eliminate ctx a i v sub = .ok b) :
    eliminate ctx a.forget i v sub = .ok b.forget := by
  rw [(carry_same h).forget_eq]
  rfl

theorem step_forget {b? : Option Aliases} (h : step ctx a = .ok b?) :
    step ctx a.forget = .ok (b?.map forget) := by
  have hscan : ctx.scan a.forget.unknowns a.forget.differentiated a.forget.exprs 0 =
      ctx.scan a.unknowns a.differentiated a.exprs 0 := rfl
  unfold step at h ⊢
  rw [hscan]
  rcases hs : ctx.scan a.unknowns a.differentiated a.exprs 0 with f | _ | ⟨i, _ | ⟨v, sub⟩⟩ <;>
    rw [hs] at h
  · cases h
  · rw [← Except.ok.inj h]
    rfl
  · rw [← Except.ok.inj h]
    rfl
  · obtain ⟨c, hc, heq⟩ := exists_of_map_ok h
    rw [← heq]
    dsimp only
    rw [forget_eq_of_eliminate hc]
    rfl

theorem events_forget : ∀ {n : Nat} {a b : Aliases}, steps ctx n a = .ok b →
    events ctx n a.forget = events ctx n a
  | 0, _, _, _ => rfl
  | n + 1, a, b, h => by
    rw [steps] at h
    rw [events, events]
    cases hstep : step ctx a with
    | error f => simp [hstep] at h
    | ok c? =>
      rw [step_forget hstep]
      cases c? with
      | none => rfl
      | some c =>
        rw [hstep] at h
        exact congrArg (_ ++ ·) (events_forget h)

/-- The values of each class agree, also with the constant that the class is found to be, which has a
value then; no variable is zero times what stands for it. -/
structure Agree (ks : Constants) (xs : List Event) (ics : InitialValues) : Prop where
  pair : ∀ r p p', Gives ks xs ics r p → Gives ks xs ics r p' → p = p'
  constant : ∀ r p sub c, Gives ks xs ics r p → constant? xs r = some sub →
    sub.number? ks.valuation = some c → c.toRat? = some p
  nonzero : ∀ v q, ics.lookup v = some q → (root ks xs v).1 ≠ 0

theorem Agree.tail (h : Agree ks (x :: xs) a.strong) (hx : Passed ks a b x) (hvalued : a.Valued)
    (hleft : ∀ u ∈ b.unknowns, (root ks xs u).2 ∈ b.unknowns) : Agree ks xs b.strong where
  pair := fun r p p' hp hp' => h.pair r p p' (hx.traced.1.gives hp) (hx.traced.1.gives hp')
  constant := fun r p sub c hp hsub hc => by
    have hp' := hx.traced.1.gives hp
    refine h.constant r p sub c hp' ?_ hc
    obtain ⟨u, q, hq, rfl, -⟩ := hp
    have hr := hleft u ((hx.valued hvalued).strong u q hq)
    cases hx with
    | dropped e => exact hsub
    | ended e vs v sub hus hv hmem | merged e vs v sub w ws hus hv hw hmem =>
      rw [constant?_of_ne ((hmem _).mp hr).2, hsub]
  nonzero := fun u q hq hzero => by
    obtain ⟨u₀, q₀, s, hq₀, -, hroot⟩ := hx.traced.1 u q hq
    exact h.nonzero u₀ q₀ hq₀ (by rw [hroot, hzero, mul_zero])

/-- `x = y` and `x = -z`, with a strong value of `x` and a weak one of `y`. -/
def chain : Aliases where
  exprs := [.var ⟨"x", 0⟩ - .var ⟨"y", 0⟩, .var ⟨"x", 0⟩ + .var ⟨"z", 0⟩]
  unknowns := [⟨"x", 0⟩, ⟨"y", 0⟩, ⟨"z", 0⟩]
  strong := [(⟨"x", 0⟩, 2)]
  weak := [(⟨"y", 0⟩, 3)]

namespace chain

def context : AliasContext := { knowns := [], kind? := fun _ => none }

theorem eliminations_eq : eliminations context chain =
    [.solved (.var ⟨"x", 0⟩ - .var ⟨"y", 0⟩) [⟨"x", 0⟩, ⟨"y", 0⟩] ⟨"x", 0⟩ (.var ⟨"y", 0⟩),
      .solved (.var ⟨"y", 0⟩ + .var ⟨"z", 0⟩) [⟨"y", 0⟩, ⟨"z", 0⟩] ⟨"y", 0⟩ (-.var ⟨"z", 0⟩)] := by
  decide +kernel

theorem run_eq : (run context chain).toOption.map Aliases.unknowns = some [⟨"z", 0⟩] := by
  decide +kernel

theorem root_eq : root context.knowns (eliminations context chain) ⟨"x", 0⟩ = (-1, ⟨"z", 0⟩) := by
  decide +kernel

theorem eq_of_strong (h : chain.strong.lookup v = some q) : v = ⟨"x", 0⟩ ∧ q = 2 := by
  simpa [chain] using mem_of_lookup h

theorem eq_of_weak (h : chain.weak.lookup v = some q) : v = ⟨"y", 0⟩ ∧ q = 3 := by
  simpa [chain] using mem_of_lookup h

theorem valued : chain.Valued where
  strong := fun v q hq => by
    rw [(eq_of_strong hq).1]
    decide
  weak := fun v q hq => by
    rw [(eq_of_weak hq).1]
    decide
  disjoint := fun v q hq => by
    rw [(eq_of_strong hq).1]
    decide

theorem plain (h : run context chain = .ok b) : Plain (eliminations context chain) := by
  have hsteps := steps_ok h
  rw [← events_forget h] at hsteps
  refine hsteps.plain (by decide) fun e vs v sub hmem u hu => ?_
  change Event.solved e vs v sub ∈ eliminations context chain at hmem
  rw [eliminations_eq] at hmem
  simp only [List.mem_cons, List.not_mem_nil, or_false, Event.solved.injEq] at hmem
  rcases hmem with ⟨rfl, rfl, -, -⟩ | ⟨rfl, rfl, -, -⟩ <;>
    rcases List.mem_pair.mp hu with rfl | rfl
  · exact ⟨1, by decide +kernel⟩
  · exact ⟨-1, by decide +kernel⟩
  · exact ⟨1, by decide +kernel⟩
  · exact ⟨1, by decide +kernel⟩

end chain

end Aliases

end Flange

import Mathlib.Analysis.Calculus.IteratedDeriv.Lemmas
import Flange.Proofs.Solution.Kept

/-! # Derivatives along reduced systems

Along a trajectory on which the states change at their rates, the expression for a derivative of
any order has the value of that derivative. At each order the derivatives of states that appear are
first ones, and the rates take their places.
-/

namespace Flange

namespace Trajectory

variable {T : Trajectory} {t : ℝ}

/-- The derivative of order `k` of the value of `s`. -/
noncomputable def rateOf (T : Trajectory) (s : Symbol) (k : Nat) : ℝ → ℝ :=
  iteratedDeriv k fun u => (T.valuation u).symbol s

end Trajectory

namespace ReducedSystem

variable {T : Trajectory} {r : ReducedSystem} {e f : Expr} {s : Symbol} {v x : Var} {k : Nat}

/-- The variables, parameters and inputs of a reduced system. -/
def Has (r : ReducedSystem) : Symbol → Prop
  | .time => False
  | .par n => ∃ p ∈ r.knowns, p.1 = n
  | .var v => v ∈ r.states ∨ v ∈ r.algebraic ∨ (∃ q ∈ r.observed, q.1 = v) ∨ v ∈ r.inputs

/-- Rates and what is observed contain no derivatives. -/
structure Underived (r : ReducedSystem) : Prop where
  rates : ∀ f ∈ r.rates, f.hasDerivative = false
  observed : ∀ q ∈ r.observed, q.2.hasDerivative = false

/-- Along the trajectory the states change at their rates, and what is observed has its values. -/
structure Follows (T : Trajectory) (r : ReducedSystem) : Prop where
  rates : List.Forall₂ (fun x f => T.Reads f (T.var x.der)) r.states r.rates
  observed : ∀ q ∈ r.observed, T.Reads q.2 (T.var q.1)

/-- No derivative of a state occurs. -/
def StateFree (r : ReducedSystem) (e : Expr) : Prop :=
  e.Within (Symbol.Only fun w => ∀ x ∈ r.states, ∀ j, w ≠ x.der (j + 1))

theorem stateFree_of_hasDerivative (h : e.hasDerivative = false) : r.StateFree e := by
  intro s hs
  cases s with
  | var w =>
    rintro x - j rfl
    have := List.any_eq_false.mp h _ hs
    simp [Var.isDerivative] at this
  | _ => trivial

/-! ### The rates in the places of derivatives -/

theorem rateReplacement_eq (r : ReducedSystem) :
    r.rateReplacement = (r.states.zip r.rates).map fun p => (.var p.1.der, p.2) := by
  rw [rateReplacement, ← List.map_uncurry_zip_eq_zipWith]
  rfl

theorem of_lookup_rateReplacement (h : r.rateReplacement.lookup s = some f) :
    ∃ p ∈ r.states.zip r.rates, s = .var p.1.der ∧ f = p.2 := by
  have hmem := mem_of_lookup h
  rw [rateReplacement_eq] at hmem
  obtain ⟨p, hp, heq⟩ := List.mem_map.mp hmem
  obtain ⟨rfl, rfl⟩ := Prod.mk.inj heq
  exact ⟨p, hp, rfl, rfl⟩

theorem exists_lookup_rateReplacement (hlen : r.states.length = r.rates.length)
    (hx : x ∈ r.states) : ∃ f, r.rateReplacement.lookup (.var x.der) = some f := by
  rw [← List.map_fst_zip hlen.le] at hx
  obtain ⟨p, hp, rfl⟩ := List.mem_map.mp hx
  refine exists_lookup (b := p.2) ?_
  rw [rateReplacement_eq]
  exact List.mem_map_of_mem hp

theorem Follows.respects (h : r.Follows T) : T.Respects r.rateReplacement := by
  rw [rateReplacement_eq]
  exact List.forall_mem_map.mpr fun p hp => (List.forall₂_iff_zip.mp h.rates).2 hp

/-- A first derivative of a state is replaced by the rate. -/
theorem stateFree_replaceSymbol (hlen : r.states.length = r.rates.length) (hr : r.Underived)
    (hs : ∀ w, s = .var w → ∀ x ∈ r.states, ∀ j, w ≠ x.der (j + 2)) :
    r.StateFree (Expr.replaceSymbol r.rateReplacement s) := by
  rcases Expr.replaceSymbol_cases r.rateReplacement s with
    ⟨f, hf, heq⟩ | ⟨v, f, -, -, -, hf, -⟩ | ⟨hnone, -, heq⟩
  · obtain ⟨p, hp, -, rfl⟩ := of_lookup_rateReplacement hf
    rw [heq]
    exact stateFree_of_hasDerivative (hr.rates _ (List.of_mem_zip hp).2)
  · -- only derivatives are replaced
    obtain ⟨p, -, hv, -⟩ := of_lookup_rateReplacement hf
    have := congrArg Var.order (Symbol.var.inj hv)
    simp at this
  · rw [heq]
    refine Expr.within_sym.mpr ?_
    cases s with
    | var w =>
      rintro x hx j rfl
      cases j with
      | zero =>
        obtain ⟨f, hf⟩ := exists_lookup_rateReplacement hlen hx
        rw [hnone] at hf
        simp at hf
      | succ j => exact hs _ rfl x hx j rfl
    | _ => trivial

/-- One more derivative leaves no derivative of a state. -/
theorem StateFree.step (hlen : r.states.length = r.rates.length) (hr : r.Underived)
    (h : r.StateFree e) : r.StateFree (e.timeDerivative.substitute r.rateReplacement) := by
  refine Expr.within_substitute (Expr.within_timeDerivative (fun s hs => ?_) fun v hv => ?_)
  · refine stateFree_replaceSymbol hlen hr ?_
    rintro w rfl x hx j
    exact h _ hs x hx (j + 1)
  · refine stateFree_replaceSymbol hlen hr ?_
    rintro w hw x hx j rfl
    have hder : v.der = (x.der (j + 1)).der := (Symbol.var.inj hw).trans (Var.der_der x _ 1).symm
    exact h _ hv x hx j (Var.der_injective hder)

theorem StateFree.timeDerivative (hlen : r.states.length = r.rates.length) (hr : r.Underived)
    (h : r.StateFree e) : ∀ k, r.StateFree (r.timeDerivative e k)
  | 0 => h
  | k + 1 => (StateFree.timeDerivative hlen hr h k).step hlen hr

theorem reads_sym (T : Trajectory) (s : Symbol) : T.Reads (.sym s) (T.rateOf s 0) := by
  intro t _
  rw [Trajectory.rateOf, iteratedDeriv_zero]
  exact Expr.denotes_sym s

theorem stateFree_var (hv : v.order = 0) : r.StateFree (.var v) := by
  refine Expr.within_var.mpr ?_
  rintro x - j rfl
  simp at hv

/-- What stands for a variable has its value and contains no derivative of a state. -/
theorem Follows.baseExpression (h : r.Follows T) (hr : r.Underived) (hs : s.base = s)
    (hhas : r.Has s) : ∃ e, r.baseExpression s = .ok e ∧ T.Reads e (T.rateOf s 0) ∧
      r.StateFree e := by
  cases s with
  | time => exact hhas.elim
  | par n =>
    obtain ⟨p, hp, rfl⟩ := hhas
    obtain ⟨q, hq⟩ := exists_lookup hp
    refine ⟨.par p.1, ?_, reads_sym T _, Expr.within_sym.mpr trivial⟩
    simp [ReducedSystem.baseExpression, hq]
  | var v =>
    have hv : v.order = 0 := by rw [← Symbol.var.inj hs, Var.order_base]
    unfold ReducedSystem.baseExpression
    dsimp only
    split
    · exact ⟨_, rfl, reads_sym T _, stateFree_var hv⟩
    · next hretained =>
      split
      · next e he =>
        have hmem := mem_of_lookup he
        refine ⟨e, rfl, fun t ht => ?_, stateFree_of_hasDerivative (hr.observed _ hmem)⟩
        rw [Trajectory.rateOf, iteratedDeriv_zero]
        exact h.observed _ hmem t ht
      · next hnone =>
        have hinput : v ∈ r.inputs := by
          rcases hhas with hx | hy | ⟨q, hq, rfl⟩ | hu
          · exact absurd (List.mem_append_left _ hx) (by simpa [unknowns] using hretained)
          · exact absurd (List.mem_append_right _ hy) (by simpa [unknowns] using hretained)
          · obtain ⟨e, he⟩ := exists_lookup (show (q.1, q.2) ∈ r.observed from hq)
            rw [hnone] at he
            simp at he
          · exact hu
        rw [if_pos (by simpa using hinput)]
        exact ⟨_, rfl, reads_sym T _, stateFree_var hv⟩

end ReducedSystem

end Flange

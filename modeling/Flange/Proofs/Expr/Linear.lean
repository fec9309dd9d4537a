import Flange.Proofs.Expr.Occurrence

/-! # Solutions of linear equations

A solution contains none of the variables that were solved for, and nothing that was not in the
equations.
-/

namespace Flange

namespace Expr

variable {P : Symbol → Prop} {e c : Expr} {vs : List Var} {es : List Expr}

/-- `u` is one of the variables `vs` or a derivative of one of them. -/
def MentionsAny (vs : List Var) (u : Symbol) : Prop := ∃ v ∈ vs, Mentions (.var v) u

/-- A function occurs in itself and in its derivatives. -/
theorem mentions_var {v w : Var} :
    Mentions (.var v) (.var w) ↔ w = v ∨ v.order = 0 ∧ w.base = v := by
  unfold Mentions
  rw [Symbol.var.injEq]
  refine or_congr_right (and_congr_right fun ho => ?_)
  rw [← Var.base_eq_iff, Var.base_of_order ho]

theorem lookup_zeros {s : Symbol} : ∀ ss : List Symbol,
    (ss.map fun s => (s, zero)).lookup s = if s ∈ ss then some zero else none
  | [] => rfl
  | t :: ss => by
    rw [List.map_cons, List.lookup_cons, lookup_zeros ss]
    by_cases hst : s = t
    · simp [hst]
    · simp [beq_false_of_ne hst, hst]

theorem timeDerivatives_zero : ∀ k, zero.timeDerivatives k = zero
  | 0 => rfl
  | k + 1 => by rw [timeDerivatives, timeDerivatives_zero k]; rfl

/-- With zeros in the place of `vs` nothing of them is left. -/
theorem within_zeros (h : e.Within fun u => P u ∨ MentionsAny vs u) :
    (e.substitute ((vs.map Symbol.var).map fun s => (s, zero))).Within P := by
  refine within_substitute fun u hu => ?_
  change (replaceSymbol _ u).Within P
  unfold replaceSymbol
  rw [lookup_zeros]
  by_cases hmem : u ∈ vs.map Symbol.var
  · simp [hmem]
  · rw [if_neg hmem]
    rcases h u hu with hP | ⟨v, hv, hm⟩
    · cases u with
      | var w =>
        dsimp only
        split
        · simpa using hP
        · rw [lookup_zeros]
          split
          · next e he =>
            split at he
            · obtain rfl := Option.some.inj he
              simp [timeDerivatives_zero]
            · simp at he
          · simpa using hP
      | _ => simpa using hP
    · cases u with
      | var w =>
        rcases mentions_var.mp hm with rfl | ⟨-, hbase⟩
        · exact absurd (List.mem_map_of_mem hv) hmem
        · dsimp only
          split
          · next hw =>
            rw [Var.base_of_order hw] at hbase
            exact absurd (List.mem_map_of_mem (hbase ▸ hv)) hmem
          · rw [lookup_zeros, hbase, if_pos (List.mem_map_of_mem hv)]
            simp [timeDerivatives_zero]
      | _ => exact absurd hm (by simp [Mentions])

theorem within_of_not_has (h : c.Within fun u => P u ∨ MentionsAny vs u)
    (hhas : ∀ v ∈ vs, c.has (.var v) = false) : c.Within P := by
  intro u hu
  refine (h u hu).resolve_right ?_
  rintro ⟨v, hv, hm⟩
  have := hhas v hv
  simp only [has, List.any_eq_false, decide_eq_true_eq] at this
  exact this u hu hm

/-- A coefficient is the partial derivative, where this is not zero and free of the variable. -/
theorem linearCoeff_eq_some {s : Symbol} : e.linearCoeff? s = some c ↔
    e.partialDerivative s = c ∧ c.isZero = false ∧ c.has s = false := by
  simp only [linearCoeff?, Option.ite_none_left_eq_some, Bool.or_eq_true, not_or, Bool.not_eq_true,
    Option.some.injEq]
  constructor
  · rintro ⟨h, rfl⟩
    exact ⟨rfl, h⟩
  · rintro ⟨rfl, h⟩
    exact ⟨h, rfl⟩

theorem within_solveLinear {v : Var} {sol : Expr} (hs : e.solveLinear? (.var v) = some sol)
    (h : e.Within fun u => P u ∨ MentionsAny [v] u) : sol.Within P := by
  obtain ⟨c, hc, rfl⟩ := Option.map_eq_some_iff.mp hs
  obtain ⟨rfl, -, hfree⟩ := linearCoeff_eq_some.mp hc
  exact within_div (within_neg (@within_zeros P e [v] h)) (within_of_not_has
    (within_partialDerivative (by simp) h) (by simpa using hfree))

end Expr

/-! ### Blocks -/

namespace Fraction

open Flange.Expr

variable {P : Symbol → Prop} {gens : List Expr}

theorem within_monomialExpr (h : ∀ g ∈ gens, g.Within P) (m : Monomial) (c : Rat) :
    (monomialExpr gens m c).Within P := by
  refine within_productOf fun e he => ?_
  rcases List.mem_cons.mp he with rfl | he
  · exact within_num c
  · rw [← List.map_uncurry_zip_eq_zipWith] at he
    obtain ⟨⟨g, n⟩, hgn, rfl⟩ := List.mem_map.mp he
    exact within_pow (h g (List.of_mem_zip hgn).1)

theorem within_polyExpr (h : ∀ g ∈ gens, g.Within P) (p : Poly) : (polyExpr gens p).Within P := by
  refine within_sumOf fun e he => ?_
  obtain ⟨t, -, rfl⟩ := List.mem_map.mp he
  exact within_monomialExpr h _ _

theorem within_toExpr (h : ∀ g ∈ gens, g.Within P) (f : Fraction) : (f.toExpr gens).Within P := by
  unfold toExpr
  split
  · exact within_polyExpr h _
  · refine within_sumOf fun e he => ?_
    obtain ⟨t, -, rfl⟩ := List.mem_map.mp he
    exact within_mul (within_monomialExpr h _ _) (within_pow (within_polyExpr h _))

theorem length_eliminate {k : Nat} : ∀ {js : List Nat} {done rest solved : List (List Fraction)},
    eliminate k js done rest = some solved → solved.length = done.length + js.length
  | [], done, rest, solved, h => by
    obtain rfl := Option.some.inj h
    rfl
  | j :: js, done, rest, solved, h => by
    rw [eliminate] at h
    split at h
    · simp at h
    · split at h
      · simp at h
      · rw [length_eliminate h]
        simp
        omega

end Fraction

namespace Expr

variable {P : Symbol → Prop} {e : Expr} {vs : List Var} {es : List Expr}

theorem within_generators (h : e.Within P) : ∀ g ∈ e.generators, g.Within P := by
  induction e with
  | num q => simp [generators]
  | sum a b iha ihb =>
    intro g hg
    rcases List.mem_append.mp hg with hg | hg
    · exact iha (within_sum.mp h).1 g hg
    · exact ihb (within_sum.mp h).2 g hg
  | prod a b iha ihb =>
    intro g hg
    rcases List.mem_append.mp hg with hg | hg
    · exact iha (within_prod.mp h).1 g hg
    · exact ihb (within_prod.mp h).2 g hg
  | power a q ih =>
    unfold generators
    split
    · exact ih h
    · simpa using h
  | _ => simpa [generators] using h

theorem within_generatorsOf (h : ∀ e ∈ es, e.Within P) : ∀ g ∈ generatorsOf es, g.Within P := by
  intro g hg
  simp only [generatorsOf, mem_sortedBy, List.mem_eraseDups, List.mem_flatMap] at hg
  obtain ⟨e, he, hg⟩ := hg
  exact within_generators (h e he) g hg

/-- The rows of the linear system of a block are free of its variables. -/
theorem within_rows (hlin : jointlyLinear es (vs.map .var) = true)
    (h : ∀ e ∈ es, e.Within fun u => P u ∨ MentionsAny vs u) :
    ∀ f ∈ (es.map fun e => (vs.map Symbol.var).map (e.partialDerivative ·) ++
      [-(e.substitute ((vs.map Symbol.var).map fun s => (s, zero)))]).flatten, f.Within P := by
  intro f hf
  obtain ⟨row, hrow, hf⟩ := List.mem_flatten.mp hf
  obtain ⟨e, he, rfl⟩ := List.mem_map.mp hrow
  rcases List.mem_append.mp hf with hf | hf
  · obtain ⟨s, hs, rfl⟩ := List.mem_map.mp hf
    obtain ⟨v, hv, rfl⟩ := List.mem_map.mp hs
    refine within_of_not_has (within_partialDerivative (by simp) (h e he)) fun w hw => ?_
    simp only [jointlyLinear, List.all_eq_true, Bool.not_eq_true', List.any_eq_false] at hlin
    simpa using hlin e he (.var v) hs (.var w) (List.mem_map_of_mem hw)
  · obtain rfl := List.mem_singleton.mp hf
    exact within_neg (within_zeros (h e he))

theorem solveBlock_within {sols : List Expr} (hs : solveBlock? es (vs.map .var) = some sols)
    (hlin : jointlyLinear es (vs.map .var) = true)
    (h : ∀ e ∈ es, e.Within fun u => P u ∨ MentionsAny vs u) :
    sols.length = vs.length ∧ ∀ sol ∈ sols, sol.Within P := by
  obtain ⟨solved, hsolved, rfl⟩ := Option.map_eq_some_iff.mp hs
  refine ⟨by simpa using Fraction.length_eliminate hsolved, ?_⟩
  have hgens := within_generatorsOf (within_rows hlin h)
  refine List.forall_mem_map.mpr fun row _ => ?_
  cases row[(vs.map Symbol.var).length]? with
  | none => exact within_zero
  | some f => exact Fraction.within_toExpr hgens f

end Expr

end Flange

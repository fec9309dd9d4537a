import Mathlib.Algebra.MvPolynomial.Eval
import Mathlib.RingTheory.Localization.FractionRing
import Flange.Expr.Fraction
import Flange.Proofs.Expr.Divisor
import Flange.Proofs.Expr.Value

/-! # Values of fractions

The operations on fractions compute in every field into which the polynomials are mapped, as long
as no denominator vanishes there: in the rational functions, where a fraction is zero only when its
numerator is empty, and in the real numbers, where the fraction of an expression has its value.
-/

namespace Flange

namespace Fraction

/-! ### Operations -/

section Operations

variable {F : Type} [Field F] {φ : MvPolynomial ℕ ℚ →+* F} {k : Nat} {f g : Fraction} {x y : F}

/-- Under `φ` the fraction has the value `x`; its denominator does not vanish. -/
structure Yields (φ : MvPolynomial ℕ ℚ →+* F) (k : Nat) (f : Fraction) (x : F) : Prop where
  num : f.num.Normal k
  den : f.den.Normal k
  den_ne_zero : φ f.den.toMv ≠ 0
  num_eq : φ f.num.toMv = x * φ f.den.toMv

theorem map_C_ne_zero {c : ℚ} (hc : c ≠ 0) : φ (MvPolynomial.C c) ≠ 0 := by
  intro hzero
  have hone : φ (MvPolynomial.C c) * φ (MvPolynomial.C c⁻¹) = 1 := by
    rw [← map_mul, ← map_mul, mul_inv_cancel₀ hc, map_one, map_one]
  rw [hzero, zero_mul] at hone
  exact zero_ne_one hone

theorem Yields.congr (h : Yields φ k f x) (hxy : x = y) : Yields φ k f y := hxy ▸ h

theorem Yields.eq_div (h : Yields φ k f x) : x = φ f.num.toMv / φ f.den.toMv :=
  eq_div_of_mul_eq h.den_ne_zero h.num_eq.symm

theorem Yields.eq_zero (h : Yields φ k f x) (hf : f.isZero = true) : x = 0 := by
  have hnum := h.num_eq
  rw [List.isEmpty_iff.mp hf, Poly.toMv_nil, map_zero, zero_eq_mul] at hnum
  exact hnum.resolve_right h.den_ne_zero

theorem yields_ofPoly {p : Poly} (hp : p.Normal k) : Yields φ k (ofPoly k p) (φ p.toMv) where
  num := hp
  den := Poly.normal_const (k := k) (c := 1)
  den_ne_zero := by simp [ofPoly]
  num_eq := by simp [ofPoly]

theorem yields_const (q : ℚ) : Yields φ k (const k q) (φ (MvPolynomial.C q)) :=
  (yields_ofPoly Poly.normal_const).congr (by rw [Poly.toMv_const])

theorem Yields.scale {p q : Poly} (h : Yields φ k ⟨p, q⟩ x) {c : ℚ} (hc : c ≠ 0) :
    Yields φ k ⟨p.scale c, q.scale c⟩ x where
  num := h.num.scale
  den := h.den.scale
  den_ne_zero := by
    rw [Poly.toMv_scale, map_mul]
    exact mul_ne_zero (map_C_ne_zero hc) h.den_ne_zero
  num_eq := by
    have hnum : φ p.toMv = x * φ q.toMv := h.num_eq
    rw [Poly.toMv_scale, Poly.toMv_scale, map_mul, map_mul, hnum]
    ring

/-- Common factors can be left out. -/
theorem yields_lowest (h : Yields φ k f x) :
    Yields φ k ⟨(lowest k f).1, (lowest k f).2⟩ x := by
  unfold lowest
  split
  · exact h
  · have hgcd : (Poly.gcd (List.range k) f.num f.den).Normal k := Poly.normal_gcd h.num h.den
    dsimp only
    split
    · next n d hn hd =>
      obtain ⟨hnn, hn⟩ := Poly.div_spec h.num hgcd hn
      obtain ⟨hdn, hd⟩ := Poly.div_spec h.den hgcd hd
      have hden := h.den_ne_zero
      have hnum := h.num_eq
      rw [← hd, map_mul] at hden hnum
      rw [← hn, map_mul, ← mul_assoc] at hnum
      exact ⟨hnn, hdn, left_ne_zero_of_mul hden, mul_right_cancel₀ (right_ne_zero_of_mul hden) hnum⟩
    · exact h

theorem yields_cancel (h : Yields φ k f x) : Yields φ k (cancel k f) x := by
  unfold cancel
  split
  · next hzero => exact (yields_const 0).congr (by rw [h.eq_zero hzero, map_zero, map_zero])
  · have hlow := yields_lowest h
    generalize lowest k f = nd at hlow
    obtain ⟨n, d⟩ := nd
    dsimp only at hlow ⊢
    split
    · exact hlow
    · exact hlow.scale (one_div_ne_zero (Poly.normal_cons.mp hlow.den).2.1)

theorem Yields.add (hf : Yields φ k f x) (hg : Yields φ k g y) :
    Yields φ k (add k f g) (x + y) := by
  unfold Fraction.add
  split
  · next hzero => exact hg.congr (by rw [hf.eq_zero hzero, zero_add])
  split
  · next hzero => exact hf.congr (by rw [hg.eq_zero hzero, add_zero])
  split
  · next hden =>
    refine yields_cancel ⟨hf.num.add hg.num, hf.den, hf.den_ne_zero, ?_⟩
    have hg := hg.num_eq
    rw [← beq_iff_eq.mp hden] at hg
    rw [Poly.toMv_add, map_add, hf.num_eq, hg, add_mul]
  · refine yields_cancel ⟨(hf.num.mul hg.den).add (hg.num.mul hf.den), hf.den.mul hg.den, ?_, ?_⟩
    · rw [Poly.toMv_mul hf.den hg.den, map_mul]
      exact mul_ne_zero hf.den_ne_zero hg.den_ne_zero
    · simp only [Poly.toMv_add, Poly.toMv_mul hf.num hg.den, Poly.toMv_mul hg.num hf.den,
        Poly.toMv_mul hf.den hg.den, map_add, map_mul, hf.num_eq, hg.num_eq]
      ring

theorem Yields.mul (hf : Yields φ k f x) (hg : Yields φ k g y) :
    Yields φ k (mul k f g) (x * y) := by
  refine yields_cancel ⟨hf.num.mul hg.num, hf.den.mul hg.den, ?_, ?_⟩
  · rw [Poly.toMv_mul hf.den hg.den, map_mul]
    exact mul_ne_zero hf.den_ne_zero hg.den_ne_zero
  · simp only [Poly.toMv_mul hf.num hg.num, Poly.toMv_mul hf.den hg.den, map_mul, hf.num_eq,
      hg.num_eq]
    ring

theorem Yields.neg (h : Yields φ k f x) : Yields φ k (neg f) (-x) where
  num := h.num.neg
  den := h.den
  den_ne_zero := h.den_ne_zero
  num_eq := by
    change φ (Poly.neg f.num).toMv = -x * φ f.den.toMv
    rw [Poly.toMv_neg, map_neg, h.num_eq, neg_mul]

theorem Yields.sub (hf : Yields φ k f x) (hg : Yields φ k g y) :
    Yields φ k (sub k f g) (x - y) := (hf.add hg.neg).congr (sub_eq_add_neg x y).symm

theorem Yields.inv (h : Yields φ k f x) (hx : x ≠ 0) : Yields φ k (inv k f) x⁻¹ := by
  refine yields_cancel ⟨h.den, h.num, ?_, ?_⟩
  · change φ f.num.toMv ≠ 0
    rw [h.num_eq]
    exact mul_ne_zero hx h.den_ne_zero
  · change φ f.den.toMv = x⁻¹ * φ f.num.toMv
    rw [h.num_eq, inv_mul_cancel_left₀ hx]

theorem Yields.powNat (h : Yields φ k f x) (n : Nat) :
    Yields φ k ⟨Poly.pow k f.num n, Poly.pow k f.den n⟩ (x ^ n) where
  num := h.num.pow n
  den := h.den.pow n
  den_ne_zero := by
    rw [Poly.toMv_pow h.den, map_pow]
    exact pow_ne_zero n h.den_ne_zero
  num_eq := by
    rw [Poly.toMv_pow h.num, Poly.toMv_pow h.den, map_pow, map_pow, h.num_eq, mul_pow]

theorem Yields.pow (h : Yields φ k f x) {n : Int} (hn : 0 ≤ n ∨ x ≠ 0) :
    Yields φ k (pow k f n) (x ^ n) := by
  unfold Fraction.pow
  split
  · next hpos =>
    refine (h.powNat n.toNat).congr ?_
    rw [← zpow_natCast, Int.toNat_of_nonneg hpos]
  · next hneg =>
    have hx := hn.resolve_left hneg
    refine ((h.powNat (-n).toNat).inv (pow_ne_zero _ hx)).congr ?_
    rw [← zpow_natCast, Int.toNat_of_nonneg (by omega), zpow_neg, inv_inv]

end Operations

/-! ### Rational functions -/

section Formal

variable {k : Nat} {f g : Fraction}

/-- The rational functions in the generators. -/
abbrev Formal := FractionRing (MvPolynomial ℕ ℚ)

noncomputable def formal (f : Fraction) : Formal :=
  algebraMap _ Formal f.num.toMv / algebraMap _ Formal f.den.toMv

/-- Numerator and denominator are in normal form, and the denominator is not zero. -/
structure Proper (k : Nat) (f : Fraction) : Prop where
  num : f.num.Normal k
  den : f.den.Normal k
  den_ne_nil : f.den ≠ []

theorem algebraMap_ne_zero_iff {p : Poly} (hp : p.Normal k) :
    algebraMap (MvPolynomial ℕ ℚ) Formal p.toMv ≠ 0 ↔ p ≠ [] := by
  rw [Ne, Ne, hp.eq_nil_iff, map_eq_zero_iff _ (IsFractionRing.injective _ Formal)]

theorem Proper.yields (h : Proper k f) : Yields (algebraMap _ Formal) k f (formal f) where
  num := h.num
  den := h.den
  den_ne_zero := (algebraMap_ne_zero_iff h.den).mpr h.den_ne_nil
  num_eq := (div_mul_cancel₀ _ ((algebraMap_ne_zero_iff h.den).mpr h.den_ne_nil)).symm

theorem Yields.proper {F : Type} [Field F] {φ : MvPolynomial ℕ ℚ →+* F} {x : F}
    (h : Yields φ k f x) : Proper k f where
  num := h.num
  den := h.den
  den_ne_nil := by
    rintro hden
    exact h.den_ne_zero (by rw [hden, Poly.toMv_nil, map_zero])

theorem Yields.formal_eq {x : Formal} (h : Yields (algebraMap _ Formal) k f x) : formal f = x :=
  h.eq_div.symm

/-- Fractions are tested for zero exactly. -/
theorem Proper.isZero_iff (h : Proper k f) : f.isZero = true ↔ formal f = 0 := by
  refine ⟨h.yields.eq_zero, fun hzero => ?_⟩
  have hnum := h.yields.num_eq
  rw [hzero, zero_mul, map_eq_zero_iff _ (IsFractionRing.injective _ Formal),
    ← h.num.eq_nil_iff] at hnum
  exact List.isEmpty_iff.mpr hnum

end Formal

/-! ### Values of expressions -/

section Real

variable {gens : List Expr} {ρ : Valuation ℝ} {e : Expr} {smooth : Prop}

/-- Polynomials in the generators have the values of the generators. -/
noncomputable def valueAt (gens : List Expr) (ρ : Valuation ℝ) : MvPolynomial ℕ ℚ →+* ℝ :=
  (MvPolynomial.aeval fun i => (gens.getD i .zero).eval ρ).toRingHom

theorem yields_generator (he : e ∈ gens) : Yields (valueAt gens ρ) gens.length
    (ofPoly gens.length (Poly.generator gens.length (gens.idxOf e))) (e.eval ρ) := by
  have hlt : gens.idxOf e < gens.length := List.idxOf_lt_length_iff.mpr he
  refine (yields_ofPoly Poly.normal_generator).congr ?_
  rw [Poly.toMv_generator hlt]
  change MvPolynomial.aeval _ _ = _
  rw [MvPolynomial.aeval_X, List.getD_eq_getElem _ _ hlt, List.getElem_idxOf]

/-- Where an expression is defined its fraction has its value. -/
theorem yields_ofExpr (h : e.Regular smooth ρ) (hgens : ∀ g ∈ e.generators, g ∈ gens) :
    Yields (valueAt gens ρ) gens.length (ofExpr gens e) (e.eval ρ) := by
  induction e with
  | num q =>
    refine (yields_const q).congr ?_
    change MvPolynomial.aeval _ _ = _
    rw [MvPolynomial.aeval_C]
    rfl
  | sum a b iha ihb =>
    simp only [Expr.generators, List.mem_append] at hgens
    exact (iha h.1 fun g hg => hgens g (Or.inl hg)).add (ihb h.2 fun g hg => hgens g (Or.inr hg))
  | prod a b iha ihb =>
    simp only [Expr.generators, List.mem_append] at hgens
    exact (iha h.1 fun g hg => hgens g (Or.inl hg)).mul (ihb h.2 fun g hg => hgens g (Or.inr hg))
  | power a q ih =>
    obtain ⟨ha, hdef, -⟩ := h
    unfold Expr.generators at hgens
    unfold ofExpr
    split at hgens
    · next hden =>
      rw [if_pos hden]
      refine ((ih ha hgens).pow ?_).congr (realPower_of_den hden).symm
      exact (le_or_gt 0 q.num).imp_right fun hneg => hdef.ne_zero (Rat.num_neg.mp hneg)
    · next hden =>
      rw [if_neg hden]
      have hpos : 0 < a.eval ρ := hdef.pos hden
      have hroot := yields_generator (ρ := ρ) (hgens _ List.mem_cons_self)
      refine (hroot.pow (Or.inr (realPower_pos hpos).ne')).congr ?_
      have hq : mkRat 1 q.den * (q.num : ℚ) = q := by
        rw [Rat.mkRat_eq_div, Int.cast_one, one_div, inv_mul_eq_div, Rat.num_div_den]
      rw [Expr.eval_power, Expr.eval_power, ← realPower_intCast, ← realPower_mul_of_pos hpos, hq]
  | sym s => exact yields_generator (hgens _ List.mem_cons_self)
  | fn f a => exact yields_generator (hgens _ List.mem_cons_self)
  | sat a => exact yields_generator (hgens _ List.mem_cons_self)
  | gate a b => exact yields_generator (hgens _ List.mem_cons_self)
  | raised a b => exact yields_generator (hgens _ List.mem_cons_self)

end Real

end Fraction

end Flange

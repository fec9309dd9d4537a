import Flange.Proofs.Expr.Polynomial

/-! # Greatest common divisors in normal form

What is computed as the greatest common divisor of two polynomials is a polynomial in normal form.
That it divides them is tested by the divisions that follow.
-/

namespace Flange

namespace Poly

variable {k i d : Nat} {p q a b : Poly}

theorem Normal.coeffAt (h : Normal k p) (i d : Nat) : Normal k (coeffAt i d p) where
  length := List.forall_mem_map.mpr fun t ht => by
    rw [List.length_set, h.length t (List.mem_of_mem_filter ht)]
  sorted := by
    refine List.pairwise_map.mpr ((h.sorted.filter _).imp_of_mem fun hs ht hlt => ?_)
    obtain ⟨hs, hsd⟩ := List.mem_filter.mp hs
    obtain ⟨ht, htd⟩ := List.mem_filter.mp ht
    rwa [Monomial.cmp_set ((h.length _ hs).trans (h.length _ ht).symm)]
    rw [beq_iff_eq.mp hsd, beq_iff_eq.mp htd]
  coeff := List.forall_mem_map.mpr fun t ht => h.coeff t (List.mem_of_mem_filter ht)

theorem Normal.of_mem_coeffs (h : Normal k p) (hq : q ∈ coeffs i p) : Normal k q := by
  obtain ⟨d, -, rfl⟩ := List.mem_map.mp hq
  exact h.coeffAt i d

theorem Normal.pseudoRem (hb : Normal k b) : ∀ {fuel : Nat} {a : Poly}, Normal k a →
    Normal k (pseudoRem i b fuel a)
  | 0, _, ha => ha
  | fuel + 1, a, ha => by
    rw [Poly.pseudoRem]
    dsimp only
    split
    · exact ha
    · next hmore =>
      cases a with
      | nil => simp at hmore
      | cons t a =>
        have hshift : ((Monomial.unit t.1.length).set i
            (degree i (t :: a) - degree i b)).length = k := by
          rw [List.length_set, length_unit, ha.length t List.mem_cons_self]
        exact hb.pseudoRem (((hb.coeffAt i _).mul ha).sub
          (((ha.coeffAt i _).mul hb).mulTerm hshift one_ne_zero))

theorem Normal.monic (h : Normal k p) : Normal k (monic p) := by
  unfold Poly.monic
  split
  · exact normal_nil
  · exact h.scale

theorem Normal.head_length (h : Normal k p) (hne : p ≠ []) :
    (p.head?.map fun t => t.1.length).getD 0 = k := by
  cases p with
  | nil => exact absurd rfl hne
  | cons t p => exact h.length t List.mem_cons_self

theorem Normal.euclid {primitive : Poly → Poly}
    (hprimitive : ∀ r, Normal k r → Normal k (primitive r)) :
    ∀ {fuel : Nat} {a b : Poly}, a ≠ [] → Normal k a → Normal k b →
      Normal k (gcd.euclid i primitive fuel a b)
  | 0, _, _, _, ha, _ => ha
  | fuel + 1, a, b, hne, ha, hb => by
    rw [gcd.euclid]
    split
    · exact ha
    · next hbne =>
      split
      · rw [ha.head_length hne]
        exact normal_const
      · have hbne : b ≠ [] := fun h => hbne (h ▸ rfl)
        exact Normal.euclid hprimitive hbne hb (hprimitive _ (hb.pseudoRem ha)).monic

theorem normal_gcd_nil (hp : Normal k p) (hq : Normal k q) : Normal k (gcd [] p q) := by
  have hone : ∀ {m : Monomial}, m.length = k → Normal k [(m.map fun _ => 0, 1)] := fun hm =>
    normal_cons.mpr ⟨by rwa [List.length_map], one_ne_zero, by simp, normal_nil⟩
  cases p with
  | cons t p => exact hone (hp.length t List.mem_cons_self)
  | nil =>
    cases q with
    | nil => exact normal_nil
    | cons t q => exact hone (hq.length t List.mem_cons_self)

theorem normal_foldl {f : Poly → Poly → Poly}
    (hf : ∀ p q, Normal k p → Normal k q → Normal k (f p q)) {ps : List Poly}
    (hps : ∀ q ∈ ps, Normal k q) (hp : Normal k p) : Normal k (ps.foldl f p) := by
  induction ps generalizing p with
  | nil => exact hp
  | cons q ps ih =>
    obtain ⟨hq, hps⟩ := List.forall_mem_cons.mp hps
    exact ih hps (hf p q hp hq)

theorem normal_getD_div (hp : Normal k p) (hq : Normal k q) :
    Normal k ((div? p q).getD p) := by
  cases hdiv : div? p q with
  | none => exact hp
  | some r => exact (div_spec hp hq hdiv).1

theorem getD_div_ne_nil (hp : Normal k p) (hq : Normal k q) (hne : p ≠ []) :
    (div? p q).getD p ≠ [] := by
  cases hdiv : div? p q with
  | none => exact hne
  | some r => exact ne_nil_of_div hp hq hdiv hne

theorem normal_gcd : ∀ {is : List Nat} {p q : Poly}, Normal k p → Normal k q →
    Normal k (gcd is p q)
  | [], _, _, hp, hq => normal_gcd_nil hp hq
  | i :: is, p, q, hp, hq => by
    have ih : ∀ p q, Normal k p → Normal k q → Normal k (gcd is p q) := fun _ _ => normal_gcd
    have hcontent : ∀ r, Normal k r → Normal k ((coeffs i r).foldl (gcd is) []) := fun r hr =>
      normal_foldl ih (fun _ => hr.of_mem_coeffs) normal_nil
    rw [gcd]
    split
    · exact hq.monic
    · next hpne =>
      split
      · exact hp.monic
      · next hqne =>
        have hpne : p ≠ [] := fun h => hpne (h ▸ rfl)
        have hqne : q ≠ [] := fun h => hqne (h ▸ rfl)
        have hprimitive : ∀ r, Normal k r → Normal k
            (if r.isEmpty then r else (div? r ((coeffs i r).foldl (gcd is) [])).getD r) := by
          intro r hr
          split
          · exact hr
          · exact normal_getD_div hr (hcontent r hr)
        dsimp only
        split
        · exact ih p q hp hq
        · split
          · exact ih p _ hp (hcontent q hq)
          · split
            · exact ih _ q (hcontent p hp) hq
            · refine ((ih _ _ (hcontent p hp) (hcontent q hq)).mul (hprimitive _ ?_)).monic
              split
              · exact .euclid hprimitive (getD_div_ne_nil hq (hcontent q hq) hqne)
                  (normal_getD_div hq (hcontent q hq)) (normal_getD_div hp (hcontent p hp))
              · exact .euclid hprimitive (getD_div_ne_nil hp (hcontent p hp) hpne)
                  (normal_getD_div hp (hcontent p hp)) (normal_getD_div hq (hcontent q hq))

end Poly

end Flange

import Mathlib.Algebra.MvPolynomial.CommRing
import Mathlib.Data.List.ToFinsupp
import Mathlib.RingTheory.MvPolynomial.Basic
import Flange.Expr.Polynomial

/-! # Polynomials in normal form

A sparse polynomial in normal form is empty exactly when it is the zero polynomial. The arithmetic
keeps the normal form and computes what its names say.
-/

namespace Flange

namespace Monomial

variable {k : Nat} {l m n : Monomial}

/-! ### Exponents -/

/-- The exponents as a function of the index of the generator. -/
noncomputable def exponents (m : Monomial) : ℕ →₀ ℕ := m.toFinsupp

@[simp] theorem exponents_apply (m : Monomial) (i : Nat) : m.exponents i = m.getD i 0 :=
  List.toFinsupp_apply m i

theorem exponents_inj (h : m.length = n.length) : m.exponents = n.exponents ↔ m = n := by
  constructor
  · intro heq
    refine List.ext_getElem h fun i hm hn => ?_
    have hi := DFunLike.congr_fun heq i
    rwa [exponents_apply, exponents_apply, List.getD_eq_getElem _ _ hm,
      List.getD_eq_getElem _ _ hn] at hi
  · rintro rfl
    rfl

theorem length_mul (hm : m.length = k) (hn : n.length = k) : (mul m n).length = k := by
  simp [mul, hm, hn]

theorem length_div (hm : m.length = k) (hn : n.length = k) : (div m n).length = k := by
  simp [div, hm, hn]

theorem exponents_mul (h : m.length = n.length) :
    (mul m n).exponents = m.exponents + n.exponents := by
  ext i
  simp only [exponents_apply, Finsupp.add_apply, mul, List.getD_eq_getElem?_getD,
    List.getElem?_zipWith]
  by_cases hi : i < m.length
  · rw [List.getElem?_eq_getElem hi, List.getElem?_eq_getElem (h ▸ hi)]
    rfl
  · rw [List.getElem?_eq_none (not_lt.mp hi), List.getElem?_eq_none (h ▸ not_lt.mp hi)]
    rfl

/-- A monomial that divides another one does so without a remainder. -/
theorem div_mul : ∀ {m n : Monomial}, m.length = n.length → divides n m = true →
    mul (div m n) n = m
  | [], [], _, _ => rfl
  | a :: m, b :: n, hlen, h => by
    simp only [divides, List.zipWith_cons_cons, List.all_cons, Bool.and_eq_true, id,
      decide_eq_true_eq] at h
    have ih := div_mul (Nat.succ.inj hlen) (n := n) (m := m) h.2
    simp only [mul, div, List.zipWith_cons_cons] at ih ⊢
    rw [ih, Nat.sub_add_cancel h.1]

@[simp] theorem exponents_unit : (unit k).exponents = 0 := by
  ext i
  simp [unit, List.getElem?_replicate]
  split <;> rfl

theorem exponents_unit_set {i : Nat} (hi : i < k) :
    exponents ((unit k).set i 1) = Finsupp.single i 1 := by
  ext j
  rw [exponents_apply, List.getD_eq_getElem?_getD, List.getElem?_set, Finsupp.single_apply]
  by_cases hij : i = j
  · subst hij
    simp [unit, hi]
  · rw [if_neg hij, if_neg hij, unit, List.getElem?_replicate]
    split <;> rfl

/-! ### Order -/

/-- The larger exponent comes first. -/
theorem cmp_cons_eq_lt {a b : Nat} :
    cmp (a :: m) (b :: n) = .lt ↔ b < a ∨ a = b ∧ cmp m n = .lt := by
  rw [cmp, Ordering.then_eq_lt, Nat.compare_eq_lt, Nat.compare_eq_eq, eq_comm]

theorem eq_of_cmp : ∀ {m n : Monomial}, cmp m n = .eq → m = n
  | [], [], _ => rfl
  | a :: m, b :: n, h => by
    rw [cmp, Ordering.then_eq_eq, Nat.compare_eq_eq] at h
    rw [h.1, eq_of_cmp h.2]

theorem cmp_swap : ∀ m n : Monomial, (cmp m n).swap = cmp n m
  | [], [] => rfl
  | [], _ :: _ => rfl
  | _ :: _, [] => rfl
  | a :: m, b :: n => by rw [cmp, cmp, Ordering.swap_then, cmp_swap m n, Nat.compare_swap]

theorem cmp_trans : ∀ {l m n : Monomial}, cmp l m = .lt → cmp m n = .lt → cmp l n = .lt
  | [], [], _, h, _ => by simp [cmp] at h
  | [], _ :: _, _, h, _ => by simp [cmp] at h
  | _ :: _, _, [], _, _ => rfl
  | a :: l, b :: m, c :: n, h, h' => by
    rw [cmp_cons_eq_lt] at h h' ⊢
    rcases h with h | ⟨rfl, h⟩ <;> rcases h' with h' | ⟨rfl, h'⟩
    · exact Or.inl (h'.trans h)
    · exact Or.inl h
    · exact Or.inl h'
    · exact Or.inr ⟨rfl, cmp_trans h h'⟩
  | _ :: _, [], _ :: _, _, h' => by simp [cmp] at h'

/-- Multiplication by a monomial keeps the order. -/
theorem cmp_mul_left : ∀ {l m n : Monomial}, l.length = m.length → l.length = n.length →
    cmp (mul l m) (mul l n) = cmp m n
  | [], [], [], _, _ => rfl
  | a :: l, b :: m, c :: n, hm, hn => by
    have ih := cmp_mul_left (Nat.succ.inj hm) (Nat.succ.inj hn)
    simp only [mul, List.zipWith_cons_cons] at ih ⊢
    have hcompare : compare (a + c) (a + b) = compare c b := by
      simp only [Nat.compare_eq_ite_lt, Nat.add_lt_add_iff_left]
    rw [cmp, cmp, ih, hcompare]

theorem mul_comm (m n : Monomial) : mul m n = mul n m := by
  rw [mul, mul, List.zipWith_comm]
  simp only [Nat.add_comm]

/-- Monomials with one exponent in common compare by the other ones. -/
theorem cmp_set {d : Nat} : ∀ {m n : Monomial} {i : Nat}, m.length = n.length →
    m.getD i 0 = n.getD i 0 → cmp (m.set i d) (n.set i d) = cmp m n
  | [], [], _, _, _ => rfl
  | a :: m, b :: n, 0, _, h => by
    obtain rfl : a = b := by simpa using h
    simp [cmp]
  | a :: m, b :: n, i + 1, hlen, h => by
    have ih := cmp_set (d := d) (i := i) (Nat.succ.inj hlen) (by simpa using h)
    rw [List.set_cons_succ, List.set_cons_succ, cmp, cmp, ih]

end Monomial

namespace Poly

open MvPolynomial

variable {k : Nat} {m : Monomial} {c : Rat} {p q : Poly} {t : Monomial × Rat}

/-! ### Normal form -/

/-- The terms come in decreasing order, none with the coefficient 0. -/
structure Normal (k : Nat) (p : Poly) : Prop where
  length : ∀ t ∈ p, t.1.length = k
  sorted : p.Pairwise fun s t => Monomial.cmp s.1 t.1 = .lt
  coeff : ∀ t ∈ p, t.2 ≠ 0

theorem normal_nil : Normal k [] := ⟨by simp, .nil, by simp⟩

theorem normal_cons : Normal k (t :: p) ↔
    t.1.length = k ∧ t.2 ≠ 0 ∧ (∀ s ∈ p, Monomial.cmp t.1 s.1 = .lt) ∧ Normal k p := by
  constructor
  · rintro ⟨hlen, hsorted, hcoeff⟩
    obtain ⟨hlt, hsorted⟩ := List.pairwise_cons.mp hsorted
    obtain ⟨ht, hlen⟩ := List.forall_mem_cons.mp hlen
    obtain ⟨hc, hcoeff⟩ := List.forall_mem_cons.mp hcoeff
    exact ⟨ht, hc, hlt, hlen, hsorted, hcoeff⟩
  · rintro ⟨ht, hc, hlt, hlen, hsorted, hcoeff⟩
    exact ⟨List.forall_mem_cons.mpr ⟨ht, hlen⟩, List.pairwise_cons.mpr ⟨hlt, hsorted⟩,
      List.forall_mem_cons.mpr ⟨hc, hcoeff⟩⟩

/-- The polynomial that the terms stand for. -/
noncomputable def toMv (p : Poly) : MvPolynomial ℕ ℚ :=
  (p.map fun t => monomial t.1.exponents t.2).sum

@[simp] theorem toMv_nil : toMv [] = 0 := rfl

@[simp] theorem toMv_cons : toMv (t :: p) = monomial t.1.exponents t.2 + toMv p := rfl

theorem coeff_toMv_of_lt (hm : m.length = k) (h : Normal k p)
    (hlt : ∀ s ∈ p, Monomial.cmp m s.1 = .lt) : MvPolynomial.coeff m.exponents (toMv p) = 0 := by
  induction p with
  | nil => rfl
  | cons t p ih =>
    obtain ⟨ht, -, -, hp⟩ := normal_cons.mp h
    obtain ⟨htlt, hlt⟩ := List.forall_mem_cons.mp hlt
    rw [toMv_cons, coeff_add, ih hp hlt, coeff_monomial, if_neg, add_zero]
    rintro heq
    obtain rfl := (Monomial.exponents_inj (ht.trans hm.symm)).mp heq
    have hswap := Monomial.cmp_swap t.1 t.1
    simp [htlt] at hswap

/-- Only the empty polynomial is zero. -/
theorem Normal.eq_nil_iff (h : Normal k p) : p = [] ↔ toMv p = 0 := by
  cases p with
  | nil => simp
  | cons t p =>
    obtain ⟨ht, hc, hlt, hp⟩ := normal_cons.mp h
    refine iff_of_false (List.cons_ne_nil _ _) fun hzero => hc ?_
    have hcoeff := congrArg (MvPolynomial.coeff t.1.exponents) hzero
    rwa [toMv_cons, coeff_add, coeff_monomial, if_pos rfl, coeff_toMv_of_lt ht hp hlt, add_zero,
      MvPolynomial.coeff_zero] at hcoeff

/-! ### Sums -/

@[simp] theorem toMv_addTerm : toMv (addTerm m c p) = monomial m.exponents c + toMv p := by
  induction p with
  | nil =>
    unfold addTerm
    split
    · next hc => simp [hc]
    · simp
  | cons t p ih =>
    obtain ⟨n, d⟩ := t
    unfold addTerm
    split
    · split
      · next hc => simp [hc]
      · simp
    · next heq =>
      obtain rfl := Monomial.eq_of_cmp heq
      rw [toMv_cons, ← add_assoc, ← map_add]
      split
      · next hc => simp [hc]
      · simp
    · rw [toMv_cons, ih, toMv_cons, add_left_comm]

theorem forall_addTerm {P : Monomial → Prop} (hm : P m) (hp : ∀ s ∈ p, P s.1) :
    ∀ s ∈ addTerm m c p, P s.1 := by
  induction p with
  | nil =>
    unfold addTerm
    split
    · simp
    · exact List.forall_mem_singleton.mpr hm
  | cons t p ih =>
    obtain ⟨n, d⟩ := t
    obtain ⟨hn, hrest⟩ := List.forall_mem_cons.mp hp
    unfold addTerm
    split
    · split
      · exact hp
      · exact List.forall_mem_cons.mpr ⟨hm, hp⟩
    · split
      · exact hrest
      · exact List.forall_mem_cons.mpr ⟨hn, hrest⟩
    · exact List.forall_mem_cons.mpr ⟨hn, ih hrest⟩

theorem Normal.addTerm (h : Normal k p) (hm : m.length = k) : Normal k (addTerm m c p) := by
  induction p with
  | nil =>
    unfold Poly.addTerm
    split
    · exact normal_nil
    · next hc => exact normal_cons.mpr ⟨hm, hc, by simp, normal_nil⟩
  | cons t p ih =>
    obtain ⟨n, d⟩ := t
    obtain ⟨hn, hd, hlt, hp⟩ := normal_cons.mp h
    unfold Poly.addTerm
    split
    · next hmn =>
      split
      · exact h
      · next hc =>
        refine normal_cons.mpr ⟨hm, hc, List.forall_mem_cons.mpr ⟨hmn, fun s hs => ?_⟩, h⟩
        exact Monomial.cmp_trans hmn (hlt s hs)
    · split
      · exact hp
      · next hc => exact normal_cons.mpr ⟨hn, hc, hlt, hp⟩
    · next hmn =>
      have hnm : Monomial.cmp n m = .lt := by
        rw [← Monomial.cmp_swap, hmn]
        rfl
      exact normal_cons.mpr ⟨hn, hd, forall_addTerm (P := (Monomial.cmp n · = .lt)) hnm hlt, ih hp⟩

@[simp] theorem toMv_add : toMv (add p q) = toMv p + toMv q := by
  induction p with
  | nil => simp [add]
  | cons t p ih =>
    change toMv (addTerm t.1 t.2 (add p q)) = _
    rw [toMv_addTerm, ih, toMv_cons, add_assoc]

theorem Normal.add (hp : Normal k p) (hq : Normal k q) : Normal k (add p q) := by
  induction p with
  | nil => exact hq
  | cons t p ih =>
    obtain ⟨ht, -, -, hp⟩ := normal_cons.mp hp
    exact (ih hp).addTerm ht

theorem forall_add {P : Monomial → Prop} (hp : ∀ s ∈ p, P s.1) (hq : ∀ s ∈ q, P s.1) :
    ∀ s ∈ add p q, P s.1 := by
  induction p with
  | nil => exact hq
  | cons t p ih =>
    obtain ⟨ht, hp⟩ := List.forall_mem_cons.mp hp
    exact forall_addTerm ht (ih hp)

@[simp] theorem toMv_neg : toMv (neg p) = -toMv p := by
  induction p with
  | nil => simp [neg]
  | cons t p ih =>
    change monomial t.1.exponents (-t.2) + toMv (neg p) = _
    rw [ih, toMv_cons, map_neg, neg_add]

/-- New coefficients other than 0 keep the normal form. -/
theorem Normal.map_coeff {f : Rat → Rat} (h : Normal k p) (hf : ∀ c, c ≠ 0 → f c ≠ 0) :
    Normal k (p.map fun t => (t.1, f t.2)) where
  length := List.forall_mem_map.mpr h.length
  sorted := List.pairwise_map.mpr h.sorted
  coeff := List.forall_mem_map.mpr fun t ht => hf _ (h.coeff t ht)

theorem Normal.neg (h : Normal k p) : Normal k (neg p) := h.map_coeff fun _ => neg_ne_zero.mpr

@[simp] theorem toMv_sub : toMv (sub p q) = toMv p - toMv q := by
  rw [sub, toMv_add, toMv_neg, sub_eq_add_neg]

theorem Normal.sub (hp : Normal k p) (hq : Normal k q) : Normal k (sub p q) := hp.add hq.neg

@[simp] theorem toMv_scale : toMv (scale c p) = C c * toMv p := by
  unfold scale
  split
  · next hc => simp [hc]
  · induction p with
    | nil => simp
    | cons t p ih => rw [List.map_cons, toMv_cons, ih, toMv_cons, mul_add, C_mul_monomial]

theorem Normal.scale (h : Normal k p) : Normal k (scale c p) := by
  unfold Poly.scale
  split
  · exact normal_nil
  · next hc => exact h.map_coeff fun d hd => mul_ne_zero hc hd

/-! ### Products -/

theorem toMv_mulTerm (hm : m.length = k) (h : Normal k p) :
    toMv (mulTerm m c p) = monomial m.exponents c * toMv p := by
  induction p with
  | nil => simp [mulTerm]
  | cons t p ih =>
    obtain ⟨ht, -, -, hp⟩ := normal_cons.mp h
    change monomial (Monomial.mul m t.1).exponents (c * t.2) + toMv (mulTerm m c p) = _
    rw [ih hp, Monomial.exponents_mul (hm.trans ht.symm), toMv_cons, mul_add, monomial_mul]

theorem Normal.mulTerm (h : Normal k p) (hm : m.length = k) (hc : c ≠ 0) :
    Normal k (mulTerm m c p) where
  length := List.forall_mem_map.mpr fun t ht => Monomial.length_mul hm (h.length t ht)
  sorted := by
    refine List.pairwise_map.mpr (h.sorted.imp_of_mem fun hs ht hlt => ?_)
    rwa [Monomial.cmp_mul_left (hm.trans (h.length _ hs).symm) (hm.trans (h.length _ ht).symm)]
  coeff := List.forall_mem_map.mpr fun t ht => mul_ne_zero hc (h.coeff t ht)

theorem mul_cons : mul (t :: p) q = add (mulTerm t.1 t.2 q) (mul p q) := rfl

theorem toMv_mul (hp : Normal k p) (hq : Normal k q) : toMv (mul p q) = toMv p * toMv q := by
  induction p with
  | nil => simp [mul]
  | cons t p ih =>
    obtain ⟨ht, -, -, hp⟩ := normal_cons.mp hp
    rw [mul_cons, toMv_add, toMv_mulTerm ht hq, ih hp, toMv_cons, add_mul]

theorem Normal.mul (hp : Normal k p) (hq : Normal k q) : Normal k (mul p q) := by
  induction p with
  | nil => exact normal_nil
  | cons t p ih =>
    obtain ⟨ht, hc, -, hp⟩ := normal_cons.mp hp
    exact (hq.mulTerm ht hc).add (ih hp)

theorem length_unit : (Monomial.unit k).length = k := List.length_replicate

@[simp] theorem toMv_const : toMv (const k c) = C c := by
  unfold const
  split
  · next hc => simp [hc]
  · rw [toMv_cons, toMv_nil, add_zero, Monomial.exponents_unit]
    rfl

theorem normal_const : Normal k (const k c) := by
  unfold const
  split
  · exact normal_nil
  · next hc => exact normal_cons.mpr ⟨length_unit, hc, by simp, normal_nil⟩

theorem toMv_generator {i : Nat} (hi : i < k) : toMv (generator k i) = X i := by
  simp [generator, Monomial.exponents_unit_set hi, X]

theorem normal_generator {i : Nat} : Normal k (generator k i) := by
  refine normal_cons.mpr ⟨?_, one_ne_zero, by simp, normal_nil⟩
  rw [List.length_set, length_unit]

theorem Normal.pow (h : Normal k p) : ∀ n, Normal k (pow k p n)
  | 0 => normal_const
  | n + 1 => h.mul (h.pow n)

theorem toMv_pow (h : Normal k p) : ∀ n, toMv (pow k p n) = toMv p ^ n
  | 0 => by simp [pow]
  | n + 1 => by rw [pow, toMv_mul h (h.pow n), toMv_pow h n, pow_succ']

/-! ### Exact division -/

/-- `r` times `q` is `p`. The leading monomial of `q` is `n`, and the terms of `r` times `n` come
after whatever comes before `p`. -/
structure Cofactor (k : Nat) (n : Monomial) (q p r : Poly) : Prop where
  normal : Normal k r
  mul : toMv r * toMv q = toMv p
  after : ∀ m : Monomial, (∀ s ∈ p, Monomial.cmp m s.1 = .lt) →
    ∀ s ∈ r, Monomial.cmp m (Monomial.mul s.1 n) = .lt

theorem cofactor_nil {n : Monomial} : Cofactor k n q [] [] := ⟨normal_nil, by simp, by simp⟩

section Step

variable {n : Monomial} {d : Rat} {qs rest : Poly} (hq : Normal k ((n, d) :: qs))
  (hp : Normal k ((m, c) :: rest)) (hdvd : Monomial.divides n m = true)

include hq hp hdvd

theorem div_mul_lead : Monomial.mul (Monomial.div m n) n = m :=
  Monomial.div_mul ((normal_cons.mp hp).1.trans (normal_cons.mp hq).1.symm) hdvd

omit hdvd in
theorem length_div_lead : (Monomial.div m n).length = k :=
  Monomial.length_div (normal_cons.mp hp).1 (normal_cons.mp hq).1

/-- What is left to divide comes after the leading monomial. -/
theorem cmp_left : ∀ s ∈ sub rest (mulTerm (Monomial.div m n) (c / d) qs),
    Monomial.cmp m s.1 = .lt := by
  obtain ⟨hn, -, hqs, hqn⟩ := normal_cons.mp hq
  obtain ⟨-, -, hrest, -⟩ := normal_cons.mp hp
  have hlen := length_div_lead hq hp
  have hterms : ∀ s ∈ mulTerm (Monomial.div m n) (c / d) qs, Monomial.cmp m s.1 = .lt := by
    refine List.forall_mem_map.mpr fun s hs => ?_
    have hlt := (Monomial.cmp_mul_left (hlen.trans hn.symm)
      (hlen.trans (hqn.length s hs).symm)).trans (hqs s hs)
    rwa [div_mul_lead hq hp hdvd] at hlt
  exact forall_add (P := (Monomial.cmp m · = .lt)) hrest (List.forall_mem_map.mpr hterms)

/-- The quotient of the leading terms comes before the cofactor of what is left to divide. -/
theorem Cofactor.cons {r : Poly} (h : Cofactor k n ((n, d) :: qs)
      (sub rest (mulTerm (Monomial.div m n) (c / d) qs)) r) :
    Cofactor k n ((n, d) :: qs) ((m, c) :: rest) ((Monomial.div m n, c / d) :: r) := by
  obtain ⟨hn, hd, -, hqn⟩ := normal_cons.mp hq
  have hc : c ≠ 0 := (normal_cons.mp hp).2.1
  have hlen := length_div_lead hq hp
  have hback := div_mul_lead hq hp hdvd
  have hafter := h.after m (cmp_left hq hp hdvd)
  refine ⟨normal_cons.mpr ⟨hlen, div_ne_zero hc hd, fun s hs => ?_, h.normal⟩, ?_, ?_⟩
  · have hs' := hafter s hs
    rwa [← hback, Monomial.mul_comm _ n, Monomial.mul_comm s.1 n,
      Monomial.cmp_mul_left (hn.trans hlen.symm) (hn.trans (h.normal.length s hs).symm)] at hs'
  · have hmul := h.mul
    rw [toMv_sub, toMv_mulTerm hlen hqn] at hmul
    have hlead : monomial (Monomial.div m n).exponents (c / d) * monomial n.exponents d =
        monomial m.exponents c := by
      rw [monomial_mul, ← Monomial.exponents_mul (hlen.trans hn.symm), hback,
        div_mul_cancel₀ c hd]
    rw [toMv_cons, add_mul, hmul, toMv_cons, toMv_cons, mul_add, hlead]
    ring
  · intro l hl
    obtain ⟨hlm, -⟩ := List.forall_mem_cons.mp hl
    refine List.forall_mem_cons.mpr ⟨by rwa [hback], fun s hs => ?_⟩
    exact Monomial.cmp_trans hlm (hafter s hs)

end Step

/-- What comes out of an exact division has the divisor as a cofactor. -/
theorem divExact_spec {d : Rat} {n : Monomial} {qs : Poly} (hq : Normal k ((n, d) :: qs))
    {fuel : Nat} {p r : Poly} (hp : Normal k p) (h : divExact ((n, d) :: qs) fuel p = some r) :
    Cofactor k n ((n, d) :: qs) p r := by
  induction fuel generalizing p r with
  | zero =>
    cases p with
    | nil => exact Option.some.inj h ▸ cofactor_nil
    | cons => simp [divExact] at h
  | succ fuel ih =>
    cases p with
    | nil => exact Option.some.inj h ▸ cofactor_nil
    | cons t rest =>
      obtain ⟨m, c⟩ := t
      obtain ⟨-, hd, -, hqn⟩ := normal_cons.mp hq
      obtain ⟨-, hc, -, hrest⟩ := normal_cons.mp hp
      simp only [divExact] at h
      split at h
      · next hdvd =>
        obtain ⟨r, hr, rfl⟩ := Option.map_eq_some_iff.mp h
        have hterm := hqn.mulTerm (length_div_lead hq hp) (div_ne_zero hc hd)
        exact Cofactor.cons hq hp hdvd (ih (hrest.sub hterm) hr)
      · simp at h

/-- Exact division gives the cofactor of the divisor. -/
theorem div_spec {r : Poly} (hp : Normal k p) (hq : Normal k q) (h : div? p q = some r) :
    Normal k r ∧ toMv r * toMv q = toMv p := by
  cases q with
  | nil =>
    cases p with
    | nil =>
      obtain rfl : [] = r := by
        rw [div?, divisionFuel, divExact] at h
        exact Option.some.inj h
      exact ⟨normal_nil, by simp⟩
    | cons t p => simp [div?, divisionFuel, divExact] at h
  | cons t q =>
    have hr := divExact_spec hq hp h
    exact ⟨hr.normal, hr.mul⟩

/-- What is divided by something does not become zero. -/
theorem ne_nil_of_div {r : Poly} (hp : Normal k p) (hq : Normal k q) (h : div? p q = some r)
    (hne : p ≠ []) : r ≠ [] := by
  rintro rfl
  refine hne (hp.eq_nil_iff.mpr ?_)
  rw [← (div_spec hp hq h).2, toMv_nil, zero_mul]

end Poly

end Flange

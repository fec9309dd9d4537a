import Flange.Proofs.Expr.Functions

/-! # Values of powers

A power of a number is taken apart into roots of its prime factors, and a root of a product into
roots of the factors that cannot be negative; the value stays the same.
-/

namespace Flange

namespace Expr

variable {smooth : Prop} {ρ : Valuation ℝ} {a b e : Expr} {x y : ℝ} {c q r : ℚ}
  {f : Factors} {ps : List (Expr × ℚ)}

/-! ### Powers of numbers -/

theorem splitPrime_mul (p fuel n : ℕ) :
    p ^ (splitPrime p fuel n).1 * (splitPrime p fuel n).2 = n := by
  induction fuel generalizing n with
  | zero => simp [splitPrime]
  | succ fuel ih =>
    unfold splitPrime
    split
    · next h =>
      rw [pow_succ, mul_right_comm, ih, mul_comm]
      exact Nat.mul_div_cancel' (Nat.dvd_of_mod_eq_zero h)
    · simp

theorem primePowers_prod (fuel : ℕ) {p n : ℕ} (hn : 0 < n) (hp : 0 < p) :
    ((primePowers fuel p n).map fun x => x.1 ^ x.2).prod = n ∧
      ∀ x ∈ primePowers fuel p n, 0 < x.1 := by
  induction fuel generalizing p n with
  | zero =>
    unfold primePowers
    split
    · exact ⟨by rw [List.map_nil, List.prod_nil]; omega, fun _ h => nomatch h⟩
    · simpa using hn
  | succ fuel ih =>
    unfold primePowers
    split
    · exact ⟨by rw [List.map_nil, List.prod_nil]; omega, fun _ h => nomatch h⟩
    · split
      · simpa using hn
      · have hsplit := splitPrime_mul p n.log2 n
        dsimp only
        generalize hk : (splitPrime p n.log2 n).1 = k at hsplit
        generalize hm : (splitPrime p n.log2 n).2 = m at hsplit
        obtain ⟨hprod, hpos⟩ := ih (n := m) (p := p + 1)
          (Nat.pos_of_ne_zero fun h => by simp [h] at hsplit; omega) (by omega)
        split
        · next hk0 =>
          refine ⟨?_, hpos⟩
          rw [hprod, ← hsplit, hk0, pow_zero, one_mul]
        · refine ⟨by rw [List.map_cons, List.prod_cons, hprod, hsplit], ?_⟩
          intro x hx
          rcases List.mem_cons.mp hx with rfl | hx
          · exact hp
          · exact hpos x hx

/-- Multiplying by the roots of all prime powers of a number is multiplying by its root. -/
theorem FactorsDenote.primeRoots {ns : List (ℕ × ℕ)} (hpos : ∀ x ∈ ns, 0 < x.1)
    {g : ℕ → ℚ} (hg : ∀ k, g k = k * q) (hf : FactorsDenote smooth ρ f y) :
    FactorsDenote smooth ρ (ns.foldl (fun f x => f.timesRoot (x.1 : ℕ) (g x.2)) f)
      (y * realPower ((ns.map fun x => x.1 ^ x.2).prod : ℕ) q) := by
  induction ns generalizing f y with
  | nil => exact hf.congr (by simp [realPower])
  | cons n ns ih =>
    have hn : (0 : ℝ) < n.1 := by exact_mod_cast hpos n List.mem_cons_self
    have hprod : (0 : ℝ) < ((ns.map fun x => x.1 ^ x.2).prod : ℕ) := by
      have : 0 < (ns.map fun x => x.1 ^ x.2).prod := by
        refine List.prod_pos fun k hk => ?_
        obtain ⟨x, hx, rfl⟩ := List.mem_map.mp hk
        exact Nat.pow_pos (hpos x (List.mem_cons_of_mem _ hx))
      exact_mod_cast this
    have hroot : realPower (n.1 : ℝ) (g n.2) = realPower ((n.1 : ℝ) ^ n.2) q := by
      rw [hg, realPower_mul_of_pos hn]
      congr 1
      simp [realPower]
    refine (ih (fun x hx => hpos x (List.mem_cons_of_mem _ hx))
      (hf.timesRoot (c := (n.1 : ℕ)) (.of_pos (by exact_mod_cast hn)))).congr ?_
    rw [List.map_cons, List.prod_cons, Nat.cast_mul, Nat.cast_pow,
      realPower_mul_base (pow_pos hn _) hprod, ← hroot, Rat.cast_natCast, mul_assoc]

theorem denotes_numPower (h : PowerDefined (c : ℝ) q) (hq : q ≠ 0) :
    (numPower c q).Denotes smooth ρ (realPower c q) := by
  unfold numPower
  split
  · next hc =>
    subst hc
    have hden : q.den = 1 := by
      by_contra hn
      simpa using h.pos hn
    split
    · next hneg => exact absurd Rat.cast_zero (h.ne_zero hneg)
    · refine denotes_zero.congr ?_
      rw [Rat.cast_zero, realPower_of_den hden, zero_zpow _ (Rat.num_ne_zero.mpr hq)]
  · split
    · next hden =>
      refine (denotes_num _).congr ?_
      rw [realPower_of_den hden, Rat.cast_zpow]
    · next hden =>
      have hpos : (0 : ℝ) < c := h.pos hden
      have hc : 0 < c := by exact_mod_cast hpos
      have hnum : 0 < c.num.natAbs := Int.natAbs_pos.mpr (Rat.num_pos.mpr hc).ne'
      dsimp only
      rw [if_neg hc.not_gt]
      obtain ⟨hup, hup'⟩ := primePowers_prod trialLimit hnum two_pos
      obtain ⟨hdown, hdown'⟩ := primePowers_prod trialLimit c.den_pos two_pos
      have hroots := (@factorsDenote_empty smooth ρ).primeRoots hup'
        (g := fun k => q * (k : ℕ)) (q := q) fun k => mul_comm _ _
      refine ((hroots.primeRoots hdown' (g := fun k => -(q * (k : ℕ))) (q := -q)
        fun k => by ring).toExpr).congr ?_
      rw [hup, hdown, one_mul, realPower, realPower, realPower, Rat.cast_neg,
        Real.rpow_neg (Nat.cast_nonneg _), ← div_eq_mul_inv,
        ← Real.div_rpow (Nat.cast_nonneg _) (Nat.cast_nonneg _)]
      congr 1
      rw [Nat.cast_natAbs, abs_of_pos (Rat.num_pos.mpr hc)]
      exact (Rat.cast_def c).symm

/-! ### Roots of products -/

theorem neverNegative_nonneg (hb : b.Denotes smooth ρ x) (hr : PowerDefined x r)
    (h : neverNegative b r = true) : 0 ≤ realPower x r := by
  have hgeneral : (r.den = 1 ∧ r.num % 2 = 0) ∨ r.den ≠ 1 → 0 ≤ realPower x r := by
    rintro (⟨hden, heven⟩ | hden)
    · exact realPower_nonneg_of_even hden heven
    · exact (realPower_pos (hr.pos hden)).le
  obtain ⟨hreg, rfl⟩ := hb
  unfold neverNegative at h
  split at h
  · next c _ => exact Real.rpow_nonneg (by simpa using h) _
  · exact Real.rpow_nonneg (Real.exp_pos _).le _
  · exact Real.rpow_nonneg (abs_nonneg _) _
  · next a p q =>
    simp only [Bool.or_eq_true, Bool.and_eq_true, decide_eq_true_eq, beq_iff_eq, bne_iff_ne] at h
    rcases h with (⟨hden, heven⟩ | hq) | hden
    · exact Real.rpow_nonneg (realPower_nonneg_of_even hden heven) _
    · exact hgeneral (Or.inr hq)
    · exact Real.rpow_nonneg (realPower_pos (hreg.2.1.pos hden)).le _
  · simp only [Bool.or_eq_true, Bool.and_eq_true, decide_eq_true_eq, beq_iff_eq, bne_iff_ne] at h
    exact hgeneral h

theorem ne_zero_of_den (hq : q.den ≠ 1) : q ≠ 0 := by
  rintro rfl
  exact hq rfl

theorem denotes_rootOfPower (hb : b.Denotes smooth ρ x) (hr : PowerDefined x r) (hr0 : r ≠ 0)
    (hpos : 0 < realPower x r) (hq : q.den ≠ 1) :
    (rootOfPower b r q).Denotes smooth ρ (realPower (realPower x r) q) := by
  have hq0 := ne_zero_of_den hq
  unfold rootOfPower
  split
  · next heven =>
    have hx : x ≠ 0 := by
      rintro rfl
      rw [realPower_of_den heven.1, zero_zpow _ (Rat.num_ne_zero.mpr hr0)] at hpos
      exact lt_irrefl _ hpos
    refine (factorsDenote_empty.timesPower (denotes_abs hb fun _ => hx)
      (.of_pos (abs_pos.mpr hx))).toExpr.congr ?_
    rw [one_mul, realPower_mul_of_pos (abs_pos.mpr hx), realPower_abs heven.1 heven.2]
  · split
    · next hsmall =>
      have hx : 0 < x := hr.pos hsmall.1
      rw [← realPower_mul_of_pos hx]
      split
      · next h1 => exact hb.congr (by rw [h1, realPower_one])
      · exact denotes_power hb (.of_pos hx) (mul_ne_zero hr0 hq0)
    · exact denotes_power (denotes_power hb hr hr0) (.of_pos hpos) hq0

theorem PowersDenote.split (h : PowersDenote smooth ρ ps x) (keep : Expr × ℚ → Bool) :
    ∃ u v, PowersDenote smooth ρ (ps.filter keep) u ∧
      PowersDenote smooth ρ (ps.filter (not ∘ keep)) v ∧ x = u * v := by
  induction h with
  | nil => exact ⟨1, 1, .nil, .nil, (one_mul 1).symm⟩
  | @cons e q ps x y he hq hq0 _ ih =>
    obtain ⟨u, v, hu, hv, rfl⟩ := ih
    simp only [List.filter_cons, Function.comp_apply]
    by_cases hk : keep (e, q) = true
    · exact ⟨_, v, by simpa [hk] using .cons he hq hq0 hu, by simpa [hk] using hv, by ring⟩
    · exact ⟨u, _, by simpa [hk] using hu, by simpa [hk] using .cons he hq hq0 hv, by ring⟩

theorem PowersDenote.roots (h : PowersDenote smooth ρ ps x) (hx : x ≠ 0) (hq : q.den ≠ 1)
    (hnn : ∀ p ∈ ps, neverNegative p.1 p.2 = true) :
    0 < x ∧ ListDenotes smooth ρ (ps.map fun p => rootOfPower p.1 p.2 q) (realPower x q) := by
  induction h with
  | nil => exact ⟨one_pos, ListDenotes.nil.congr (by simp [realPower])⟩
  | @cons e r ps x y he hr hr0 _ ih =>
    have hpos : 0 < realPower x r :=
      (neverNegative_nonneg he hr (hnn _ List.mem_cons_self)).lt_of_ne
        (left_ne_zero_of_mul hx).symm
    obtain ⟨hy, hroots⟩ := ih (right_ne_zero_of_mul hx)
      fun p hp => hnn p (List.mem_cons_of_mem _ hp)
    refine ⟨mul_pos hpos hy, ?_⟩
    exact (ListDenotes.cons (denotes_rootOfPower he hr hr0 hpos hq) hroots).congr
      (realPower_mul_base hpos hy).symm

/-- A number as its magnitude and a unit. -/
theorem unit_mul_magnitude (c : ℚ) :
    (c : ℝ) = ((if c < 0 then -1 else 1 : ℚ) : ℝ) * ((if c < 0 then -c else c : ℚ) : ℝ) := by
  split <;> simp

theorem denotes_rootOfProduct (h : FactorsDenote smooth ρ f x) (hx : 0 < x) (hq : q.den ≠ 1) :
    (rootOfProduct f q).Denotes smooth ρ (realPower x q) := by
  obtain ⟨s, p, hs, hp, rfl⟩ := h
  obtain ⟨u, v, hu, hv, rfl⟩ := hp.split fun p => neverNegative p.1 p.2
  have hq0 := ne_zero_of_den hq
  have huv := right_ne_zero_of_mul hx.ne'
  have hcoeff := left_ne_zero_of_mul (left_ne_zero_of_mul hx.ne')
  obtain ⟨hupos, hroots⟩ := hu.roots (left_ne_zero_of_mul huv) hq fun p hp =>
    (List.mem_filter.mp hp).2
  unfold rootOfProduct
  rw [List.partition_eq_filter_filter]
  dsimp only
  have hfront : 0 < ((if f.coeff < 0 then -f.coeff else f.coeff : ℚ) : ℝ) := by
    rw [cast_magnitude]
    exact abs_pos.mpr hcoeff
  have hunit := unit_mul_magnitude f.coeff
  generalize (if f.coeff < 0 then -f.coeff else f.coeff) = front at hfront hunit
  generalize (if f.coeff < 0 then (-1 : ℚ) else 1) = unit at hunit
  have hvalue : (f.coeff : ℝ) * Real.exp s * (u * v) = front * (u * (Real.exp s * (unit * v))) := by
    rw [hunit]
    ring
  have hkept : 0 < unit * v := by
    rw [hvalue] at hx
    exact pos_of_mul_pos_right (pos_of_mul_pos_right (pos_of_mul_pos_right hx hfront.le) hupos.le)
      (Real.exp_pos s).le
  have hinside : FactorsDenote smooth ρ
      { coeff := unit, powers := f.powers.filter (not ∘ fun p => neverNegative p.1 p.2) }
      (unit * v) := ⟨0, v, denotes_zero, hv, by simp⟩
  have hexp := denotes_exp (denotes_distribute hs q)
  refine (denotes_productOf ((ListDenotes.cons (denotes_numPower (.of_pos hfront) hq0)
    hroots).append (.cons hexp (.single (?_ : Denotes smooth ρ _ (realPower (unit * v) q)))))).congr
      ?_
  · -- what is kept is a number or not
    have hexpr := hinside.toExpr
    split
    · next c heq =>
      rw [heq] at hexpr
      rw [← hexpr.eval, eval_num] at hkept ⊢
      exact denotes_numPower (.of_pos hkept) hq0
    · exact denotes_power hexpr (.of_pos hkept) hq0
  · rw [hvalue, realPower_mul_base hfront (by positivity), realPower_mul_base hupos (by positivity),
      realPower_mul_base (Real.exp_pos s) hkept, realPower_exp]
    ring

/-! ### Powers of expressions -/

/-- A whole power of a product of powers. -/
theorem FactorsDenote.wholePowers (hps : PowersDenote smooth ρ ps x) (hq : q.den = 1)
    (hx : q < 0 → x ≠ 0) (hf : FactorsDenote smooth ρ f y) :
    FactorsDenote smooth ρ (ps.foldl (fun g p => g.timesPower p.1 (p.2 * q)) f)
      (y * realPower x q) := by
  induction hps generalizing f y with
  | nil => exact hf.congr (by simp [realPower])
  | @cons e r ps x z he hr hr0 _ ih =>
    have hdef : PowerDefined x (r * q) := hr.mul hq
      (.of_den hq (or_iff_not_imp_left.mpr fun hneg =>
        left_ne_zero_of_mul (hx (not_le.mp hneg))))
    refine (ih (fun hneg => right_ne_zero_of_mul (hx hneg)) (hf.timesPower he hdef)).congr ?_
    rw [realPower_mul hr hq, realPower_mul_base_of_den hq, mul_assoc]

theorem denotes_pow (h : e.Denotes smooth ρ x) (hq : PowerDefined x q) :
    (e.pow q).Denotes smooth ρ (realPower x q) := by
  unfold pow
  split
  · next h0 => exact denotes_one.congr (by rw [h0, realPower_zero])
  next hq0 =>
  split
  · next h1 => exact h.congr (by rw [h1, realPower_one])
  split
  · next c =>
    obtain rfl := h.eval
    exact denotes_numPower hq hq0
  · next a =>
    obtain ⟨⟨ha, -⟩, rfl⟩ := h
    exact (denotes_exp (denotes_distribute ha.denotes q)).congr (realPower_exp _).symm
  · exact (factorsDenote_empty.timesPower h hq).toExpr.congr (one_mul _)
  · next b r =>
    obtain ⟨⟨hb, hr, hr0⟩, rfl⟩ := h
    split
    · next hden =>
      refine (factorsDenote_empty.timesPower hb.denotes (hr.mul hden hq)).toExpr.congr ?_
      rw [one_mul, realPower_mul hr hden, eval_power]
    · next hden => exact denotes_rootOfPower hb.denotes hr hr0 (hq.pos hden) hden
  · next a b =>
    have hf := (factorsDenote_empty.times h).congr (one_mul x)
    dsimp only
    split
    · next hden =>
      obtain ⟨s, p, hs, hp, rfl⟩ := hf
      generalize Factors.times {} (prod a b) = f at hs hp hq h
      have hstart : FactorsDenote smooth ρ
          { coeff := f.coeff ^ q.num, exponent := distribute q f.exponent }
          (realPower f.coeff q * Real.exp (q * s)) := by
        refine ⟨q * s, 1, denotes_distribute hs q, .nil, ?_⟩
        rw [realPower_of_den hden, Rat.cast_zpow, mul_one]
      refine (hstart.wholePowers hp hden fun hneg =>
        right_ne_zero_of_mul (hq.ne_zero hneg)).toExpr.congr ?_
      rw [realPower_mul_base_of_den hden, realPower_mul_base_of_den hden, realPower_exp]
    · next hden => exact denotes_rootOfProduct hf (hq.pos hden) hden
  · split
    · exact (factorsDenote_empty.timesPower h hq).toExpr.congr (one_mul _)
    · exact denotes_power h hq hq0
  · exact denotes_power h hq hq0

theorem denotes_raise (ha : a.Denotes smooth ρ x) (hb : b.Denotes smooth ρ y)
    (h : RaiseDefined x y) : (raise a b).Denotes smooth ρ (x ^ y) := by
  unfold raise
  split
  · next q =>
    obtain rfl := hb.eval
    exact denotes_pow ha h.powerDefined
  · split
    · next c =>
      split
      · next hc =>
        obtain rfl := ha.eval
        exact denotes_one.congr (by simp [hc])
      · exact denotes_raised ha hb h
    · next u =>
      obtain ⟨⟨hu, -⟩, rfl⟩ := ha
      refine (denotes_exp (denotes_mul hb hu.denotes)).congr ?_
      rw [eval_fn, Fn.real, ← Real.exp_mul, mul_comm]
    · exact denotes_raised ha hb h

theorem denotes_div (ha : a.Denotes smooth ρ x) (hb : b.Denotes smooth ρ y) (hy : y ≠ 0) :
    (a / b).Denotes smooth ρ (x / y) :=
  (denotes_mul ha (denotes_pow hb (.neg_one hy))).congr
    (by rw [realPower_neg_one, div_eq_mul_inv])

end Expr

end Flange

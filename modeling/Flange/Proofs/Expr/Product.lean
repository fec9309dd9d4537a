import Flange.Proofs.Expr.Sum

/-! # Values of products

Equal bases are multiplied by adding exponents. Roots of numbers and powers of magnitudes are
split into a whole and an even part; the value stays the same.
-/

namespace Flange

namespace Expr

variable {smooth : Prop} {ρ : Valuation ℝ} {a b e : Expr} {x y z : ℝ} {q : ℚ}
  {ps : List (Expr × ℚ)} {es : List Expr} {f : Factors}

/-- The powers are regular and their product is `x`. -/
inductive PowersDenote (smooth : Prop) (ρ : Valuation ℝ) : List (Expr × ℚ) → ℝ → Prop
  | nil : PowersDenote smooth ρ [] 1
  | cons {e : Expr} {q : ℚ} {ps : List (Expr × ℚ)} {x y : ℝ} : e.Denotes smooth ρ x →
      PowerDefined x q → q ≠ 0 → PowersDenote smooth ρ ps y →
      PowersDenote smooth ρ ((e, q) :: ps) (realPower x q * y)

/-- The expressions are regular and their product is `x`. -/
inductive ListDenotes (smooth : Prop) (ρ : Valuation ℝ) : List Expr → ℝ → Prop
  | nil : ListDenotes smooth ρ [] 1
  | cons {e : Expr} {es : List Expr} {x y : ℝ} : e.Denotes smooth ρ x →
      ListDenotes smooth ρ es y → ListDenotes smooth ρ (e :: es) (x * y)

/-- The parts of the product are regular and together they make `x`. -/
structure FactorsDenote (smooth : Prop) (ρ : Valuation ℝ) (f : Factors) (x : ℝ) : Prop where
  parts : ∃ s p, f.exponent.Denotes smooth ρ s ∧ PowersDenote smooth ρ f.powers p ∧
    x = f.coeff * Real.exp s * p

theorem PowersDenote.congr (h : PowersDenote smooth ρ ps x) (hxy : x = y) :
    PowersDenote smooth ρ ps y := hxy ▸ h

theorem ListDenotes.congr (h : ListDenotes smooth ρ es x) (hxy : x = y) :
    ListDenotes smooth ρ es y := hxy ▸ h

theorem FactorsDenote.congr (h : FactorsDenote smooth ρ f x) (hxy : x = y) :
    FactorsDenote smooth ρ f y := hxy ▸ h

/-! ### Powers of one base -/

theorem denotes_insertPower (h : b.Denotes smooth ρ x) (hq : PowerDefined x q)
    (hps : PowersDenote smooth ρ ps y) :
    PowersDenote smooth ρ (insertPower b q ps) (realPower x q * y) := by
  induction hps with
  | nil =>
    unfold insertPower
    split
    · next h0 => exact PowersDenote.nil.congr (by simp [h0])
    · next h0 => exact .cons h hq h0 .nil
  | @cons c r rest w z hc hr hr0 hrest ih =>
    unfold insertPower
    split
    · split
      · next h0 => exact (PowersDenote.cons hc hr hr0 hrest).congr (by simp [h0])
      · next h0 => exact .cons h hq h0 (.cons hc hr hr0 hrest)
    · next heq =>
      obtain rfl := eq_of_cmp heq
      obtain rfl : x = w := h.eval.symm.trans hc.eval
      have hadd := realPower_add hq hr
      split
      · next h0 =>
        rw [h0, realPower_zero] at hadd
        exact hrest.congr (by linear_combination z * hadd)
      · next h0 => exact (PowersDenote.cons h (hq.add hr) h0 hrest).congr (by rw [hadd]; ring)
    · exact (PowersDenote.cons hc hr hr0 ih).congr (by ring)

/-- The powers of one base taken out of a product. -/
theorem PowersDenote.takeOut (hps : PowersDenote smooth ρ ps y) (h : b.Denotes smooth ρ x) :
    PowerDefined x (exponentOf b ps) ∧ ∃ z,
      PowersDenote smooth ρ (ps.filter fun p => p.1 != b) z ∧
        y = realPower x (exponentOf b ps) * z := by
  induction hps with
  | nil => exact ⟨.zero, 1, .nil, by simp [exponentOf]⟩
  | @cons c r rest w u hc hr hr0 _ ih =>
    obtain ⟨hdef, z, hz, hu⟩ := ih
    by_cases hbc : b = c
    · subst hbc
      obtain rfl : x = w := h.eval.symm.trans hc.eval
      have hexp : exponentOf b ((b, r) :: rest) = r + exponentOf b rest := if_pos rfl
      rw [hexp]
      refine ⟨hr.add hdef, z, by simpa using hz, ?_⟩
      rw [realPower_add hr hdef, hu]
      ring
    · have hexp : exponentOf b ((c, r) :: rest) = exponentOf b rest := if_neg hbc
      rw [hexp]
      have hkeep : (c != b) = true := by simpa using fun h => hbc h.symm
      refine ⟨hdef, realPower w r * z, ?_, ?_⟩
      · simp only [List.filter_cons, hkeep, if_true]
        exact .cons hc hr hr0 hz
      · rw [hu]
        ring

/-! ### Factors -/

theorem factorsDenote_empty : FactorsDenote smooth ρ {} 1 :=
  ⟨0, 1, denotes_zero, .nil, by simp⟩

theorem FactorsDenote.insertPower (hf : FactorsDenote smooth ρ f y) (h : b.Denotes smooth ρ x)
    (hq : PowerDefined x q) :
    FactorsDenote smooth ρ { f with powers := Expr.insertPower b q f.powers }
      (y * realPower x q) := by
  obtain ⟨s, p, hs, hp, rfl⟩ := hf
  exact ⟨s, _, hs, denotes_insertPower h hq hp, by ring⟩

theorem FactorsDenote.timesRoot (hf : FactorsDenote smooth ρ f y) {c : ℚ}
    (hq : PowerDefined (c : ℝ) q) :
    FactorsDenote smooth ρ (f.timesRoot c q) (y * realPower c q) := by
  unfold Factors.timesRoot
  split
  · exact hf.insertPower (denotes_num c) hq
  · next hc =>
    obtain ⟨s, p, hs, hp, rfl⟩ := hf
    obtain ⟨hdef, z, hz, rfl⟩ := hp.takeOut (denotes_num c)
    have hc : (c : ℝ) ≠ 0 := by exact_mod_cast hc
    have hr := hdef.add hq
    dsimp only
    generalize hk : (exponentOf (num c) f.powers + q).floor = k
    generalize hr' : exponentOf (num c) f.powers + q = r at hr
    have hsub := hr.sub_intCast hc k
    have hwhole : PowerDefined (c : ℝ) (k : ℚ) := .of_den (Rat.den_intCast k) (Or.inr hc)
    refine ⟨s, _, hs, denotes_insertPower (denotes_num c) hsub hz, ?_⟩
    have hsplit := realPower_add hwhole hsub
    rw [add_sub_cancel, realPower_intCast, ← hr', realPower_add hdef hq] at hsplit
    rw [hr'] at hsplit
    push_cast
    linear_combination (f.coeff * Real.exp s * z : ℝ) * hsplit

/-- The part of the exponent `r` of a magnitude that is even and not larger. -/
theorem even_part (r : ℚ) :
    ∃ m : ℤ, (if r.den = 1 ∧ r ≠ -1 then 2 * ((r / 2).floor : ℚ) else 0) = ((2 * m : ℤ) : ℚ) ∧
      (m ≠ 0 → r.den = 1 ∧ ((2 * m : ℤ) : ℚ) ≤ r) ∧ (m < 0 → r < 0) := by
  split
  · next h =>
    have hle := Rat.floor_le (r / 2)
    refine ⟨(r / 2).floor, by push_cast; ring, fun _ => ⟨h.1, ?_⟩, fun hm => ?_⟩
    · push_cast
      linarith
    · by_contra hr
      have : (0 : ℤ) ≤ (r / 2).floor := Rat.le_floor_iff.mpr (by push_cast; linarith)
      omega
  · exact ⟨0, by simp, fun h => absurd rfl h, fun h => absurd h (lt_irrefl 0)⟩

theorem FactorsDenote.timesMagnitude (hf : FactorsDenote smooth ρ f y)
    (hb : b.Denotes smooth ρ x) (habs : smooth → x ≠ 0) (hq : PowerDefined |x| q) :
    FactorsDenote smooth ρ (f.timesMagnitude b q) (y * realPower |x| q) := by
  have hmag : (fn .abs b).Denotes smooth ρ |x| := denotes_fn hb habs
  obtain ⟨s, p, hs, hp, rfl⟩ := hf
  obtain ⟨hdef, z, hz, rfl⟩ := hp.takeOut hmag
  have hr := hdef.add hq
  have hadd := realPower_add hdef hq
  unfold Factors.timesMagnitude
  dsimp only
  generalize exponentOf (fn .abs b) f.powers + q = r at hr hadd
  obtain ⟨m, hm, hle, hneg⟩ := even_part r
  rw [hm]
  have hden : ((2 * m : ℤ) : ℚ).den = 1 := Rat.den_intCast _
  have heven : ((2 * m : ℤ) : ℚ).num % 2 = 0 := by
    rw [Rat.num_intCast]
    omega
  have hne : ((2 * m : ℤ) : ℚ) < 0 → x ≠ 0 := by
    intro h
    have hm : m < 0 := by
      have : 2 * m < 0 := by exact_mod_cast h
      omega
    exact abs_ne_zero.mp (hr.ne_zero (hneg hm))
  have hpart : PowerDefined x ((2 * m : ℤ) : ℚ) := ⟨fun h => absurd hden h, hne⟩
  have hpart' : PowerDefined |x| ((2 * m : ℤ) : ℚ) :=
    ⟨fun h => absurd hden h, fun h => abs_ne_zero.mpr (hne h)⟩
  have hrest : PowerDefined |x| (r - ((2 * m : ℤ) : ℚ)) := by
    by_cases hm0 : m = 0
    · simpa [hm0] using hr
    · obtain ⟨hrden, hrle⟩ := hle hm0
      refine .of_den ?_ (Or.inl (by linarith))
      rw [sub_eq_add_neg, ← Int.cast_neg]
      exact den_add hrden (Rat.den_intCast _)
  refine ⟨s, _, hs, denotes_insertPower hb hpart (denotes_insertPower hmag hrest hz), ?_⟩
  have hsplit := realPower_add hpart' hrest
  rw [add_sub_cancel, realPower_abs hden heven, hadd] at hsplit
  linear_combination (f.coeff * Real.exp s * z : ℝ) * hsplit

theorem eq_raised_of_share? {t : Expr} {p : Expr × ℚ} {r : ℚ} (h : Factors.share? a t p = some r) :
    ∃ c, p.1 = raised a c ∧ p.2.den = 1 ∧ c.splitCoeff.2 = t ∧ r = c.splitCoeff.1 * p.2 := by
  unfold Factors.share? at h
  split at h
  · next b c q =>
    split at h
    · next hshare =>
      obtain ⟨hden, rfl, ht⟩ := hshare
      exact ⟨c, rfl, hden, ht, (Option.some.inj h).symm⟩
    · cases h
  · cases h

theorem Factors.shares_cons_none {t : Expr} {p : Expr × ℚ} (h : Factors.share? a t p = none) :
    Factors.shares a t (p :: ps) = Factors.shares a t ps := by
  rw [Factors.shares, List.filterMap_cons_none h, Factors.shares]

theorem Factors.shares_cons_some {t : Expr} {p : Expr × ℚ} {r : ℚ}
    (h : Factors.share? a t p = some r) :
    Factors.shares a t (p :: ps) = r + Factors.shares a t ps := by
  rw [Factors.shares, List.filterMap_cons_some h, List.foldr_cons, Factors.shares]

/-- The powers of `a` whose exponents are the same but for a number, taken out of a product. -/
theorem PowersDenote.takeShares {t : Expr} (hps : PowersDenote smooth ρ ps y)
    (ha : a.Denotes smooth ρ x) (ht : t.Denotes smooth ρ z) (hx : x ≠ 0) :
    RaiseDefined x (Factors.shares a t ps * z) ∧ ∃ w,
      PowersDenote smooth ρ (ps.filter fun p => (Factors.share? a t p).isNone) w ∧
        y = x ^ (Factors.shares a t ps * z) * w := by
  induction hps with
  | nil =>
    exact ⟨by simpa [Factors.shares] using RaiseDefined.zero hx, 1, .nil, by simp [Factors.shares]⟩
  | @cons e q rest u v he hq hq0 _ ih =>
    obtain ⟨hdef, w, hw, rfl⟩ := ih
    rcases hshare : Factors.share? a t (e, q) with _ | r
    · rw [Factors.shares_cons_none hshare]
      refine ⟨hdef, realPower u q * w, ?_, by ring⟩
      rw [List.filter_cons_of_pos (by simp [hshare])]
      exact .cons he hq hq0 hw
    · obtain ⟨c, rfl, hden, rfl, rfl⟩ := eq_raised_of_share? hshare
      obtain ⟨⟨-, hc, hraise⟩, rfl⟩ := he
      obtain ⟨z', hz', hcz⟩ := denotes_splitCoeff hc.denotes
      obtain rfl : z' = z := hz'.eval.symm.trans ht.eval
      rw [ha.eval, hcz] at hraise
      have hexp : ((c.splitCoeff.1 * q : ℚ) : ℝ) * z' = q * (c.splitCoeff.1 * z') := by
        push_cast
        ring
      rw [Factors.shares_cons_some hshare, Rat.cast_add, add_mul, hexp]
      refine ⟨(hraise.mul hden).add hdef, w, ?_, ?_⟩
      · rwa [List.filter_cons_of_neg (by simp [hshare])]
      · rw [(hraise.mul hden).rpow_add, hraise.rpow_mul hden, eval_raised, ha.eval, hcz]
        ring

theorem FactorsDenote.timesRaised (hf : FactorsDenote smooth ρ f y)
    (h : (raised a b).Denotes smooth ρ x) (hq : q.den = 1) :
    FactorsDenote smooth ρ (f.timesRaised a b q) (y * realPower x q) := by
  obtain ⟨⟨ha, hb, hraise⟩, rfl⟩ := h
  obtain ⟨z, ht, hbz⟩ := denotes_splitCoeff hb.denotes
  obtain ⟨s, p, hs, hp, rfl⟩ := hf
  obtain ⟨hdef, w, hw, rfl⟩ := hp.takeShares ha.denotes ht hraise.ne_zero
  rw [hbz] at hraise
  unfold Factors.timesRaised
  dsimp only
  generalize Factors.shares a b.splitCoeff.2 f.powers = r at hdef
  have hexp : ((b.splitCoeff.1 * q + r : ℚ) : ℝ) * z = q * (b.splitCoeff.1 * z) + r * z := by
    push_cast
    ring
  have htotal := (hraise.mul hq).add hdef
  have hvalue := (hraise.mul hq).rpow_add (r * z)
  rw [← hexp] at htotal hvalue
  rw [hraise.rpow_mul hq, ← hbz, ← eval_raised] at hvalue
  refine ⟨s, a.eval ρ ^ (((b.splitCoeff.1 * q + r : ℚ) : ℝ) * z) * w, hs, ?_, ?_⟩
  · split
    · next hr => exact hw.congr (by simp [hr])
    · refine (denotes_insertPower (denotes_raised ha.denotes (denotes_scaled ht) htotal) .one
        hw).congr ?_
      rw [realPower_one]
  · rw [hvalue]
    ring

theorem FactorsDenote.timesPower (hf : FactorsDenote smooth ρ f y) (hb : b.Denotes smooth ρ x)
    (hq : PowerDefined x q) :
    FactorsDenote smooth ρ (f.timesPower b q) (y * realPower x q) := by
  unfold Factors.timesPower
  split
  · next c =>
    obtain rfl := hb.eval
    exact hf.timesRoot hq
  · next a =>
    obtain ⟨⟨ha, -⟩, rfl⟩ := hb
    obtain ⟨s, p, hs, hp, rfl⟩ := hf
    refine ⟨_, p, denotes_plus hs (denotes_distribute ha.denotes q), hp, ?_⟩
    rw [eval_fn, Fn.real, realPower_exp, Real.exp_add]
    ring
  · exact hf.insertPower hb hq
  · next a _ =>
    obtain ⟨⟨ha, habs⟩, rfl⟩ := hb
    exact hf.timesMagnitude ha.denotes habs hq
  · split
    · next hden => exact hf.timesRaised hb hden
    · exact hf.insertPower hb hq
  · exact hf.insertPower hb hq

theorem FactorsDenote.timesOnce (hf : FactorsDenote smooth ρ f y) (he : e.Denotes smooth ρ x) :
    FactorsDenote smooth ρ (f.timesPower e 1) (y * x) :=
  (hf.timesPower he .one).congr (by rw [realPower_one])

theorem FactorsDenote.times (hf : FactorsDenote smooth ρ f y) (he : e.Denotes smooth ρ x) :
    FactorsDenote smooth ρ (f.times e) (y * x) := by
  induction e generalizing f x y with
  | num q =>
    obtain rfl := he.eval
    obtain ⟨s, p, hs, hp, rfl⟩ := hf
    refine ⟨s, p, hs, hp, ?_⟩
    simp only [Factors.times, eval_num]
    push_cast
    ring
  | prod a b iha ihb =>
    obtain ⟨⟨ha, hb⟩, rfl⟩ := he
    exact (ihb (iha hf ha.denotes) hb.denotes).congr (by rw [eval_prod, mul_assoc])
  | power b q =>
    obtain ⟨⟨hb, hq, -⟩, rfl⟩ := he
    exact hf.timesPower hb.denotes hq
  | _ => exact hf.timesOnce he

theorem FactorsDenote.foldl (hes : ListDenotes smooth ρ es x) (hf : FactorsDenote smooth ρ f y) :
    FactorsDenote smooth ρ (es.foldl Factors.times f) (y * x) := by
  induction hes generalizing f y with
  | nil => exact hf.congr (mul_one y).symm
  | cons he _ ih => exact (ih (hf.times he)).congr (mul_assoc _ _ _)

/-! ### Back to one expression -/

theorem denotes_chain (h : ListDenotes smooth ρ es x) :
    (Factors.chain es).Denotes smooth ρ x := by
  induction h with
  | nil => exact denotes_one
  | @cons e es x y he hes ih =>
    cases es with
    | nil =>
      cases hes
      exact he.congr (mul_one x).symm
    | cons d ds => exact denotes_prod he ih

theorem ListDenotes.append {ds : List Expr} (he : ListDenotes smooth ρ es x)
    (hd : ListDenotes smooth ρ ds y) : ListDenotes smooth ρ (es ++ ds) (x * y) := by
  induction he with
  | nil => exact hd.congr (one_mul y).symm
  | cons h _ ih => exact (ListDenotes.cons h ih).congr (mul_assoc _ _ _).symm

theorem ListDenotes.single (h : e.Denotes smooth ρ x) : ListDenotes smooth ρ [e] x :=
  (ListDenotes.cons h .nil).congr (mul_one x)

theorem denotes_exponential (h : e.Denotes smooth ρ x) :
    ListDenotes smooth ρ (Factors.exponential e) (Real.exp x) := by
  unfold Factors.exponential
  split
  · next q =>
    obtain rfl := h.eval
    split
    · next hq => exact ListDenotes.nil.congr (by simp [hq])
    · exact .single (denotes_fn h trivial)
  · next b =>
    obtain ⟨⟨hb, hpos⟩, rfl⟩ := h
    exact (ListDenotes.single hb.denotes).congr (Real.exp_log hpos).symm
  · exact .single (denotes_fn h trivial)

theorem PowersDenote.bases (h : PowersDenote smooth ρ ps x) :
    ListDenotes smooth ρ (ps.map fun p => if p.2 = 1 then p.1 else power p.1 p.2) x := by
  induction h with
  | nil => exact .nil
  | @cons e q ps x y he hq hq0 _ ih =>
    refine ListDenotes.cons ?_ ih
    dsimp only
    split
    · next h1 => exact he.congr (by rw [h1, realPower_one])
    · exact denotes_power he hq hq0

/-- A regular product has no pole. -/
theorem PowersDenote.hasPole (h : PowersDenote smooth ρ ps x) :
    ps.any (fun p => (power p.1 p.2).hasPole) = false := by
  induction h with
  | nil => rfl
  | cons he hq hq0 _ ih =>
    rw [List.any_cons, ih, Bool.or_false]
    exact (denotes_power he hq hq0).regular.hasPole

theorem FactorsDenote.toExpr (h : FactorsDenote smooth ρ f x) :
    f.toExpr.Denotes smooth ρ x := by
  obtain ⟨s, p, hs, hp, rfl⟩ := h
  unfold Factors.toExpr
  split
  · next hc =>
    rw [Factors.hasPole, hp.hasPole, if_neg Bool.false_ne_true]
    exact denotes_zero.congr (by simp [hc])
  · have hbases := hp.bases.append (denotes_exponential hs)
    have hvalue : (f.coeff : ℝ) * Real.exp s * p = f.coeff * (p * Real.exp s) := by ring
    rw [hvalue]
    dsimp only
    generalize f.powers.map _ ++ Factors.exponential f.exponent = bases at hbases
    generalize p * Real.exp s = w at hbases
    split
    · cases hbases
      exact (denotes_num f.coeff).congr (mul_one _).symm
    · next a b =>
      obtain _ | ⟨hsum, hnil⟩ := hbases
      cases hnil
      exact (denotes_distribute hsum f.coeff).congr (by ring)
    · split
      · next h1 => exact (denotes_chain hbases).congr (by rw [h1, Rat.cast_one, one_mul])
      · exact denotes_prod (denotes_num f.coeff) (denotes_chain hbases)

theorem denotes_productOf (h : ListDenotes smooth ρ es x) : (productOf es).Denotes smooth ρ x := by
  unfold productOf
  split
  · obtain _ | ⟨he, hnil⟩ := h
    cases hnil
    exact he.congr (mul_one _).symm
  · exact (factorsDenote_empty.foldl h).toExpr.congr (one_mul x)

theorem denotes_mul (ha : a.Denotes smooth ρ x) (hb : b.Denotes smooth ρ y) :
    (a * b).Denotes smooth ρ (x * y) :=
  denotes_productOf (.cons ha (.single hb))

theorem denotes_neg (h : e.Denotes smooth ρ x) : (-e).Denotes smooth ρ (-x) :=
  (denotes_mul (denotes_num (-1)) h).congr (by push_cast; ring)

theorem denotes_sub (ha : a.Denotes smooth ρ x) (hb : b.Denotes smooth ρ y) :
    (a - b).Denotes smooth ρ (x - y) :=
  (denotes_plus ha (denotes_neg hb)).congr (by ring)

theorem ListDenotes.foldl_mul (hes : ListDenotes smooth ρ es x) (he : e.Denotes smooth ρ y) :
    (es.foldl (· * ·) e).Denotes smooth ρ (y * x) := by
  induction hes generalizing e y with
  | nil => exact he.congr (mul_one y).symm
  | cons hd _ ih => exact (ih (denotes_mul he hd)).congr (mul_assoc _ _ _)

end Expr

end Flange

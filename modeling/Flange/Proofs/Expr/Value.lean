import Mathlib.Analysis.SpecialFunctions.Pow.Real
import Mathlib.Analysis.SpecialFunctions.Trigonometric.Basic
import Mathlib.Data.Real.Sign
import Flange.Expr.Eval
import Flange.Expr.Pole

/-! # Real values

Expressions are evaluated in the real numbers. An expression is regular at a point when no
operation in it leaves the domain on which it is real and defined; it is smooth there when, in
addition, no argument of a magnitude, a sign or a saturation is at a kink.
-/

namespace Flange

noncomputable def realPower (a : ℝ) (q : ℚ) : ℝ := a ^ (q : ℝ)

noncomputable def Fn.real : Fn → ℝ → ℝ
  | .sin => Real.sin
  | .cos => Real.cos
  | .tanh => Real.tanh
  | .exp => Real.exp
  | .log => Real.log
  | .abs => fun x => |x|
  | .sign => Real.sign
  | .impulse _ => fun _ => 0

open Classical in
noncomputable instance : Scalar ℝ where
  add := (· + ·)
  sub := (· - ·)
  mul := (· * ·)
  div := (· / ·)
  neg := (- ·)
  ofRat q := q
  power := realPower
  raise := (· ^ ·)
  apply := Fn.real
  le x y := decide (x ≤ y)
  render _ := ""

theorem Scalar.clamp_real (x : ℝ) :
    Scalar.clamp x = if x < -1 then -1 else if x ≤ 1 then x else 1 := by
  simp [Scalar.clamp, Scalar.isUndefined, Scalar.le, Scalar.ofRat]

theorem Scalar.gated_real (x y : ℝ) : Scalar.gated x y = if |x| ≤ 1 then y else 0 := by
  simp [Scalar.gated, Scalar.within, Scalar.isUndefined, Scalar.le, Scalar.ofRat, abs_le]

/-- `a` may be raised to the power `q`. -/
structure PowerDefined (a : ℝ) (q : ℚ) : Prop where
  pos : q.den ≠ 1 → 0 < a
  ne_zero : q < 0 → a ≠ 0

/-- `a` may be raised to the power `b`: what is negative only if that is whole. -/
def RaiseDefined (a b : ℝ) : Prop := 0 < a ∨ a ≠ 0 ∧ ∃ n : ℤ, b = n

/-! ### Powers -/

section Powers

variable {a b : ℝ} {p q : ℚ}

theorem cast_num_of_den (h : q.den = 1) : ((q.num : ℤ) : ℚ) = q := by
  conv_rhs => rw [← Rat.num_div_den q, h]
  simp

theorem realPower_of_den (h : q.den = 1) : realPower a q = a ^ q.num := by
  rw [realPower, ← Real.rpow_intCast]
  congr 1
  exact_mod_cast (cast_num_of_den h).symm

theorem realPower_pos (ha : 0 < a) : 0 < realPower a q := Real.rpow_pos_of_pos ha _

@[simp] theorem realPower_zero : realPower a 0 = 1 := by simp [realPower]

@[simp] theorem realPower_one : realPower a 1 = a := by simp [realPower]

theorem PowerDefined.zero : PowerDefined a 0 :=
  ⟨fun h => absurd rfl h, fun h => absurd h (lt_irrefl _)⟩

theorem PowerDefined.one : PowerDefined a 1 := ⟨fun h => absurd rfl h, fun h => by norm_num at h⟩

theorem PowerDefined.of_pos (ha : 0 < a) : PowerDefined a q := ⟨fun _ => ha, fun _ => ha.ne'⟩

theorem PowerDefined.of_den (hq : q.den = 1) (h : 0 ≤ q ∨ a ≠ 0) : PowerDefined a q :=
  ⟨fun hn => absurd hq hn, fun hneg => h.resolve_left (not_le.mpr hneg)⟩

theorem den_add (hp : p.den = 1) (hq : q.den = 1) : (p + q).den = 1 := by
  rw [← cast_num_of_den hp, ← cast_num_of_den hq, ← Int.cast_add]
  exact Rat.den_intCast _

theorem den_mul (hp : p.den = 1) (hq : q.den = 1) : (p * q).den = 1 := by
  rw [← cast_num_of_den hp, ← cast_num_of_den hq, ← Int.cast_mul]
  exact Rat.den_intCast _

theorem num_add (hp : p.den = 1) (hq : q.den = 1) : (p + q).num = p.num + q.num := by
  rw [← cast_num_of_den hp, ← cast_num_of_den hq, ← Int.cast_add]
  simp only [Rat.num_intCast]

theorem num_mul (hp : p.den = 1) (hq : q.den = 1) : (p * q).num = p.num * q.num := by
  rw [← cast_num_of_den hp, ← cast_num_of_den hq, ← Int.cast_mul]
  simp only [Rat.num_intCast]

theorem PowerDefined.add (hp : PowerDefined a p) (hq : PowerDefined a q) :
    PowerDefined a (p + q) where
  pos h := by
    by_cases hp' : p.den = 1
    · exact hq.pos fun hq' => h (den_add hp' hq')
    · exact hp.pos hp'
  ne_zero h := by
    rcases lt_or_ge p 0 with hp' | hp'
    · exact hp.ne_zero hp'
    · exact hq.ne_zero (by linarith)

/-- Powers of one base are multiplied by adding the exponents. -/
theorem realPower_add (hp : PowerDefined a p) (hq : PowerDefined a q) :
    realPower a (p + q) = realPower a p * realPower a q := by
  by_cases ha : 0 < a
  · rw [realPower, Rat.cast_add, Real.rpow_add ha]
    rfl
  · have hp' : p.den = 1 := by_contra fun h => ha (hp.pos h)
    have hq' : q.den = 1 := by_contra fun h => ha (hq.pos h)
    rw [realPower_of_den (den_add hp' hq'), realPower_of_den hp', realPower_of_den hq',
      num_add hp' hq']
    rcases eq_or_ne a 0 with rfl | hne
    · -- at zero both exponents are natural numbers
      have hp0 : 0 ≤ p.num := by
        by_contra h
        exact hp.ne_zero (Rat.num_neg.mp (not_le.mp h)) rfl
      have hq0 : 0 ≤ q.num := by
        by_contra h
        exact hq.ne_zero (Rat.num_neg.mp (not_le.mp h)) rfl
      obtain ⟨m, hm⟩ := Int.eq_ofNat_of_zero_le hp0
      obtain ⟨n, hn⟩ := Int.eq_ofNat_of_zero_le hq0
      rw [hm, hn]
      exact_mod_cast pow_add (0 : ℝ) m n
    · exact zpow_add₀ hne _ _

/-- A whole power of a power. -/
theorem PowerDefined.mul (hp : PowerDefined a p) (hq : q.den = 1)
    (h : PowerDefined (realPower a p) q) : PowerDefined a (p * q) where
  pos hn := hp.pos fun hp' => hn (den_mul hp' hq)
  ne_zero hneg := by
    rintro rfl
    have hp' : p.den = 1 := by_contra fun hn => lt_irrefl _ (hp.pos hn)
    have hp0 : 0 ≤ p := not_lt.mp fun hn => hp.ne_zero hn rfl
    have hpos : 0 < p := hp0.lt_of_ne fun h0 => by simp [← h0] at hneg
    have hzero : realPower 0 p = 0 := by
      rw [realPower_of_den hp', zero_zpow _ (Rat.num_pos.mpr hpos).ne']
    exact h.ne_zero (by nlinarith) hzero

/-- Any power of a power of a positive number. -/
theorem realPower_mul_of_pos (ha : 0 < a) : realPower a (p * q) = realPower (realPower a p) q := by
  rw [realPower, Rat.cast_mul, Real.rpow_mul ha.le]
  rfl

theorem realPower_mul (hp : PowerDefined a p) (hq : q.den = 1) :
    realPower a (p * q) = realPower (realPower a p) q := by
  by_cases ha : 0 < a
  · exact realPower_mul_of_pos ha
  · have hp' : p.den = 1 := by_contra fun h => ha (hp.pos h)
    rw [realPower_of_den (den_mul hp' hq), realPower_of_den hp', realPower_of_den hq,
      num_mul hp' hq, zpow_mul]

theorem realPower_mul_base (ha : 0 < a) (hb : 0 < b) :
    realPower (a * b) q = realPower a q * realPower b q :=
  Real.mul_rpow ha.le hb.le

theorem realPower_mul_base_of_den (hq : q.den = 1) :
    realPower (a * b) q = realPower a q * realPower b q := by
  rw [realPower_of_den hq, realPower_of_den hq, realPower_of_den hq, mul_zpow]

/-- Even powers do not see the sign. -/
theorem realPower_abs (hq : q.den = 1) (heven : q.num % 2 = 0) :
    realPower |a| q = realPower a q := by
  rw [realPower_of_den hq, realPower_of_den hq]
  exact (Int.even_iff.mpr heven).zpow_abs a

theorem realPower_nonneg_of_even (hq : q.den = 1) (heven : q.num % 2 = 0) : 0 ≤ realPower a q := by
  rw [realPower_of_den hq]
  exact (Int.even_iff.mpr heven).zpow_nonneg a

theorem realPower_exp (x : ℝ) : realPower (Real.exp x) q = Real.exp (q * x) := by
  rw [realPower, ← Real.exp_mul, mul_comm]

theorem realPower_intCast (a : ℝ) (k : ℤ) : realPower a k = a ^ k := by
  rw [realPower_of_den (Rat.den_intCast k), Rat.num_intCast]

theorem PowerDefined.sub_intCast (h : PowerDefined a q) (ha : a ≠ 0) (k : ℤ) :
    PowerDefined a (q - k) where
  pos hden := h.pos fun hq => hden (by
    rw [sub_eq_add_neg, ← Int.cast_neg]
    exact den_add hq (Rat.den_intCast _))
  ne_zero _ := ha

theorem PowerDefined.neg_one (hx : x ≠ 0) : PowerDefined x (-1) :=
  .of_den rfl (Or.inr hx)

theorem realPower_neg_one (x : ℝ) : realPower x (-1) = x⁻¹ := by
  rw [realPower_of_den rfl]
  exact zpow_neg_one x

/-! ### Exponents that are no rational numbers -/

variable {c : ℝ}

theorem RaiseDefined.ne_zero (h : RaiseDefined a b) : a ≠ 0 := h.elim ne_of_gt And.left

theorem RaiseDefined.zero (ha : a ≠ 0) : RaiseDefined a 0 := Or.inr ⟨ha, 0, Int.cast_zero.symm⟩

theorem RaiseDefined.powerDefined (h : RaiseDefined a q) : PowerDefined a q where
  pos hden := h.resolve_right fun ⟨_, n, hn⟩ => hden (by
    rw [show q = n by exact_mod_cast hn]
    exact Rat.den_intCast n)
  ne_zero _ := h.ne_zero

theorem RaiseDefined.add (hb : RaiseDefined a b) (hc : RaiseDefined a c) :
    RaiseDefined a (b + c) := by
  rcases hb with hpos | ⟨hne, m, rfl⟩
  · exact Or.inl hpos
  · exact hc.imp_right fun ⟨_, n, hn⟩ => ⟨hne, m + n, by rw [hn, Int.cast_add]⟩

theorem RaiseDefined.rpow_add (hb : RaiseDefined a b) (c : ℝ) : a ^ (b + c) = a ^ b * a ^ c := by
  rcases hb with hpos | ⟨hne, m, rfl⟩
  · exact Real.rpow_add hpos b c
  · rw [add_comm, Real.rpow_add_intCast hne, Real.rpow_intCast, mul_comm]

/-- A whole power of a power. -/
theorem RaiseDefined.mul (h : RaiseDefined a b) (hq : q.den = 1) : RaiseDefined a (q * b) := by
  refine h.imp_right fun ⟨hne, n, hn⟩ => ⟨hne, q.num * n, ?_⟩
  have hcast : (q : ℝ) = q.num := by exact_mod_cast (cast_num_of_den hq).symm
  rw [hn, hcast, Int.cast_mul]

theorem RaiseDefined.rpow_mul (h : RaiseDefined a b) (hq : q.den = 1) :
    a ^ (q * b) = realPower (a ^ b) q := by
  have hcast : (q : ℝ) = q.num := by exact_mod_cast (cast_num_of_den hq).symm
  rw [realPower_of_den hq, hcast]
  rcases h with hpos | ⟨hne, n, rfl⟩
  · rw [mul_comm, Real.rpow_mul_intCast hpos.le]
  · rw [← Int.cast_mul, Real.rpow_intCast, Real.rpow_intCast, mul_comm, zpow_mul]

end Powers

/-! ### Values -/

/-- Where `f` is defined; with `smooth` where it is differentiable too. -/
def Fn.Defined (smooth : Prop) : Fn → ℝ → Prop
  | .log, x => 0 < x
  | .abs, x => smooth → x ≠ 0
  | .sign, x => smooth → x ≠ 0
  | .impulse _, x => smooth → x ≠ 0
  | _, _ => True

namespace Expr

variable {smooth : Prop} {ρ : Valuation ℝ} {a b e : Expr} {x y : ℝ} {q : ℚ}

@[simp] theorem eval_num : (num q).eval ρ = (q : ℝ) := rfl

@[simp] theorem eval_sym (s : Symbol) : (sym s).eval ρ = ρ.symbol s := rfl

@[simp] theorem eval_sum : (sum a b).eval ρ = a.eval ρ + b.eval ρ := rfl

@[simp] theorem eval_prod : (prod a b).eval ρ = a.eval ρ * b.eval ρ := rfl

@[simp] theorem eval_power : (power a q).eval ρ = realPower (a.eval ρ) q := rfl

@[simp] theorem eval_fn (f : Fn) : (fn f a).eval ρ = f.real (a.eval ρ) := rfl

@[simp] theorem eval_sat : (sat a).eval ρ = Scalar.clamp (a.eval ρ) := rfl

@[simp] theorem eval_gate : (gate a b).eval ρ = Scalar.gated (a.eval ρ) (b.eval ρ) := rfl

@[simp] theorem eval_raised : (raised a b).eval ρ = a.eval ρ ^ b.eval ρ := rfl

@[simp] theorem eval_zero : zero.eval ρ = 0 := by simp [zero]

@[simp] theorem eval_one : one.eval ρ = 1 := by simp [one]

@[simp] theorem eval_var (v : Var) : (var v).eval ρ = ρ.var v := rfl

/-- Every operation in `e` is defined at `ρ`, and with `smooth` none is at a kink. -/
def Regular (smooth : Prop) (ρ : Valuation ℝ) : Expr → Prop
  | num _ => True
  | sym _ => True
  | sum a b => a.Regular smooth ρ ∧ b.Regular smooth ρ
  | prod a b => a.Regular smooth ρ ∧ b.Regular smooth ρ
  | power a q => a.Regular smooth ρ ∧ PowerDefined (a.eval ρ) q ∧ q ≠ 0
  | fn f a => a.Regular smooth ρ ∧ f.Defined smooth (a.eval ρ)
  | sat a => a.Regular smooth ρ ∧ (smooth → |a.eval ρ| ≠ 1)
  | gate a b => a.Regular smooth ρ ∧ b.Regular smooth ρ ∧ (smooth → |a.eval ρ| ≠ 1)
  | raised a b => a.Regular smooth ρ ∧ b.Regular smooth ρ ∧ RaiseDefined (a.eval ρ) (b.eval ρ)

/-- `e` is regular at `ρ` and has the value `x`. -/
structure Denotes (smooth : Prop) (ρ : Valuation ℝ) (e : Expr) (x : ℝ) : Prop where
  regular : e.Regular smooth ρ
  eval : e.eval ρ = x

/-- Where an expression meets no kink it is defined. -/
theorem Regular.of_smooth (h : e.Regular True ρ) : e.Regular smooth ρ := by
  induction e with
  | num q => trivial
  | sym s => trivial
  | sum a b iha ihb | prod a b iha ihb => exact ⟨iha h.1, ihb h.2⟩
  | power a q ih => exact ⟨ih h.1, h.2⟩
  | fn f a ih =>
    refine ⟨ih h.1, ?_⟩
    have hf := h.2
    cases f with
    | abs | sign | impulse => exact fun _ => hf trivial
    | _ => exact hf
  | sat a ih => exact ⟨ih h.1, fun _ => h.2 trivial⟩
  | gate a b iha ihb => exact ⟨iha h.1, ihb h.2.1, fun _ => h.2.2 trivial⟩
  | raised a b iha ihb => exact ⟨iha h.1, ihb h.2.1, h.2.2⟩

theorem Regular.denotes (h : e.Regular smooth ρ) : e.Denotes smooth ρ (e.eval ρ) := ⟨h, rfl⟩

theorem Denotes.congr (h : e.Denotes smooth ρ x) (hxy : x = y) : e.Denotes smooth ρ y := hxy ▸ h

theorem Denotes.of_smooth (h : e.Denotes True ρ x) : e.Denotes smooth ρ x :=
  ⟨h.regular.of_smooth, h.eval⟩

theorem denotes_num (q : ℚ) : (num q).Denotes smooth ρ (q : ℝ) := ⟨trivial, rfl⟩

theorem denotes_zero : zero.Denotes smooth ρ 0 := ⟨trivial, eval_zero⟩

theorem denotes_one : one.Denotes smooth ρ 1 := ⟨trivial, eval_one⟩

theorem denotes_sym (s : Symbol) : (sym s).Denotes smooth ρ (ρ.symbol s) := ⟨trivial, rfl⟩

theorem denotes_var (v : Var) : (var v).Denotes smooth ρ (ρ.var v) := denotes_sym (.var v)

theorem denotes_sum (ha : a.Denotes smooth ρ x) (hb : b.Denotes smooth ρ y) :
    (sum a b).Denotes smooth ρ (x + y) :=
  ⟨⟨ha.regular, hb.regular⟩, by rw [eval_sum, ha.eval, hb.eval]⟩

theorem denotes_prod (ha : a.Denotes smooth ρ x) (hb : b.Denotes smooth ρ y) :
    (prod a b).Denotes smooth ρ (x * y) :=
  ⟨⟨ha.regular, hb.regular⟩, by rw [eval_prod, ha.eval, hb.eval]⟩

theorem denotes_power (ha : a.Denotes smooth ρ x) (h : PowerDefined x q) (hq : q ≠ 0) :
    (power a q).Denotes smooth ρ (realPower x q) := by
  obtain ⟨ha, rfl⟩ := ha
  exact ⟨⟨ha, h, hq⟩, rfl⟩

theorem denotes_fn {f : Fn} (ha : a.Denotes smooth ρ x) (h : f.Defined smooth x) :
    (fn f a).Denotes smooth ρ (f.real x) := by
  obtain ⟨ha, rfl⟩ := ha
  exact ⟨⟨ha, h⟩, rfl⟩

theorem denotes_raised (ha : a.Denotes smooth ρ x) (hb : b.Denotes smooth ρ y)
    (h : RaiseDefined x y) : (raised a b).Denotes smooth ρ (x ^ y) := by
  obtain ⟨ha, rfl⟩ := ha
  obtain ⟨hb, rfl⟩ := hb
  exact ⟨⟨ha, hb, h⟩, rfl⟩

/-! ### Poles -/

/-- At a pole no value is defined. -/
theorem Regular.isPole (h : e.Regular smooth ρ) : e.isPole = false := by
  fun_induction Expr.isPole e with
  | case1 a q =>
    obtain ⟨-, hdefined, -⟩ := h
    by_contra hpole
    rw [Bool.not_eq_false, Bool.and_eq_true, beq_iff_eq, decide_eq_true_eq] at hpole
    obtain ⟨rfl, hneg⟩ := hpole
    exact hdefined.ne_zero hneg eval_zero
  | case2 q b ih => exact ih h.2
  | case3 e => rfl

theorem Regular.hasPole (h : e.Regular smooth ρ) : e.hasPole = false := by
  induction e with
  | num q | sym s => rfl
  | sum a b iha ihb | prod a b iha ihb =>
    rw [Expr.hasPole, iha h.1, ihb h.2, Bool.or_false]
  | gate a b iha ihb | raised a b iha ihb =>
    rw [Expr.hasPole, iha h.1, ihb h.2.1, Bool.or_false]
  | power a q ih => rw [Expr.hasPole, h.isPole, ih h.1, Bool.or_false]
  | fn f a ih | sat a ih => rw [Expr.hasPole, ih h.1]

theorem Regular.hasUndefined (h : e.Regular smooth ρ) : e.hasUndefined = false := by
  induction e with
  | num q | sym s => rfl
  | sum a b iha ihb | prod a b iha ihb =>
    rw [Expr.hasUndefined, iha h.1, ihb h.2, Bool.or_false]
  | gate a b iha ihb | raised a b iha ihb =>
    rw [Expr.hasUndefined, iha h.1, ihb h.2.1, Bool.or_false]
  | fn f a ih => rw [Expr.hasUndefined, h.1.isPole, ih h.1, Bool.and_false, Bool.or_false]
  | power a q ih | sat a ih => rw [Expr.hasUndefined, ih h.1]

theorem Regular.collapse (h : e.Regular smooth ρ) : e.collapse = e := by
  rw [Expr.collapse, h.hasUndefined, if_neg Bool.false_ne_true]

/-! ### Dependence on symbols -/

section Congr

variable {ρ' : Valuation ℝ}

theorem eval_congr {α : Type} [Scalar α] {ρ ρ' : Valuation α}
    (h : ∀ s ∈ e.symbolList, ρ.symbol s = ρ'.symbol s) : e.eval ρ = e.eval ρ' := by
  induction e with
  | num q => rfl
  | sym s => exact h s (by simp [symbolList])
  | sum a b iha ihb | prod a b iha ihb | gate a b iha ihb | raised a b iha ihb =>
    simp only [symbolList, List.mem_append] at h
    rw [eval, eval, iha fun s hs => h s (Or.inl hs), ihb fun s hs => h s (Or.inr hs)]
  | power a q ih | fn f a ih | sat a ih => rw [eval, eval, ih h]

theorem Regular.transport (hr : e.Regular smooth ρ)
    (h : ∀ s ∈ e.symbolList, ρ.symbol s = ρ'.symbol s) : e.Regular smooth ρ' := by
  induction e with
  | num q => trivial
  | sym s => trivial
  | sum a b iha ihb =>
    simp only [symbolList, List.mem_append] at h
    exact ⟨iha hr.1 fun s hs => h s (Or.inl hs), ihb hr.2 fun s hs => h s (Or.inr hs)⟩
  | prod a b iha ihb =>
    simp only [symbolList, List.mem_append] at h
    exact ⟨iha hr.1 fun s hs => h s (Or.inl hs), ihb hr.2 fun s hs => h s (Or.inr hs)⟩
  | power a q ih => exact ⟨ih hr.1 h, eval_congr (e := a) h ▸ hr.2.1, hr.2.2⟩
  | fn f a ih => exact ⟨ih hr.1 h, eval_congr (e := a) h ▸ hr.2⟩
  | sat a ih => exact ⟨ih hr.1 h, eval_congr (e := a) h ▸ hr.2⟩
  | gate a b iha ihb =>
    simp only [symbolList, List.mem_append] at h
    have ha := fun s hs => h s (Or.inl hs)
    exact ⟨iha hr.1 ha, ihb hr.2.1 fun s hs => h s (Or.inr hs), eval_congr (e := a) ha ▸ hr.2.2⟩
  | raised a b iha ihb =>
    simp only [symbolList, List.mem_append] at h
    have ha := fun s hs => h s (Or.inl hs)
    have hb := fun s hs => h s (Or.inr hs)
    exact ⟨iha hr.1 ha, ihb hr.2.1 hb,
      eval_congr (e := a) ha ▸ eval_congr (e := b) hb ▸ hr.2.2⟩

end Congr

end Expr

end Flange

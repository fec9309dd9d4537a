import Flange.Expr.Linear
import Flange.Proofs.Symbol

/-! # Symbols of normal forms

The operations on expressions bring in no symbols of their own.
-/

namespace Flange

/-- Of variables, only those that satisfy `Q`. -/
def Symbol.Only (Q : Var → Prop) : Symbol → Prop
  | .var v => Q v
  | _ => True

theorem Symbol.Only.imp {Q Q' : Var → Prop} {s : Symbol} (h : s.Only Q)
    (hQ : ∀ v, Q v → Q' v) : s.Only Q' := by
  cases s with
  | var v => exact hQ v h
  | _ => trivial

namespace Expr

variable {P Q : Symbol → Prop} {a b e : Expr}

theorem mem_vars {v : Var} : v ∈ e.vars ↔ Symbol.var v ∈ e.symbolList := by
  simp only [vars, symbols, List.mem_filterMap, List.mem_eraseDups]
  constructor
  · rintro ⟨s, hs, hv⟩
    cases s <;> simp_all [Symbol.var?]
  · exact fun h => ⟨_, h, rfl⟩

theorem mem_functions {f : Var} : f ∈ e.functions ↔ ∃ v ∈ e.vars, v.base = f := by
  simp [functions]

/-- All symbols of `e` satisfy `P`. -/
def Within (P : Symbol → Prop) (e : Expr) : Prop := ∀ s ∈ e.symbolList, P s

@[simp] theorem within_num (q : Rat) : (num q).Within P := by simp [Within, symbolList]

@[simp] theorem within_zero : zero.Within P := within_num 0

@[simp] theorem within_one : one.Within P := within_num 1

@[simp] theorem within_sym {s : Symbol} : (sym s).Within P ↔ P s := by simp [Within, symbolList]

@[simp] theorem within_var {v : Var} : (var v).Within P ↔ P (.var v) := within_sym

@[simp] theorem within_sum : (sum a b).Within P ↔ a.Within P ∧ b.Within P := by
  simp [Within, symbolList, or_imp, forall_and]

@[simp] theorem within_prod : (prod a b).Within P ↔ a.Within P ∧ b.Within P := by
  simp [Within, symbolList, or_imp, forall_and]

@[simp] theorem within_gate : (gate a b).Within P ↔ a.Within P ∧ b.Within P := by
  simp [Within, symbolList, or_imp, forall_and]

@[simp] theorem within_raised : (raised a b).Within P ↔ a.Within P ∧ b.Within P := by
  simp [Within, symbolList, or_imp, forall_and]

@[simp] theorem within_power {q : Rat} : (power a q).Within P ↔ a.Within P := Iff.rfl

@[simp] theorem within_fn {f : Fn} : (fn f a).Within P ↔ a.Within P := Iff.rfl

@[simp] theorem within_sat : (sat a).Within P ↔ a.Within P := Iff.rfl

theorem Within.mono (h : e.Within P) (hPQ : ∀ s, P s → Q s) : e.Within Q :=
  fun s hs => hPQ s (h s hs)

theorem within_only {R : Var → Prop} : e.Within (Symbol.Only R) ↔ ∀ v ∈ e.vars, R v := by
  constructor
  · exact fun h v hv => h _ (mem_vars.mp hv)
  · intro h s hs
    cases s with
    | var v => exact h v (mem_vars.mpr hs)
    | _ => trivial

@[simp] theorem within_pole : pole.Within P := within_power.mpr within_zero

@[simp] theorem within_undefined : undefined.Within P := within_fn.mpr within_pole

/-! ### Sums -/

theorem within_splitCoeff (h : e.Within P) : e.splitCoeff.2.Within P := by
  unfold splitCoeff
  split
  · simp
  · exact (within_prod.mp h).2
  · exact h

theorem within_scaled {q : Rat} (h : e.Within P) : (scaled q e).Within P := by
  unfold scaled
  split
  · simp
  · split
    · exact h
    · simpa using h

theorem within_terms (h : e.Within P) : ∀ t ∈ e.terms, t.2.Within P := by
  induction e with
  | sum a b iha ihb =>
    intro t ht
    rcases List.mem_append.mp ht with ht | ht
    · exact iha (within_sum.mp h).1 t ht
    · exact ihb (within_sum.mp h).2 t ht
  | _ => simpa [terms] using within_splitCoeff h

theorem within_insertTerm {q : Rat} (h : e.Within P) {ts : List (Rat × Expr)}
    (hts : ∀ t ∈ ts, t.2.Within P) : ∀ t ∈ insertTerm q e ts, t.2.Within P := by
  induction ts with
  | nil =>
    unfold insertTerm
    split <;> simp [h]
  | cons u rest ih =>
    obtain ⟨hu, hrest⟩ := List.forall_mem_cons.mp hts
    obtain ⟨r, f⟩ := u
    unfold insertTerm
    split
    · split
      · exact hts
      · exact List.forall_mem_cons.mpr ⟨h, hts⟩
    · split
      · exact List.forall_mem_cons.mpr ⟨within_undefined, hrest⟩
      · split
        · exact hrest
        · exact List.forall_mem_cons.mpr ⟨hu, hrest⟩
    · exact List.forall_mem_cons.mpr ⟨hu, ih hrest⟩

theorem within_ofTerms : ∀ {ts : List (Rat × Expr)}, (∀ t ∈ ts, t.2.Within P) →
    (ofTerms ts).Within P
  | [], _ => within_zero
  | [(q, e)], h => within_scaled (h (q, e) (by simp))
  | (q, e) :: t :: rest, h => within_sum.mpr
    ⟨within_scaled (h (q, e) (by simp)), within_ofTerms (List.forall_mem_cons.mp h).2⟩

theorem within_plus (ha : a.Within P) (hb : b.Within P) : (a + b).Within P := by
  change (plus a b).Within P
  unfold plus
  split
  · simp
  · refine within_ofTerms ?_
    have hbt : ∀ t ∈ (terms b).filter fun t => t.1 != 0, t.2.Within P :=
      fun t ht => within_terms hb t (List.mem_of_mem_filter ht)
    have hat := within_terms ha
    generalize terms a = ts at hat
    induction ts with
    | nil => exact hbt
    | cons t ts ih =>
      exact within_insertTerm (hat t (by simp)) (ih fun u hu => hat u (List.mem_cons_of_mem _ hu))

theorem within_sumOf {es : List Expr} (h : ∀ e ∈ es, e.Within P) : (sumOf es).Within P :=
  foldl_keeps within_plus within_zero h

theorem within_distribute {q : Rat} (h : e.Within P) : (distribute q e).Within P := by
  unfold distribute
  split
  · simp
  · refine within_ofTerms fun t ht => ?_
    obtain ⟨u, hu, rfl⟩ := List.mem_map.mp ht
    exact within_terms h u hu

/-! ### Products -/

/-- All symbols of the factors satisfy `P`. -/
structure Factors.Within (P : Symbol → Prop) (f : Factors) : Prop where
  exponent : f.exponent.Within P
  powers : ∀ p ∈ f.powers, p.1.Within P

theorem within_insertPower {q : Rat} (h : b.Within P) {ps : List (Expr × Rat)}
    (hps : ∀ p ∈ ps, p.1.Within P) : ∀ p ∈ insertPower b q ps, p.1.Within P := by
  induction ps with
  | nil =>
    unfold insertPower
    split <;> simp [h]
  | cons u rest ih =>
    obtain ⟨hu, hrest⟩ := List.forall_mem_cons.mp hps
    obtain ⟨c, r⟩ := u
    unfold insertPower
    split
    · split
      · exact hps
      · exact List.forall_mem_cons.mpr ⟨h, hps⟩
    · split
      · exact hrest
      · exact List.forall_mem_cons.mpr ⟨hu, hrest⟩
    · exact List.forall_mem_cons.mpr ⟨hu, ih hrest⟩

namespace Factors

variable {f : Factors}

theorem within_empty : Factors.Within P {} := ⟨within_zero, by simp⟩

theorem Within.insertPower {q : Rat} (hf : f.Within P) (hb : b.Within P) :
    Factors.Within P { f with powers := insertPower b q f.powers } :=
  ⟨hf.exponent, within_insertPower hb hf.powers⟩

theorem Within.timesRoot {c q : Rat} (hf : f.Within P) : (f.timesRoot c q).Within P := by
  unfold Factors.timesRoot
  split
  · exact hf.insertPower (within_num c)
  · exact ⟨hf.exponent, within_insertPower (within_num c)
      fun p hp => hf.powers p (List.mem_of_mem_filter hp)⟩

theorem Within.timesMagnitude {q : Rat} (hf : f.Within P) (hb : b.Within P) :
    (f.timesMagnitude b q).Within P :=
  ⟨hf.exponent, within_insertPower hb (within_insertPower (within_fn.mpr hb)
    fun p hp => hf.powers p (List.mem_of_mem_filter hp))⟩

theorem Within.timesRaised {q : Rat} (hf : f.Within P) (h : (raised a b).Within P) :
    (f.timesRaised a b q).Within P := by
  obtain ⟨ha, hb⟩ := within_raised.mp h
  have hrest : ∀ p ∈ f.powers.filter fun p => (share? a b.splitCoeff.2 p).isNone, p.1.Within P :=
    fun p hp => hf.powers p (List.mem_of_mem_filter hp)
  refine ⟨hf.exponent, ?_⟩
  unfold Factors.timesRaised
  dsimp only
  split
  · exact hrest
  · exact within_insertPower (within_raised.mpr ⟨ha, within_scaled (within_splitCoeff hb)⟩) hrest

theorem Within.timesPower {q : Rat} (hf : f.Within P) (hb : b.Within P) :
    (f.timesPower b q).Within P := by
  unfold Factors.timesPower
  split
  · exact hf.timesRoot
  · exact ⟨within_plus hf.exponent (within_distribute (within_fn.mp hb)), hf.powers⟩
  · exact hf.insertPower hb
  · exact hf.timesMagnitude (within_fn.mp hb)
  · split
    · exact hf.timesRaised hb
    · exact hf.insertPower hb
  · exact hf.insertPower hb

theorem Within.times (hf : f.Within P) (he : e.Within P) : (f.times e).Within P := by
  induction e generalizing f with
  | num q => exact ⟨hf.exponent, hf.powers⟩
  | prod a b iha ihb => exact ihb (iha hf (within_prod.mp he).1) (within_prod.mp he).2
  | power a q => exact hf.timesPower he
  | _ => exact hf.timesPower he

theorem within_chain : ∀ {es : List Expr}, (∀ e ∈ es, e.Within P) → (chain es).Within P
  | [], _ => within_one
  | [e], h => h e (by simp)
  | e :: f :: rest, h => within_prod.mpr
    ⟨h e (by simp), within_chain (List.forall_mem_cons.mp h).2⟩

theorem within_exponential (h : a.Within P) : ∀ e ∈ exponential a, e.Within P := by
  unfold exponential
  split
  · split <;> simp
  · simpa using h
  · simpa using h

theorem Within.toExpr (hf : f.Within P) : f.toExpr.Within P := by
  unfold Factors.toExpr
  split
  · split <;> simp
  · have hbases : ∀ e ∈ f.powers.map (fun p => if p.2 = 1 then p.1 else power p.1 p.2) ++
        exponential f.exponent, e.Within P := by
      intro e he
      rcases List.mem_append.mp he with he | he
      · obtain ⟨p, hp, rfl⟩ := List.mem_map.mp he
        split
        · exact hf.powers p hp
        · exact hf.powers p hp
      · exact within_exponential hf.exponent e he
    generalize f.powers.map (fun p => if p.2 = 1 then p.1 else power p.1 p.2) ++
      exponential f.exponent = es at hbases
    dsimp only
    split
    · simp
    · next a b => exact within_distribute (hbases (sum a b) (by simp))
    · split
      · exact within_chain hbases
      · exact within_prod.mpr ⟨within_num _, within_chain hbases⟩

end Factors

theorem within_productOf {es : List Expr} (h : ∀ e ∈ es, e.Within P) : (productOf es).Within P := by
  unfold productOf
  split
  · exact h _ (by simp)
  · exact Factors.Within.toExpr (foldl_keeps Factors.Within.times Factors.within_empty h)

theorem within_mul (ha : a.Within P) (hb : b.Within P) : (a * b).Within P := by
  change (productOf [a, b]).Within P
  exact within_productOf (by simp [ha, hb])

theorem within_neg (h : a.Within P) : (-a).Within P := within_mul (within_num _) h

theorem within_sub (ha : a.Within P) (hb : b.Within P) : (a - b).Within P :=
  within_plus ha (within_neg hb)

/-! ### Functions and powers -/

theorem within_sin (h : a.Within P) : (sin a).Within P := by
  unfold sin
  split
  · simp
  · split
    · exact within_neg (within_fn.mpr (within_neg h))
    · exact h

theorem within_cos (h : a.Within P) : (cos a).Within P := by
  unfold cos
  split
  · simp
  · split
    · exact within_neg h
    · exact h

theorem within_tanh (h : a.Within P) : (tanh a).Within P := by
  unfold tanh
  split
  · simp
  · split
    · exact within_neg (within_fn.mpr (within_neg h))
    · exact h

theorem within_exp (h : a.Within P) : (exp a).Within P := by
  have hf : Factors.Within P { exponent := a } := ⟨h, by simp⟩
  exact hf.toExpr

theorem within_log (h : a.Within P) : (log a).Within P := by
  unfold log
  split
  · split
    · simp
    · split <;> simp
  · exact h
  · exact h

theorem within_abs (h : a.Within P) : (abs a).Within P := by
  unfold abs
  split
  · simp
  · exact h
  · exact h
  · exact within_mul (within_num _) (within_fn.mpr (within_prod.mp h).2)
  · split
    · exact h
    · exact h
  · split
    · exact within_fn.mpr (within_neg h)
    · exact h

theorem within_sign (h : a.Within P) : (sign a).Within P := by
  unfold sign
  split
  · simp
  · exact h

theorem within_impulse (k : Nat) (h : a.Within P) : (impulse k a).Within P := by
  unfold impulse
  split
  · split
    · exact within_fn.mpr (within_num _)
    · simp
  · split
    · exact within_mul (within_num _) (within_fn.mpr (within_neg h))
    · exact h
  · exact h

theorem within_apply (f : Fn) (h : a.Within P) : (apply f a).Within P := by
  cases f with
  | sin => exact within_sin h
  | cos => exact within_cos h
  | tanh => exact within_tanh h
  | exp => exact within_exp h
  | log => exact within_log h
  | abs => exact within_abs h
  | sign => exact within_sign h
  | impulse k => exact within_impulse k h

theorem within_saturate (h : a.Within P) : (saturate a).Within P := by
  unfold saturate
  split
  · simp
  · exact h

theorem within_gated (ha : a.Within P) (hb : b.Within P) : (gated a b).Within P := by
  unfold gated
  split
  · simp
  · split
    · split
      · exact hb
      · simp
    · exact within_gate.mpr ⟨ha, hb⟩

theorem within_numPower (c q : Rat) : (numPower c q).Within P := by
  unfold numPower
  split
  · split <;> simp
  · split
    · simp
    · refine Factors.Within.toExpr (foldl_keeps (S := fun _ => True) (fun hf _ => hf.timesRoot)
        (foldl_keeps (S := fun _ => True) (fun hf _ => hf.timesRoot) ?_ (by simp)) (by simp))
      split
      · exact Factors.within_empty.timesRoot
      · exact Factors.within_empty

theorem within_rootOfPower {r q : Rat} (h : b.Within P) : (rootOfPower b r q).Within P := by
  unfold rootOfPower
  split
  · exact (Factors.within_empty.timesPower (within_apply .abs h)).toExpr
  · split
    · split
      · exact h
      · exact h
    · exact h

theorem within_rootOfProduct {f : Factors} {q : Rat} (hf : f.Within P) :
    (rootOfProduct f q).Within P := by
  have hpart : ∀ p ∈ (f.powers.partition fun p => neverNegative p.1 p.2).1, p.1.Within P :=
    fun p hp => hf.powers p (List.mem_of_mem_filter (List.partition_eq_filter_filter .. ▸ hp))
  have hrest : ∀ p ∈ (f.powers.partition fun p => neverNegative p.1 p.2).2, p.1.Within P :=
    fun p hp => hf.powers p (List.mem_of_mem_filter (List.partition_eq_filter_filter .. ▸ hp))
  unfold rootOfProduct
  refine within_productOf fun e he => ?_
  simp only [List.cons_append, List.mem_cons, List.mem_append, List.mem_map,
    List.not_mem_nil, or_false] at he
  rcases he with rfl | ⟨p, hp, rfl⟩ | rfl | rfl
  · exact within_numPower _ _
  · exact within_rootOfPower (hpart p hp)
  · exact within_apply .exp (within_distribute hf.exponent)
  · split
    · exact within_numPower _ _
    · exact Factors.Within.toExpr ⟨within_zero, hrest⟩

theorem within_pow {q : Rat} (h : e.Within P) : (e.pow q).Within P := by
  unfold pow
  split
  · simp
  · split
    · exact h
    · split
      · exact within_numPower _ _
      · exact within_apply .exp (within_distribute h)
      · exact (Factors.within_empty.timesPower h).toExpr
      · split
        · exact (Factors.within_empty.timesPower (within_power.mp h)).toExpr
        · exact within_rootOfPower (within_power.mp h)
      · have hf := Factors.within_empty.times h
        dsimp only
        split
        · refine Factors.Within.toExpr (foldl_keeps (S := fun p : Expr × Rat => p.1.Within P)
            (fun hg hp => Factors.Within.timesPower hg hp) ?_ hf.powers)
          exact ⟨within_distribute hf.exponent, by simp⟩
        · exact within_rootOfProduct hf
      · split
        · exact (Factors.within_empty.timesPower h).toExpr
        · exact h
      · exact h

theorem within_raise (ha : a.Within P) (hb : b.Within P) : (raise a b).Within P := by
  unfold raise
  split
  · exact within_pow ha
  · split
    · split
      · exact within_one
      · exact within_raised.mpr ⟨ha, hb⟩
    · exact within_apply .exp (within_mul hb ha)
    · exact within_raised.mpr ⟨ha, hb⟩

theorem within_div (ha : a.Within P) (hb : b.Within P) : (a / b).Within P :=
  within_mul ha (within_pow hb)

/-! ### Derivatives -/

theorem within_leibnizFrom : ∀ {ps : List (Expr × Expr)} {before : List Expr},
    (∀ e ∈ before, e.Within P) → (∀ p ∈ ps, p.1.Within P ∧ p.2.Within P) →
      (leibnizFrom before ps).Within P
  | [], _, _, _ => within_zero
  | (e, d) :: rest, before, hb, h => by
    obtain ⟨⟨he, hd⟩, hrest⟩ := List.forall_mem_cons.mp h
    refine within_plus ?_ (within_leibnizFrom ?_ hrest)
    · split
      · simp
      · refine foldl_keeps within_mul within_one fun f hf => ?_
        rcases List.mem_append.mp hf with hf | hf
        · exact hb f hf
        · rcases List.mem_cons.mp hf with rfl | hf
          · exact hd
          · obtain ⟨p, hp, rfl⟩ := List.mem_map.mp hf
            exact (hrest p hp).1
    · intro f hf
      rcases List.mem_append.mp hf with hf | hf
      · exact hb f hf
      · exact List.mem_singleton.mp hf ▸ he

theorem within_leibniz {ps : List (Expr × Expr)} (h : ∀ p ∈ ps, p.1.Within P ∧ p.2.Within P) :
    (leibniz ps).Within P := by
  unfold leibniz
  split
  · next e d => exact (h (e, d) (by simp)).2
  · exact within_leibnizFrom (by simp) h

theorem within_fnDerivative (f : Fn) (h : a.Within P) : (fnDerivative f a).Within P := by
  cases f with
  | sin => exact within_cos h
  | cos => exact within_neg (within_sin h)
  | tanh => exact within_sub within_one (within_pow (within_tanh h))
  | exp => exact within_exp h
  | log => exact within_pow h
  | abs => exact within_sign h
  | sign => exact within_mul (within_num 2) (within_impulse 0 h)
  | impulse k => exact within_impulse (k + 1) h

theorem within_factorDerivatives {δ : Symbol → Expr} (h : e.Within P)
    (hδ : e.Within fun s => (δ s).Within P) :
    ∀ p ∈ factorDerivatives δ e, p.1.Within P ∧ p.2.Within P := by
  induction e with
  | num q => simp [factorDerivatives]
  | sym s => simpa [factorDerivatives] using And.intro (within_sym.mp h) (within_sym.mp hδ)
  | sum a b iha ihb =>
    obtain ⟨ha, hb⟩ := within_sum.mp h
    obtain ⟨hδa, hδb⟩ := within_sum.mp hδ
    simpa [factorDerivatives, ha, hb] using
      within_plus (within_leibniz (iha ha hδa)) (within_leibniz (ihb hb hδb))
  | prod a b iha ihb =>
    obtain ⟨ha, hb⟩ := within_prod.mp h
    obtain ⟨hδa, hδb⟩ := within_prod.mp hδ
    exact List.forall_mem_cons.mpr ⟨⟨ha, within_leibniz (iha ha hδa)⟩, ihb hb hδb⟩
  | power a q ih =>
    have hd := within_leibniz (ih h hδ)
    refine List.forall_mem_singleton.mpr ⟨h, ?_⟩
    dsimp only
    split
    · simp
    · split
      · exact within_mul (within_mul hd (within_num q)) (within_pow h)
      · exact within_mul h (within_mul (within_mul hd (within_num q)) (within_pow h))
  | fn f a ih =>
    have hd := within_leibniz (ih h hδ)
    refine List.forall_mem_singleton.mpr ⟨h, ?_⟩
    dsimp only
    split
    · simp
    · exact within_mul (within_fnDerivative f h) hd
  | sat a ih =>
    exact List.forall_mem_singleton.mpr ⟨h, within_gated h (within_leibniz (ih h hδ))⟩
  | gate a b iha ihb =>
    obtain ⟨ha, hb⟩ := within_gate.mp h
    exact List.forall_mem_singleton.mpr
      ⟨h, within_gated ha (within_leibniz (ihb hb (within_gate.mp hδ).2))⟩
  | raised a b iha ihb =>
    obtain ⟨ha, hb⟩ := within_raised.mp h
    obtain ⟨hδa, hδb⟩ := within_raised.mp hδ
    have hda := within_leibniz (iha ha hδa)
    have hdb := within_leibniz (ihb hb hδb)
    refine List.forall_mem_singleton.mpr ⟨h, ?_⟩
    dsimp only
    split
    · exact within_zero
    · have hlog := within_log (within_abs ha)
      exact within_mul h (within_plus (within_mul hdb hlog)
        (within_mul (within_mul hda hb) (within_pow ha)))

theorem within_derive {δ : Symbol → Expr} (h : e.Within P)
    (hδ : e.Within fun s => (δ s).Within P) : (e.derive δ).Within P :=
  within_leibniz (within_factorDerivatives h hδ)

theorem within_timeDerivative (h : e.Within P)
    (hP : ∀ v : Var, Symbol.var v ∈ e.symbolList → P (.var v.der)) :
    e.timeDerivative.Within P := by
  refine within_derive h fun s hs => ?_
  cases s with
  | time => exact within_one
  | par n => exact within_zero
  | var v => exact within_var.mpr (hP v hs)

theorem within_timeDerivatives (h : e.Within P) (hP : ∀ v : Var, P (.var v) → P (.var v.der)) :
    ∀ k, (e.timeDerivatives k).Within P
  | 0 => h
  | k + 1 => within_timeDerivative (within_timeDerivatives h hP k)
    fun v hv => hP v (within_timeDerivatives h hP k _ hv)

theorem within_partialDerivative {s : Symbol} (hs : s ≠ .time) (h : e.Within P) :
    (e.partialDerivative s).Within P := by
  have hp : (e.derive fun u => if u = s then one else zero).Within P :=
    within_derive h fun u _ => by dsimp only; split <;> simp
  cases s with
  | time => exact absurd rfl hs
  | par n => exact hp
  | var v => exact hp

/-! ### Substitution -/

theorem within_substituteFactors {σ : Replacement}
    (h : e.Within fun s => (replaceSymbol σ s).Within P) :
    ∀ f ∈ substituteFactors σ e, f.Within P := by
  induction e with
  | num q => simp [substituteFactors]
  | sym s => simpa [substituteFactors] using within_sym.mp h
  | sum a b iha ihb =>
    obtain ⟨ha, hb⟩ := within_sum.mp h
    exact List.forall_mem_singleton.mpr
      (within_plus (within_productOf (iha ha)) (within_productOf (ihb hb)))
  | prod a b iha ihb =>
    obtain ⟨ha, hb⟩ := within_prod.mp h
    exact List.forall_mem_cons.mpr ⟨within_productOf (iha ha), ihb hb⟩
  | power a q ih => exact List.forall_mem_singleton.mpr (within_pow (within_productOf (ih h)))
  | fn f a ih => exact List.forall_mem_singleton.mpr (within_apply f (within_productOf (ih h)))
  | sat a ih => exact List.forall_mem_singleton.mpr (within_saturate (within_productOf (ih h)))
  | gate a b iha ihb =>
    obtain ⟨ha, hb⟩ := within_gate.mp h
    exact List.forall_mem_singleton.mpr
      (within_gated (within_productOf (iha ha)) (within_productOf (ihb hb)))
  | raised a b iha ihb =>
    obtain ⟨ha, hb⟩ := within_raised.mp h
    exact List.forall_mem_singleton.mpr
      (within_raise (within_productOf (iha ha)) (within_productOf (ihb hb)))

theorem within_substitute {σ : Replacement}
    (h : e.Within fun s => (replaceSymbol σ s).Within P) : (e.substitute σ).Within P := by
  unfold substitute
  split
  · next hσ =>
    obtain rfl : σ = [] := List.isEmpty_iff.mp hσ
    intro s hs
    have := h s hs
    unfold replaceSymbol at this
    cases s <;> simp_all
  · exact within_productOf (within_substituteFactors h)

theorem replaceSymbol_cases (σ : Replacement) (s : Symbol) :
    (∃ e, σ.lookup s = some e ∧ replaceSymbol σ s = e) ∨
    (∃ v e, s = .var v ∧ v.order ≠ 0 ∧ σ.lookup s = none ∧ σ.lookup (.var v.base) = some e ∧
      replaceSymbol σ s = e.timeDerivatives v.order) ∨
    (σ.lookup s = none ∧ (∀ v, s = .var v → σ.lookup (.var v.base) = none) ∧
      replaceSymbol σ s = sym s) := by
  unfold replaceSymbol
  cases h : σ.lookup s with
  | some e => exact Or.inl ⟨e, rfl, rfl⟩
  | none =>
    refine Or.inr ?_
    cases s with
    | var v =>
      dsimp only
      split
      · next ho =>
        refine Or.inr ⟨rfl, ?_, rfl⟩
        rintro _ ⟨⟩
        rwa [Var.base_of_order ho]
      · next ho =>
        cases hb : σ.lookup (.var v.base) with
        | some e => exact Or.inl ⟨v, e, rfl, ho, rfl, hb, rfl⟩
        | none =>
          refine Or.inr ⟨rfl, ?_, rfl⟩
          rintro _ ⟨⟩
          exact hb
    | _ => exact Or.inr ⟨rfl, nofun, rfl⟩

/-! ### Functions -/

/-- All functions in `e` satisfy `R`. -/
def Over (R : Var → Prop) (e : Expr) : Prop := e.Within (Symbol.Only fun v => R v.base)

variable {R : Var → Prop}

theorem over_iff : e.Over R ↔ ∀ f ∈ e.functions, R f := by
  rw [Over, within_only]
  constructor
  · intro h f hf
    obtain ⟨v, hv, rfl⟩ := mem_functions.mp hf
    exact h v hv
  · exact fun h v hv => h _ (mem_functions.mpr ⟨v, hv, rfl⟩)

theorem Over.imp {S : Var → Prop} (h : e.Over R) (hRS : ∀ f, R f → S f) : e.Over S :=
  h.mono fun _ hs => hs.imp fun v => hRS v.base

theorem Over.timeDerivative (h : e.Over R) : e.timeDerivative.Over R :=
  within_timeDerivative h fun v hv => h (.var v) hv

theorem Over.timeDerivatives (h : e.Over R) (k : Nat) : (e.timeDerivatives k).Over R :=
  within_timeDerivatives h (fun _ hv => hv) k

theorem Over.replaceSymbol {σ : Replacement} {s : Symbol}
    (hσ : ∀ t e, σ.lookup t = some e → e.Over R)
    (hs : ∀ v, s = .var v → σ.lookup s = none → σ.lookup (.var v.base) = none → R v.base) :
    (replaceSymbol σ s).Over R := by
  rcases replaceSymbol_cases σ s with ⟨e, he, heq⟩ | ⟨v, e, -, -, -, he, heq⟩ | ⟨hnone, hb, heq⟩
  · exact heq ▸ hσ s e he
  · exact heq ▸ (hσ _ e he).timeDerivatives _
  · rw [heq]
    refine within_sym.mpr ?_
    cases s with
    | var v => exact hs v rfl hnone (hb v rfl)
    | _ => trivial

/-- A function left by a substitution is in one of its values or was not replaced. -/
theorem Over.substitute {σ : Replacement} (hσ : ∀ t e, σ.lookup t = some e → e.Over R)
    (he : e.Over fun f => σ.lookup (.var f) = none → R f) : (e.substitute σ).Over R :=
  within_substitute fun s hs => Over.replaceSymbol hσ fun v hv _ hb => by
    subst hv
    exact he _ hs hb

end Expr

end Flange

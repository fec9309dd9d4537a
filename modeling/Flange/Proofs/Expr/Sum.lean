import Flange.Expr.Arithmetic
import Flange.Proofs.Expr.Value

/-! # Values of sums

Collecting like terms and distributing a number keep the value.
-/

namespace Flange

theorem Symbol.eq_of_cmp : ∀ {s t : Symbol}, Symbol.cmp s t = .eq → s = t
  | .time, .time, _ => rfl
  | .par a, .par b, h => by
    have h : compare a b = .eq := h
    rw [Std.LawfulEqCmp.eq_of_compare h]
  | .var ⟨n, k⟩, .var ⟨m, l⟩, h => by
    obtain ⟨hname, horder⟩ := Ordering.then_eq_eq.mp h
    obtain rfl : n = m := Std.LawfulEqCmp.eq_of_compare hname
    obtain rfl : k = l := Std.LawfulEqCmp.eq_of_compare horder
    rfl

theorem Fn.rank_injective : ∀ {f g : Fn}, f.rank = g.rank → f = g := by
  intro f g
  cases f <;> cases g <;> simp [Fn.rank] <;> omega

namespace Expr

theorem eq_of_cmpRat {p q : ℚ} (h : cmpRat p q = .eq) : p = q := by
  unfold cmpRat at h
  split at h
  · simp at h
  · split at h
    · assumption
    · simp at h

/-- Expressions that are kept in the same place are the same. -/
theorem eq_of_cmp {a : Expr} : ∀ {b : Expr}, cmp a b = .eq → a = b := by
  induction a with
  | num p => rintro (_ | _ | _ | _ | _ | _ | _ | _ | _) h <;> first
    | exact congrArg num (eq_of_cmpRat h)
    | simp [cmp, rank] at h
  | sym s => rintro (_ | _ | _ | _ | _ | _ | _ | _ | _) h <;> first
    | exact congrArg sym (Symbol.eq_of_cmp h)
    | simp [cmp, rank] at h
  | sum a b iha ihb =>
    rintro (_ | _ | ⟨c, d⟩ | _ | _ | _ | _ | _ | _) h
    case sum =>
      obtain ⟨hac, hbd⟩ := Ordering.then_eq_eq.mp h
      rw [iha hac, ihb hbd]
    all_goals simp [cmp, rank] at h
  | prod a b iha ihb =>
    rintro (_ | _ | _ | ⟨c, d⟩ | _ | _ | _ | _ | _) h
    case prod =>
      obtain ⟨hac, hbd⟩ := Ordering.then_eq_eq.mp h
      rw [iha hac, ihb hbd]
    all_goals simp [cmp, rank] at h
  | power a p ih =>
    rintro (_ | _ | _ | _ | ⟨b, q⟩ | _ | _ | _ | _) h
    case power =>
      obtain ⟨hab, hpq⟩ := Ordering.then_eq_eq.mp h
      rw [ih hab, eq_of_cmpRat hpq]
    all_goals simp [cmp, rank] at h
  | fn f a ih =>
    rintro (_ | _ | _ | _ | _ | ⟨g, b⟩ | _ | _ | _) h
    case fn =>
      obtain ⟨hfg, hab⟩ := Ordering.then_eq_eq.mp h
      rw [ih hab, Fn.rank_injective (Std.LawfulEqCmp.eq_of_compare hfg)]
    all_goals simp [cmp, rank] at h
  | sat a ih =>
    rintro (_ | _ | _ | _ | _ | _ | b | _ | _) h
    case sat => rw [ih h]
    all_goals simp [cmp, rank] at h
  | gate a b iha ihb =>
    rintro (_ | _ | _ | _ | _ | _ | _ | ⟨c, d⟩ | _) h
    case gate =>
      obtain ⟨hac, hbd⟩ := Ordering.then_eq_eq.mp h
      rw [iha hac, ihb hbd]
    all_goals simp [cmp, rank] at h
  | raised a b iha ihb =>
    rintro (_ | _ | _ | _ | _ | _ | _ | _ | ⟨c, d⟩) h
    case raised =>
      obtain ⟨hac, hbd⟩ := Ordering.then_eq_eq.mp h
      rw [iha hac, ihb hbd]
    all_goals simp [cmp, rank] at h

variable {smooth : Prop} {ρ : Valuation ℝ} {a b e : Expr} {x y : ℝ} {q : ℚ}
  {ts : List (ℚ × Expr)}

/-- The terms are regular and add up to `x`. -/
inductive TermsDenote (smooth : Prop) (ρ : Valuation ℝ) : List (ℚ × Expr) → ℝ → Prop
  | nil : TermsDenote smooth ρ [] 0
  | cons {q : ℚ} {e : Expr} {ts : List (ℚ × Expr)} {x y : ℝ} : e.Denotes smooth ρ x →
      TermsDenote smooth ρ ts y → TermsDenote smooth ρ ((q, e) :: ts) (q * x + y)

theorem TermsDenote.congr (h : TermsDenote smooth ρ ts x) (hxy : x = y) :
    TermsDenote smooth ρ ts y := hxy ▸ h

theorem denotes_splitCoeff (h : e.Denotes smooth ρ x) :
    ∃ y, e.splitCoeff.2.Denotes smooth ρ y ∧ x = e.splitCoeff.1 * y := by
  unfold splitCoeff
  split
  · next q => exact ⟨1, denotes_one, by rw [← h.eval]; simp⟩
  · next q b => exact ⟨b.eval ρ, h.regular.2.denotes, by rw [← h.eval]; rfl⟩
  · exact ⟨x, h, by simp⟩

theorem denotes_scaled (h : e.Denotes smooth ρ x) : (scaled q e).Denotes smooth ρ (q * x) := by
  unfold scaled
  split
  · next r => exact ⟨trivial, by rw [← h.eval]; simp⟩
  · split
    · next hq => exact h.congr (by simp [hq])
    · exact denotes_prod (denotes_num q) h

theorem TermsDenote.append {us : List (ℚ × Expr)} (ht : TermsDenote smooth ρ ts x)
    (hu : TermsDenote smooth ρ us y) : TermsDenote smooth ρ (ts ++ us) (x + y) := by
  induction ht with
  | nil => exact hu.congr (by simp)
  | cons he _ ih => exact (TermsDenote.cons he ih).congr (by ring)

theorem denotes_terms (h : e.Denotes smooth ρ x) : TermsDenote smooth ρ e.terms x := by
  induction e generalizing x with
  | sum a b iha ihb =>
    obtain ⟨⟨ha, hb⟩, rfl⟩ := h
    exact (iha ha.denotes).append (ihb hb.denotes)
  | _ =>
    obtain ⟨y, hy, rfl⟩ := denotes_splitCoeff h
    exact (TermsDenote.cons hy .nil).congr (add_zero _)

theorem denotes_insertTerm (h : e.Denotes smooth ρ x) (hts : TermsDenote smooth ρ ts y) :
    TermsDenote smooth ρ (insertTerm q e ts) (q * x + y) := by
  induction hts with
  | nil =>
    unfold insertTerm
    split
    · next hq => exact TermsDenote.nil.congr (by simp [hq])
    · exact .cons h .nil
  | @cons r f rest z w hf hrest ih =>
    unfold insertTerm
    split
    · split
      · next hq => exact (TermsDenote.cons hf hrest).congr (by simp [hq])
      · exact .cons h (.cons hf hrest)
    · next heq =>
      obtain rfl := eq_of_cmp heq
      have hxz : x = z := h.eval.symm.trans hf.eval
      rw [h.regular.isPole, h.regular.hasUndefined, Bool.or_false, if_neg Bool.false_ne_true]
      split
      · next hqr =>
        refine hrest.congr ?_
        have : (q : ℝ) + r = 0 := by exact_mod_cast hqr
        linear_combination (-x) * this + (r : ℝ) * hxz
      · exact (TermsDenote.cons h hrest).congr (by push_cast; rw [hxz]; ring)
    · exact (TermsDenote.cons hf ih).congr (by ring)

theorem denotes_ofTerms (h : TermsDenote smooth ρ ts x) : (ofTerms ts).Denotes smooth ρ x := by
  induction h with
  | nil => exact denotes_zero
  | @cons q e ts x y he hts ih =>
    cases ts with
    | nil =>
      cases hts
      exact (denotes_scaled he).congr (by simp)
    | cons t ts => exact denotes_sum (denotes_scaled he) ih

theorem TermsDenote.filter (h : TermsDenote smooth ρ ts x) :
    TermsDenote smooth ρ (ts.filter fun t => t.1 != 0) x := by
  induction h with
  | nil => exact .nil
  | @cons q e ts x y he _ ih =>
    rw [List.filter_cons]
    split
    · exact .cons he ih
    · next hq => exact ih.congr (by simp_all)

theorem TermsDenote.foldr (h : TermsDenote smooth ρ ts x) {us : List (ℚ × Expr)}
    (hu : TermsDenote smooth ρ us y) :
    TermsDenote smooth ρ (ts.foldr (fun t acc => insertTerm t.1 t.2 acc) us) (x + y) := by
  induction h with
  | nil => exact hu.congr (by simp)
  | cons he _ ih => exact (denotes_insertTerm he ih).congr (by ring)

theorem denotes_plus (ha : a.Denotes smooth ρ x) (hb : b.Denotes smooth ρ y) :
    (a + b).Denotes smooth ρ (x + y) := by
  change (plus a b).Denotes smooth ρ (x + y)
  unfold plus
  split
  · next q r =>
    refine (denotes_num (q + r)).congr ?_
    rw [← ha.eval, ← hb.eval]
    simp
  · exact denotes_ofTerms ((denotes_terms ha).foldr (denotes_terms hb).filter)

theorem denotes_sumOf {α : Type} {f : α → Expr} {v : α → ℝ} {as : List α}
    (h : ∀ a ∈ as, (f a).Denotes smooth ρ (v a)) :
    (sumOf (as.map f)).Denotes smooth ρ (as.map v).sum := by
  suffices ∀ {e : Expr} {x : ℝ}, e.Denotes smooth ρ x →
      ((as.map f).foldl (· + ·) e).Denotes smooth ρ (x + (as.map v).sum) from
    (this denotes_zero).congr (zero_add _)
  induction as with
  | nil => exact fun he => he.congr (add_zero _).symm
  | cons a as ih =>
    intro e x he
    obtain ⟨ha, has⟩ := List.forall_mem_cons.mp h
    exact (ih has (denotes_plus he ha)).congr (by rw [List.map_cons, List.sum_cons, add_assoc])

theorem TermsDenote.scale (h : TermsDenote smooth ρ ts x) (q : ℚ) :
    TermsDenote smooth ρ (ts.map fun t => (q * t.1, t.2)) (q * x) := by
  induction h with
  | nil => exact TermsDenote.nil.congr (by simp)
  | cons he _ ih => exact (TermsDenote.cons he ih).congr (by push_cast; ring)

theorem denotes_distribute (h : e.Denotes smooth ρ x) (q : ℚ) :
    (distribute q e).Denotes smooth ρ (q * x) := by
  unfold distribute
  split
  · next hq => exact denotes_zero.congr (by simp [hq])
  · exact denotes_ofTerms ((denotes_terms h).scale q)

end Expr

end Flange

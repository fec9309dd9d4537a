import Flange.Proofs.Expr.Rate

/-! # Trajectories

Smooth functions of time in the place of all variables, so that expressions become functions of
time. Differentiating an expression differentiates this function, and a substitution that is true
along the trajectory does not change it.
-/

namespace Flange

/-- Values for all symbols on an open set of times, where a derivative of a variable is the
derivative of its value. -/
structure Trajectory where
  domain : Set ℝ
  isOpen : IsOpen domain
  par : String → ℝ
  var : Var → ℝ → ℝ
  hasDerivAt : ∀ v, ∀ t ∈ domain, HasDerivAt (var v) (var v.der t) t

namespace Trajectory

/-- A motion may be given for all times. -/
theorem isOpen_always : IsOpen (Set.univ : Set ℝ) := isOpen_univ

variable (T : Trajectory)

/-- The values at one time. -/
def valuation (t : ℝ) : Valuation ℝ := ⟨t, T.par, fun v => T.var v t⟩

/-- Along the trajectory `e` is defined and has the value `f`; with `smooth` it meets no kink. -/
def Takes (smooth : Prop) (e : Expr) (f : ℝ → ℝ) : Prop :=
  ∀ t ∈ T.domain, e.Denotes smooth (T.valuation t) (f t)

/-- Along the trajectory `e` is smooth and has the value `f`. -/
def Reads (e : Expr) (f : ℝ → ℝ) : Prop := T.Takes True e f

/-- Along the trajectory `e` is defined; with `smooth` it meets no kink. -/
def RegularAlong (smooth : Prop) (e : Expr) : Prop :=
  ∀ t ∈ T.domain, e.Regular smooth (T.valuation t)

/-- The equation `0 = e` holds along the trajectory. -/
def Solves (e : Expr) : Prop := T.Reads e fun _ => 0

/-- Along the trajectory `e` is smooth. -/
def Smooth (e : Expr) : Prop := T.RegularAlong True e

/-- The expressions of a replacement have the values of what they replace. -/
def Respects (σ : Replacement) : Prop := ∀ p ∈ σ, T.Reads p.2 fun t => (T.valuation t).symbol p.1

variable {T} {e : Expr} {f f' : ℝ → ℝ} {v w : Var} {σ : Replacement}

@[simp] theorem valuation_var (t : ℝ) (v : Var) : (T.valuation t).var v = T.var v t := rfl

theorem reads_var (v : Var) : T.Reads (.var v) (T.var v) := fun _ _ => Expr.denotes_var v

theorem Reads.smooth (h : T.Reads e f) : T.Smooth e := fun t ht => (h t ht).regular

theorem Reads.congr {g : ℝ → ℝ} (h : T.Reads e f) (hfg : ∀ t ∈ T.domain, f t = g t) :
    T.Reads e g := fun t ht => (h t ht).congr (hfg t ht)

theorem hasDerivAt_symbol {t : ℝ} (ht : t ∈ T.domain) (s : Symbol) :
    HasDerivAt (fun u => (T.valuation u).symbol s) ((T.valuation t).rate s) t :=
  match s with
  | .time => hasDerivAt_id t
  | .par _ => hasDerivAt_const t _
  | .var v => T.hasDerivAt v t ht

/-- The time derivative of an expression is the derivative of its value. -/
theorem Reads.timeDerivative (h : T.Reads e f) (hf : ∀ t ∈ T.domain, HasDerivAt f (f' t) t) :
    T.Reads e.timeDerivative f' := by
  intro t ht
  have hreg := (h t ht).regular
  have hslope := Expr.hasDerivAt_eval (γ := T.valuation) hreg fun s _ => hasDerivAt_symbol ht s
  have hvalue : (fun u => e.eval (T.valuation u)) =ᶠ[nhds t] f := by
    filter_upwards [T.isOpen.mem_nhds ht] with u hu using (h u hu).eval
  refine (Expr.denotes_timeDerivative hreg).congr ?_
  exact (hslope.congr_of_eventuallyEq hvalue.symm).unique (hf t ht)

theorem Solves.timeDerivative (h : T.Solves e) : T.Solves e.timeDerivative :=
  Reads.timeDerivative h fun t _ => hasDerivAt_const t 0

theorem Solves.timeDerivatives (h : T.Solves e) : ∀ k, T.Solves (e.timeDerivatives k)
  | 0 => h
  | k + 1 => (Solves.timeDerivatives h k).timeDerivative

theorem Reads.timeDerivatives (h : T.Reads e (T.var v)) :
    ∀ k, T.Reads (e.timeDerivatives k) (T.var (v.der k))
  | 0 => by rwa [Var.der_zero]
  | k + 1 => (Reads.timeDerivatives h k).timeDerivative fun t ht => T.hasDerivAt (v.der k) t ht

theorem Respects.reads_replaceSymbol (hσ : T.Respects σ) (s : Symbol) :
    T.Reads (Expr.replaceSymbol σ s) fun t => (T.valuation t).symbol s := by
  rcases Expr.replaceSymbol_cases σ s with ⟨e, he, heq⟩ | ⟨v, e, rfl, -, -, he, heq⟩ | ⟨-, -, heq⟩
  · rw [heq]
    exact hσ _ (mem_of_lookup he)
  · rw [heq]
    have h : T.Reads e (T.var v.base) := hσ _ (mem_of_lookup he)
    have h := h.timeDerivatives v.order
    rwa [Var.der_base] at h
  · rw [heq]
    exact fun t _ => Expr.denotes_sym s

/-- A true substitution keeps the value of an expression. -/
theorem Takes.substitute {smooth : Prop} (h : T.Takes smooth e f) (hσ : T.Respects σ) :
    T.Takes smooth (e.substitute σ) f :=
  fun t ht => (Expr.denotes_substitute (h t ht).regular fun s _ =>
    (hσ.reads_replaceSymbol s t ht).of_smooth).congr (h t ht).eval

/-- An expression has the value that is known of what a true substitution makes of it. -/
theorem RegularAlong.takes_of_substitute {smooth : Prop} (h : T.RegularAlong smooth e)
    (hσ : T.Respects σ)
    (hs : T.RegularAlong smooth (e.substitute σ) → T.Takes smooth (e.substitute σ) f) :
    T.Takes smooth e f := by
  have he : T.Takes smooth e fun t => e.eval (T.valuation t) := fun t ht => (h t ht).denotes
  have hsub := he.substitute hσ
  have hvalue := hs fun t ht => (hsub t ht).regular
  exact fun t ht => (he t ht).congr ((hsub t ht).eval.symm.trans (hvalue t ht).eval)

/-- A true substitution keeps the value of a smooth expression. -/
theorem Reads.substitute (h : T.Reads e f) (hσ : T.Respects σ) : T.Reads (e.substitute σ) f :=
  Takes.substitute h hσ

end Trajectory

end Flange

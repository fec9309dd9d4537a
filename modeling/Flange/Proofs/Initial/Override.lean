import Flange.Proofs.Initial.Point
import Flange.Proofs.Reduction.Fixed
import Flange.Proofs.Solution.Kept
import Flange.Proofs.System

/-! # Initial values of the caller and of the components

A value that the caller gives for a variable replaces the fixed value of its component when the
elimination of aliases has kept the variable. When it has put another variable in its place, the fixed
value has gone there, and it is imposed along with that of the caller.
-/

namespace Flange

namespace Initialization

variable {l : Library} {d : Diagram} {verbose : Bool} {s : EquationSystem} {o : ReductionOptions}
  {r : ReducedSystem} {a : Aliases} {u v w : Var} {q f : Rat}

/-! ### Requests -/

theorem hasDerivative_of_within {e : Expr}
    (h : e.Within (Symbol.Only fun v => v.order = 0)) : e.hasDerivative = false := by
  apply List.any_eq_false.mpr
  intro k hk
  cases k with
  | var v =>
    have hv : v.order = 0 := h _ hk
    simp [Var.isDerivative, hv]
  | _ => simp

theorem mem_inputs_of_inputFunctions {us inputs : InputFunctions}
    (hus : r.inputFunctions inputs = .ok us) {k : Var × (Rat → Rat)} (hk : k ∈ us) :
    k.1 ∈ r.inputs := by
  obtain ⟨v, hv, hkv⟩ := exists_of_forall₂ (mapM_ok hus).flip k hk
  split at hkv
  · obtain rfl := Except.ok.inj hkv
    exact hv
  · simp at hkv

/-- A request for a variable that is retained is an equation between the variable and the value. -/
theorem express_retained {t : Rat} {us inputs : InputFunctions}
    (hus : r.inputFunctions inputs = .ok us) (hu : u ∈ r.unknowns) (horder : u.order = 0)
    (hinput : u ∉ r.inputs) (p : Rat) : ∃ e, express r (r.knownAt t us) (.var u, p) = .ok e ∧
      ∀ x : Vec ℝ, e.eval (pointValuation r.unknowns x) =
        (pointValuation r.unknowns x).var u - p := by
  have hbase : r.expressionFor (.var u) = .ok (.var u) := by
    simp [ReducedSystem.expressionFor, ReducedSystem.baseExpression, Var.isDerivative, horder, hu]
  have hfree : (Expr.var u - .num p).hasDerivative = false :=
    hasDerivative_of_within (Expr.within_sub (Expr.within_var.mpr horder) (Expr.within_num p))
  have hlookup : us.lookup u = none :=
    lookup_eq_none fun k hk heq => hinput (heq ▸ mem_inputs_of_inputFunctions hus hk)
  refine ⟨settle (r.knownAt t us) (Expr.var u - .num p), ?_, fun x => ?_⟩
  · simp [express, request, hbase, hfree, Except.map]
  · have hvar : (Expr.var u).Denotes False (r.pointAt t us x) ((pointValuation r.unknowns x).var u) :=
      (Expr.denotes_var u).congr (by
        simp [ReducedSystem.pointAt, hlookup, horder, pointValuation, Vec.zero, Scalar.ofRat])
    have hsub := Expr.denotes_sub hvar (Expr.denotes_num p)
    rw [(ReducedSystem.denotes_settle hsub.regular).eval, hsub.eval]

theorem mem_requests_singleton {p x : Rat} : (.var u, p) ∈ requests r [(.var v, x)] ↔
    u = v ∧ p = x ∨ (u, p) ∈ r.strong ∧ u ≠ v := by
  rw [mem_requests, List.mem_singleton, Prod.mk.injEq, Symbol.var.injEq]
  apply or_congr_right
  constructor
  · rintro ⟨⟨u', p'⟩, hp, heq, hnew⟩
    obtain ⟨hu, rfl⟩ := Prod.mk.inj heq
    obtain rfl := Symbol.var.inj hu
    refine ⟨hp, ?_⟩
    rintro rfl
    exact hnew _ List.mem_cons_self rfl
  · rintro ⟨hp, hne⟩
    refine ⟨(u, p), hp, rfl, fun k hk heq => hne ?_⟩
    obtain rfl := List.mem_singleton.mp hk
    exact (Symbol.var.inj heq).symm

/-! ### Representatives in a reduced system -/

/-- The variable that the elimination of aliases leaves of the class of `v`, with the number that `v`
is times this variable. -/
def represent (s : EquationSystem) (o : ReductionOptions) (v : Var) : Option (Rat × Var) :=
  Aliases.represent s.knowns (Reduction.aliasEvents s o) v

theorem steps_of_reduce (hr : (reduce s o).outcome = .ok r) :
    ∃ a, Reduction.eliminateAliases s o = .ok a ∧ r.strong = a.strong ∧ r.inputs = s.inputs ∧
      Aliases.Steps (Aliases.contextOf s) (Reduction.aliasEvents s o) (Aliases.ofSystem s) a := by
  obtain ⟨a, t, d, x, y, h, rfl⟩ := Reduction.reduce_ok.mp hr
  exact ⟨a, h.aliases, rfl, rfl, Reduction.steps_aliasEvents h.aliases⟩

section Represent

variable (hs : (assemble l d verbose).outcome = .ok s) (hr : (reduce s o).outcome = .ok r)

include hs hr

/-- A variable with a fixed value represents itself just when it is left. -/
theorem represent_self_iff (hq : s.strong.lookup v = some q) (hv : represent s o v = some (f, w)) :
    (w = v → f = 1) ∧ ∃ a, Reduction.eliminateAliases s o = .ok a ∧ (w = v ↔ v ∈ a.unknowns) := by
  obtain ⟨a, ha, -, -, hsteps⟩ := steps_of_reduce hr
  have hunknown := (Assembly.values_of_assemble hs).2 _ (List.mem_append_left _ (mem_of_lookup hq))
  obtain ⟨hw, hkept⟩ :=
    hsteps.represent_left (Assembly.wellFormed_of_assemble hs).order_unknown hunknown hv
  exact ⟨fun h => (hkept (h ▸ hw)).1, a, ha, fun h => h ▸ hw, fun h => (hkept h).2⟩

/-- The only fixed value of a class belongs to its representative in the end. -/
theorem mem_strong_of_represent (hq : s.strong.lookup v = some q)
    (hv : represent s o v = some (f, w))
    (honly : ∀ u g, s.strong.has u = true → represent s o u = some (g, w) → u = v) :
    (w, q / f) ∈ r.strong := by
  obtain ⟨a, -, hstrong, -, hsteps⟩ := steps_of_reduce hr
  have hunknown := (Assembly.values_of_assemble hs).2 _ (List.mem_append_left _ (mem_of_lookup hq))
  rw [hstrong]
  apply mem_of_lookup
  exact hsteps.lookup_strong (Assembly.wellFormed_of_assemble hs).order_unknown hunknown hv honly hq

/-- Every fixed value in the end is that of a variable of its class. -/
theorem exists_represent_of_strong {p : Rat} (hu : (u, p) ∈ r.strong) :
    ∃ u₀ p₀ g, s.strong.lookup u₀ = some p₀ ∧ represent s o u₀ = some (g, u) ∧ p = p₀ / g := by
  obtain ⟨a, -, hstrong, -, hsteps⟩ := steps_of_reduce hr
  obtain ⟨hnodup, hunknown⟩ := Assembly.values_of_assemble hs
  have hvalued := Aliases.valued_ofSystem hnodup hunknown
  rw [hstrong] at hu
  rw [List.map_append, List.nodup_append] at hnodup
  have hlookup := lookup_of_mem (hsteps.nodup_strong hnodup.1) hu
  exact hsteps.origin_strong (Assembly.wellFormed_of_assemble hs).order_unknown hvalued hlookup

end Represent

/-- The caller asks for the value `x` of a variable `v` that alone has a fixed value in its class, and
the class is represented by `w`. This replaces the fixed value just when `v` itself is left; otherwise
the fixed value is imposed on `w` all the same. All other requests are for the fixed values of other
variables. The strong equations are the constraints and the requests, and a request for a variable
that is retained is an equation between the variable and the value. -/
theorem requests_override (hs : (assemble l d verbose).outcome = .ok s)
    (hr : (reduce s o).outcome = .ok r) (hq : s.strong.lookup v = some q)
    (hv : represent s o v = some (f, w))
    (honly : ∀ u g, s.strong.has u = true → represent s o u = some (g, w) → u = v) (x : Rat) :
    (∃ a, Reduction.eliminateAliases s o = .ok a ∧ (w = v ↔ v ∈ a.unknowns)) ∧
      (.var v, x) ∈ requests r [(.var v, x)] ∧
      ((.var w, q / f) ∈ requests r [(.var v, x)] ↔ w ≠ v ∨ q = x) ∧
      (∀ u p, (.var u, p) ∈ requests r [(.var v, x)] →
        u = v ∧ p = x ∨ u = w ∧ p = q / f ∧ w ≠ v ∨
          ∃ u₀ p₀ g, u₀ ≠ v ∧ s.strong.lookup u₀ = some p₀ ∧ represent s o u₀ = some (g, u) ∧
            p = p₀ / g) ∧
      ∀ t inputs us, r.inputFunctions inputs = .ok us →
        (∀ o' es, (strongEquations r (r.knownAt t us) ℝ o' [(.var v, x)]).outcome = .ok es →
          Imposed r (r.knownAt t us) ℝ o' [(.var v, x)] es) ∧
        ∀ u ∈ s.unknowns, u ∈ r.unknowns → ∀ p,
          ∃ e, express r (r.knownAt t us) (.var u, p) = .ok e ∧ ∀ y : Vec ℝ,
            e.eval (pointValuation r.unknowns y) = (pointValuation r.unknowns y).var u - p := by
  obtain ⟨hself, hkept⟩ := represent_self_iff hs hr hq hv
  have hmoved := mem_strong_of_represent hs hr hq hv honly
  refine ⟨hkept, mem_requests_singleton.mpr (Or.inl ⟨rfl, rfl⟩), ?_, ?_, ?_⟩
  · rw [mem_requests_singleton]
    by_cases hwv : w = v
    · simp [hwv, hself hwv]
    · simp [hwv, hmoved]
  · intro u p h
    rcases mem_requests_singleton.mp h with h | ⟨hu, hne⟩
    · exact Or.inl h
    · obtain ⟨u₀, p₀, g, hlookup, hrep, rfl⟩ := exists_represent_of_strong hs hr hu
      by_cases hu₀ : u₀ = v
      · subst hu₀
        obtain ⟨rfl, rfl⟩ := Prod.mk.inj (Option.some.inj (hv.symm.trans hrep))
        obtain rfl := Option.some.inj (hq.symm.trans hlookup)
        exact Or.inr (Or.inl ⟨rfl, rfl, hne⟩)
      · exact Or.inr (Or.inr ⟨u₀, p₀, g, hu₀, hlookup, hrep, rfl⟩)
  · intro t inputs us hus
    constructor
    · exact fun o' es hes => imposed_of_strongEquations hes
    · intro u hu hretained p
      have hwell := Assembly.wellFormed_of_assemble hs
      obtain ⟨-, -, -, hinputs, -⟩ := steps_of_reduce hr
      exact express_retained hus hretained (hwell.order_unknown u hu)
        (hinputs ▸ hwell.disjoint u hu) p

/-! ### Two rotors on one shaft -/

namespace Coupled

/-- A rotor with the arguments. -/
def rotor (id : Nat) (name : String) (a : Arguments) : Component :=
  ((Rotational.inertia.build a).runOn (Rotational.inertia.blank id (some name))).2

def first : Component := rotor 0 "a" [("phi", .number ⟨5, 1⟩), ("phi_fixed", .flag true)]

def second : Component := rotor 1 "b" []

/-- Two rotors that turn together; the angle of one of them is fixed. -/
def diagram : Diagram where
  components := [first, second]
  connections := [[⟨first, "flange_b"⟩, ⟨second, "flange_a"⟩]]

def angle : Var := ⟨"a_phi", 0⟩

/-- The angle that is left. -/
def other : Var := ⟨"b_phi", 0⟩

theorem requests_override_coupled : ∃ s r, (assemble .standard diagram).outcome = .ok s ∧
    (reduce s).outcome = .ok r ∧ s.strong.lookup angle = some (1 / 2) ∧
    (.var angle, 1 / 4) ∈ requests r [(.var angle, 1 / 4)] ∧
    (.var other, 1 / 2) ∈ requests r [(.var angle, 1 / 4)] := by
  have h : ((assemble .standard diagram).outcome.toOption.bind fun s =>
      (reduce s).outcome.toOption.map fun _ => (s.strong, represent s {} angle)) =
        some ([(angle, 1 / 2)], some (1, other)) := by decide +kernel
  obtain ⟨s, hs, h⟩ := Option.bind_eq_some_iff.mp h
  obtain ⟨r, hr, h⟩ := Option.map_eq_some_iff.mp h
  obtain ⟨hstrong, hrep⟩ := Prod.mk.inj h
  have hs := ok_of_toOption hs
  have hr := ok_of_toOption hr
  have hq : s.strong.lookup angle = some (1 / 2) := by simp [hstrong]
  have honly : ∀ u g, s.strong.has u = true → represent s {} u = some (g, other) →
      u = angle := by
    intro u g hu _
    by_contra hne
    simp [hstrong, InitialValues.has, List.lookup_cons, beq_false_of_ne hne] at hu
  obtain ⟨-, hasked, hown, -⟩ := requests_override hs hr hq hrep honly (1 / 4)
  rw [div_one] at hown
  exact ⟨s, r, hs, hr, hq, hasked, hown.mpr (Or.inl (by decide))⟩

end Coupled

end Initialization

end Flange

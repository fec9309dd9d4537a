import Flange.Proofs.Connection.Records
import Flange.Proofs.Expr.Straight

/-! # Laws of the connections

The equations of a connection graph say what Kirchhoff's laws ask of its classes, one equation for
each connector: the connectors of a class have one potential, and their flows balance.
-/

namespace Flange

/-- The two sides have the same value. -/
def Equation.Holds (ρ : Valuation ℝ) (e : Equation) : Prop := e.lhs.eval ρ = e.rhs.eval ρ

/-- The equation contains the symbol. -/
def Equation.Contains (e : Equation) (s : Symbol) : Prop :=
  s ∈ e.lhs.symbolList ∨ s ∈ e.rhs.symbolList

instance (e : Equation) (s : Symbol) : Decidable (e.Contains s) := by
  unfold Equation.Contains
  infer_instance

/-- The values that `f` gives to all symbols. -/
def Valuation.ofSymbols (f : Symbol → ℝ) : Valuation ℝ :=
  ⟨f .time, fun n => f (.par n), fun v => f (.var v)⟩

@[simp] theorem Valuation.symbol_ofSymbols (f : Symbol → ℝ) (s : Symbol) :
    (ofSymbols f).symbol s = f s := by
  cases s <;> rfl

namespace ConnectionGraph

variable {g : ConnectionGraph} {root rank : Nat → Nat} {ρ : Valuation ℝ} {n i : Nat}
  {is : List Nat} {r s : ConnectorRecord} {rs : List ConnectorRecord}

/-- The listed records. -/
def recordsOf (g : ConnectionGraph) (is : List Nat) : List ConnectorRecord :=
  is.filterMap fun i => g.records[i]?

/-- What Kirchhoff's laws ask of the connectors of one class. -/
structure Balanced (ρ : Valuation ℝ) (rs : List ConnectorRecord) : Prop where
  potential : ∀ r ∈ rs, ∀ s ∈ rs, ρ.symbol r.potential.symbol = ρ.symbol s.potential.symbol
  flow : (rs.map fun r => (r.flowSign : ℝ) * ρ.symbol r.flow.symbol).sum = 0

/-- The sum of the flows of the records, with their signs. -/
def balance (rs : List ConnectorRecord) : Expr :=
  .sumOf (rs.map fun s => Expr.num s.flowSign * s.flow.expr)

theorem denotes_balance (smooth : Prop) (ρ : Valuation ℝ) (rs : List ConnectorRecord) :
    (balance rs).Denotes smooth ρ
      (rs.map fun r => (r.flowSign : ℝ) * ρ.symbol r.flow.symbol).sum := by
  refine Expr.denotes_sumOf fun r _ => ?_
  refine Expr.denotes_mul ((Expr.denotes_num r.flowSign).congr ?_) (Expr.denotes_sym _)
  exact Rat.cast_intCast _

theorem within_balance (rs : List ConnectorRecord) :
    (balance rs).Within fun s => ∃ r ∈ rs, r.flow.symbol = s := by
  apply Expr.within_sumOf
  intro e he
  obtain ⟨r, hr, rfl⟩ := List.mem_map.mp he
  exact Expr.within_mul (Expr.within_num _) (Expr.within_sym.mpr ⟨r, hr, rfl⟩)

theorem classEquations_cons (n : Nat) (r : ConnectorRecord) (rs : List ConnectorRecord) :
    classEquations n (r :: rs) =
      rs.map (fun s => ⟨⟨r.potential.expr, s.potential.expr⟩, .pot, .connectionClass n⟩) ++
        [⟨⟨.zero, balance (r :: rs)⟩, .flow, .connectionClass n⟩] := rfl

theorem length_classEquations (n : Nat) (rs : List ConnectorRecord) :
    (classEquations n rs).length = rs.length := by
  cases rs with
  | nil => rfl
  | cons r rs => simp [classEquations_cons]

/-- The equations of a class say that it is balanced. -/
theorem classEquations_iff (n : Nat) (rs : List ConnectorRecord) :
    (∀ e ∈ classEquations n rs, e.equation.Holds ρ) ↔ Balanced ρ rs := by
  cases rs with
  | nil => exact iff_of_true (by simp [classEquations]) ⟨by simp, by simp⟩
  | cons r rs =>
    have hflow : (⟨.zero, balance (r :: rs)⟩ : Equation).Holds ρ ↔
        ((r :: rs).map fun r => (r.flowSign : ℝ) * ρ.symbol r.flow.symbol).sum = 0 := by
      rw [Equation.Holds, Expr.eval_zero, (denotes_balance True ρ (r :: rs)).eval, eq_comm]
    rw [classEquations_cons, List.forall_mem_append, List.forall_mem_map, List.forall_mem_singleton,
      hflow]
    constructor
    · rintro ⟨hpot, hflow⟩
      -- all potentials are that of the first record
      have hfirst : ∀ s ∈ r :: rs, ρ.symbol r.potential.symbol = ρ.symbol s.potential.symbol :=
        List.forall_mem_cons.mpr ⟨rfl, hpot⟩
      exact ⟨fun s hs u hu => (hfirst s hs).symm.trans (hfirst u hu), hflow⟩
    · rintro ⟨hpot, hflow⟩
      exact ⟨fun s hs => hpot r List.mem_cons_self s (List.mem_cons_of_mem r hs), hflow⟩

/-! ### Flows in the balances -/

/-- A sum over the flows in which only one of them counts. -/
theorem sum_flows {f : Symbol → ℝ} (hnodup : (rs.map fun r => r.flow.symbol).Nodup) (hr : r ∈ rs)
    (hzero : ∀ s ∈ rs, s.flow.symbol ≠ r.flow.symbol → f s.flow.symbol = 0) :
    (rs.map fun s => (s.flowSign : ℝ) * f s.flow.symbol).sum = r.flowSign * f r.flow.symbol := by
  classical
  have hrest : ∀ s, s ≠ r → s ∈ rs → (s.flowSign : ℝ) * f s.flow.symbol = 0 := by
    intro s hne hs
    rw [hzero s hs, mul_zero]
    exact fun heq => hne (List.inj_on_of_nodup_map hnodup hs hr heq)
  rw [List.sum_map_eq_nsmul_single r _ hrest, List.count_eq_one_of_mem hnodup.of_map hr, one_smul]

/-- The balance of a class contains the flows of the class, and no other symbol. -/
theorem mem_balance (hsign : ∀ r ∈ rs, r.flowSign ≠ 0)
    (hnodup : (rs.map fun r => r.flow.symbol).Nodup) (s : Symbol) :
    s ∈ (balance rs).symbolList ↔ ∃ r ∈ rs, r.flow.symbol = s := by
  constructor
  · exact within_balance rs s
  · rintro ⟨r, hr, rfl⟩
    by_contra hnot
    -- were the flow absent, the balance would have the same value with and without it
    have hsame : (balance rs).eval (.ofSymbols (Expr.only r.flow.symbol)) =
        (balance rs).eval (.ofSymbols fun _ => 0) := by
      refine Expr.eval_congr fun u hu => ?_
      rw [Valuation.symbol_ofSymbols, Valuation.symbol_ofSymbols, Expr.only, if_neg]
      rintro rfl
      exact hnot hu
    rw [(denotes_balance True _ rs).eval, (denotes_balance True _ rs).eval] at hsame
    simp only [Valuation.symbol_ofSymbols, mul_zero, List.sum_map_zero] at hsame
    rw [sum_flows (f := Expr.only r.flow.symbol) hnodup hr fun s _ hs => if_neg hs] at hsame
    simp [Expr.only, hsign r hr] at hsame

/-- The equation is a flow balance that contains the symbol. -/
def BalanceOf (s : Symbol) (e : Eqn) : Prop := e.kind = .flow ∧ e.equation.Contains s

instance (s : Symbol) : DecidablePred (BalanceOf s) := fun e => by
  unfold BalanceOf
  infer_instance

theorem countP_classEquations (hsign : ∀ r ∈ rs, r.flowSign ≠ 0)
    (hnodup : (rs.map fun r => r.flow.symbol).Nodup) (n : Nat) (s : Symbol) :
    (classEquations n rs).countP (BalanceOf s) = if ∃ r ∈ rs, r.flow.symbol = s then 1 else 0 := by
  cases rs with
  | nil => simp [classEquations]
  | cons r rs =>
    have hbalance : BalanceOf s ⟨⟨.zero, balance (r :: rs)⟩, .flow, .connectionClass n⟩ ↔
        ∃ u ∈ r :: rs, u.flow.symbol = s := by
      rw [← mem_balance hsign hnodup]
      simp [BalanceOf, Equation.Contains, Expr.zero, Expr.symbolList]
    rw [classEquations_cons, List.countP_append, List.countP_map, List.countP_eq_zero.mpr,
      List.countP_singleton]
    · simp only [hbalance, decide_eq_true_eq, zero_add]
    · simp [BalanceOf]

/-! ### All classes -/

theorem equations_eq (g : ConnectionGraph) : g.equations.1 =
    g.classes.1.zipIdx.flatMap fun p => classEquations p.2 (g.recordsOf p.1) := rfl

/-- The equations say that every class is balanced. -/
theorem equations_iff (g : ConnectionGraph) :
    (∀ e ∈ g.equations.1, e.equation.Holds ρ) ↔ ∀ is ∈ g.classes.1, Balanced ρ (g.recordsOf is) := by
  have hmem : ∀ is, is ∈ g.classes.1 ↔ ∃ p ∈ g.classes.1.zipIdx, p.1 = is := by
    intro is
    rw [← List.mem_map, List.zipIdx_map_fst]
  simp only [equations_eq, List.mem_flatMap, hmem]
  constructor
  · rintro h is ⟨p, hp, rfl⟩
    exact (classEquations_iff p.2 _).mp fun e he => h e ⟨p, hp, he⟩
  · rintro h e ⟨p, hp, he⟩
    exact (classEquations_iff p.2 _).mpr (h p.1 ⟨p, hp, rfl⟩) e he

/-- What is counted over the equations of all classes is counted class by class. -/
theorem sum_zipIdx (f : List Nat → Nat) (iss : List (List Nat)) :
    (iss.zipIdx.map fun p => f p.1).sum = (iss.map f).sum := by
  conv_rhs => rw [← List.zipIdx_map_fst 0 iss, List.map_map]
  rfl

theorem length_recordsOf (h : ∀ i ∈ is, i < g.size) : (g.recordsOf is).length = is.length := by
  induction is with
  | nil => rfl
  | cons i is ih =>
    obtain ⟨hi, his⟩ := List.forall_mem_cons.mp h
    rw [recordsOf, List.filterMap_cons, List.getElem?_eq_getElem hi, List.length_cons,
      List.length_cons]
    exact congrArg (· + 1) (ih his)

theorem mem_recordsOf : r ∈ g.recordsOf is ↔ ∃ i ∈ is, g.records[i]? = some r :=
  List.mem_filterMap

theorem Sound.lt_of_mem_class (h : Sound root rank g) (his : is ∈ g.classes.1) (hi : i ∈ is) :
    i < g.size := by
  rw [h.classes_eq] at his
  exact ((mem_class_iff his hi).mp hi).1

theorem Sound.length_equations (h : Sound root rank g) : g.equations.1.length = g.size := by
  have hlen : ∀ is ∈ g.classes.1, (g.recordsOf is).length = is.length := fun is his =>
    length_recordsOf fun i hi => h.lt_of_mem_class his hi
  rw [equations_eq, List.length_flatMap]
  simp only [length_classEquations]
  rw [sum_zipIdx (fun is => (g.recordsOf is).length), List.map_congr_left hlen,
    ← List.length_flatten, h.classes_eq, (Forest.flatten_partition_perm root g.size).length_eq,
    List.length_range]

theorem nodup_recordsOf (hflows : (g.records.map fun r => r.flow.symbol).Nodup)
    (his : is.Nodup) : ((g.recordsOf is).map fun r => r.flow.symbol).Nodup := by
  rw [recordsOf, List.map_filterMap]
  refine his.filterMap fun i j s hi hj => ?_
  rw [Option.mem_def, ← List.getElem?_map] at hi hj
  obtain ⟨hlt, -⟩ := List.getElem?_eq_some_iff.mp hi
  exact (List.getElem?_inj hlt hflows).mp (hi.trans hj.symm)

/-- Every flow is in the balance of its class, and in no other one. -/
theorem Sound.countP_equations (h : Sound root rank g) (hsign : ∀ r ∈ g.records, r.flowSign ≠ 0)
    (hflows : (g.records.map fun r => r.flow.symbol).Nodup) (hr : r ∈ g.records) :
    g.equations.1.countP (BalanceOf r.flow.symbol) = 1 := by
  obtain ⟨i, hi⟩ := List.mem_iff_getElem?.mp hr
  have hclass : ∀ is ∈ g.classes.1, ∀ n,
      (classEquations n (g.recordsOf is)).countP (BalanceOf r.flow.symbol) = is.count i := by
    intro is his n
    have hnodup : is.Nodup := by
      rw [h.classes_eq] at his
      exact (Forest.ascending_of_mem_partition his).imp Nat.ne_of_lt
    have hmem : (∃ s ∈ g.recordsOf is, s.flow.symbol = r.flow.symbol) ↔ i ∈ is := by
      constructor
      · rintro ⟨s, hs, hsr⟩
        obtain ⟨j, hj, hjs⟩ := mem_recordsOf.mp hs
        obtain rfl := List.inj_on_of_nodup_map hflows (List.mem_of_getElem? hjs) hr hsr
        obtain rfl := (List.getElem?_inj (lt_of_getElem? hi) hflows.of_map).mp (hi.trans hjs.symm)
        exact hj
      · exact fun hmem => ⟨r, mem_recordsOf.mpr ⟨i, hmem, hi⟩, rfl⟩
    have hsign' : ∀ s ∈ g.recordsOf is, s.flowSign ≠ 0 := fun s hs => by
      obtain ⟨j, -, hjs⟩ := mem_recordsOf.mp hs
      exact hsign s (List.mem_of_getElem? hjs)
    rw [countP_classEquations hsign' (nodup_recordsOf hflows hnodup)]
    simp only [hmem]
    split
    · next hi => exact (List.count_eq_one_of_mem hnodup hi).symm
    · next hi => exact (List.count_eq_zero_of_not_mem hi).symm
  have hcount : ∀ p ∈ g.classes.1.zipIdx,
      (classEquations p.2 (g.recordsOf p.1)).countP (BalanceOf r.flow.symbol) = p.1.count i := by
    intro p hp
    refine hclass p.1 ?_ p.2
    rw [← List.zipIdx_map_fst 0 g.classes.1]
    exact List.mem_map_of_mem hp
  rw [equations_eq, List.countP_flatMap]
  simp only [Function.comp_def]
  rw [List.map_congr_left hcount, sum_zipIdx (List.count i), ← List.count_flatten, h.classes_eq,
    (Forest.flatten_partition_perm root g.size).count_eq]
  exact List.count_eq_one_of_mem List.nodup_range (List.mem_range.mpr (lt_of_getElem? hi))

/-- After any calls: there is one equation for each connector, and each flow is in one balance. The
equations hold just when in every class the potentials agree and the flows, with their signs, add up
to zero; the flow of a connector that is a class of its own is then zero. -/
theorem equations_iff_balanced (calls : List Call)
    (hdistinct : ((History.after calls).graph.records.flatMap fun r =>
      [r.potential.symbol, r.flow.symbol]).Nodup) :
    let g := (History.after calls).graph
    let eqs := g.equations.1
    eqs.length = g.size ∧ (∀ r ∈ g.records, eqs.countP (BalanceOf r.flow.symbol) = 1) ∧
    ∀ ρ : Valuation ℝ,
      ((∀ e ∈ eqs, e.equation.Holds ρ) ↔ ∀ is ∈ g.classes.1, Balanced ρ (g.recordsOf is)) ∧
      ((∀ e ∈ eqs, e.equation.Holds ρ) → ∀ i r, [i] ∈ g.classes.1 → g.records[i]? = some r →
        ρ.symbol r.flow.symbol = 0) := by
  intro g eqs
  obtain ⟨root, rank, ht⟩ := exists_tracks calls
  have h : Sound root rank g := ht.sound
  have hsign : ∀ r ∈ g.records, r.flowSign ≠ 0 := fun r hr =>
    (ported_after calls).flowSign_ne_zero hr
  have hflows : (g.records.map fun r => r.flow.symbol).Nodup := by
    refine hdistinct.sublist ?_
    rw [List.map_eq_flatMap]
    exact List.Sublist.flatMap_right _ fun r _ => by simp
  refine ⟨h.length_equations, fun r hr => h.countP_equations hsign hflows hr,
    fun ρ => ⟨equations_iff g, fun heqs i r hi hr => ?_⟩⟩
  have hflow := ((equations_iff g).mp heqs [i] hi).flow
  have hone : g.recordsOf [i] = [r] := by simp [recordsOf, hr]
  rw [hone, List.map_singleton, List.sum_singleton, mul_eq_zero, Int.cast_eq_zero] at hflow
  exact hflow.resolve_left (hsign r (List.mem_of_getElem? hr))

/-- A shaft on one flange of a gear whose other flange is free: the two that are joined share their
angle and balance their torques, and the torque of the free one is zero. -/
theorem equations_iff_balanced_gear :
    let calls := [Call.connect [⟨shaft, "flange_a"⟩, ⟨gear, "flange_a"⟩],
      Call.addConnector gear "flange_b"]
    let g := (History.after calls).graph
    (g.records.flatMap fun r => [r.potential.symbol, r.flow.symbol]).Nodup ∧
      g.equations.1.length = 3 ∧
      ∀ ρ : Valuation ℝ, (∀ e ∈ g.equations.1, e.equation.Holds ρ) →
        ρ.var ⟨"shaft_flange_a_phi", 0⟩ = ρ.var ⟨"gear_flange_a_phi", 0⟩ ∧
        ρ.var ⟨"shaft_flange_a_tau", 0⟩ + ρ.var ⟨"gear_flange_a_tau", 0⟩ = 0 ∧
        ρ.var ⟨"gear_flange_b_tau", 0⟩ = 0 := by
  intro calls g
  have hdistinct : (g.records.flatMap fun r => [r.potential.symbol, r.flow.symbol]).Nodup := by
    decide
  obtain ⟨hlen, -, hrho⟩ := equations_iff_balanced calls hdistinct
  refine ⟨hdistinct, hlen, fun ρ heqs => ?_⟩
  have hpair := (hrho ρ).1.mp heqs [0, 1] (by decide)
  have hfree := (hrho ρ).2 heqs 2 (gear.record (flangeOf "gear" "flange_b")) (by decide) rfl
  have hflow := hpair.flow
  refine ⟨hpair.potential (shaft.record (flangeOf "shaft" "flange_a")) ?_
    (gear.record (flangeOf "gear" "flange_a")) ?_, ?_, hfree⟩
  · exact mem_recordsOf.mpr ⟨0, by decide, rfl⟩
  · exact mem_recordsOf.mpr ⟨1, by decide, rfl⟩
  · have hrecords : g.recordsOf [0, 1] = [shaft.record (flangeOf "shaft" "flange_a"),
        gear.record (flangeOf "gear" "flange_a")] := rfl
    rw [hrecords] at hflow
    simpa [Component.record, Port.flowSign, flangeOf, Valuation.symbol] using hflow

end ConnectionGraph

end Flange

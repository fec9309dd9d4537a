import Mathlib.Data.List.Dedup
import Flange.Proofs.Graph.Rank
import Flange.Proofs.Initial.Point
import Flange.Proofs.Reduction.Alias
import Flange.Proofs.Reduction.Refusal

/-! # Filling up the equations

What is accepted lets one unknown more be matched each time, and what is passed over would not help
later either. Since every unknown is tried on its own in the end, all of them can be matched, however
many of the imposed equations are redundant. The search for initial conditions is then refused as
structurally singular exactly when one unknown is listed twice.
-/

namespace Flange

namespace Initialization

open Matching

/-! ### One pass -/

section Pass

variable {r : ReducedSystem} {es cs acc : List Expr} {e c : Expr} {u : Var}

theorem unknownsIn_subset : (r.unknownsIn e).toFinset ⊆ r.unknowns.toFinset := by
  intro v hv
  rw [List.mem_toFinset] at hv ⊢
  exact (AliasContext.mem_unknownsIn.mp hv).2

theorem unknownsIn_var (hu : u ∈ r.unknowns) (horder : u.order = 0) :
    r.unknownsIn (.var u) = [u] := by
  have hfunctions : (Expr.var u).functions = [u] := by
    simp [Expr.functions, Expr.vars, Expr.symbols, Expr.var, Expr.symbolList, Symbol.var?,
      Var.base_of_order horder, List.eraseDups_cons]
  rw [ReducedSystem.unknownsIn, EquationSystem.unknownsIn, hfunctions,
    List.filter_cons_of_pos (by simpa using hu)]
  rfl

theorem size_matching_le : (matching r es).size ≤ r.unknowns.toFinset.card := by
  refine size_maximum_le_card fun row hrow => ?_
  obtain ⟨e, -, rfl⟩ := List.mem_map.mp hrow
  exact unknownsIn_subset

/-- The unknowns of `e` can be matched, all of them, to as many of the equations `es`. -/
def Spans (r : ReducedSystem) (es : List Expr) (e : Expr) : Prop :=
  Spanned (es.map r.unknownsIn) (r.unknownsIn e)

theorem size_matching_append_le_iff :
    (matching r (es ++ [e])).size ≤ (matching r es).size ↔ Spans r es e := by
  rw [matching, List.map_append]
  exact size_maximum_append_le_iff

theorem size_matching_append_le (r : ReducedSystem) (es : List Expr) (e : Expr) :
    (matching r (es ++ [e])).size ≤ (matching r es).size + 1 := by
  rw [matching, List.map_append]
  exact size_maximum_append_le _ _

theorem Spans.append (h : Spans r es e) (more : List Expr) : Spans r (es ++ more) e := by
  rw [Spans, List.map_append]
  exact Spanned.append h _

/-- What one pass over the candidates `cs` makes of the equations `es`. -/
structure Filled (r : ReducedSystem) (es cs acc : List Expr) : Prop where
  sublist : acc.Sublist cs
  size : acc.length + (matching r es).size = (matching r (es ++ acc)).size
  passed : ∀ c ∈ cs, c ∈ acc ∨ Spans r (es ++ acc) c

/-- Once there are as many matched as unknowns, no candidate helps. -/
theorem filled_nil (h : (matching r es).size = r.unknowns.length) : Filled r es cs [] where
  sublist := List.nil_sublist cs
  size := by simp
  passed := fun c _ => by
    refine Or.inr (size_matching_append_le_iff.mp ?_)
    rw [List.append_nil, h]
    exact size_matching_le.trans (List.toFinset_card_le _)

theorem Filled.accept (h : Filled r (es ++ [c]) cs acc)
    (hgrows : (matching r es).size < (matching r (es ++ [c])).size) :
    Filled r es (c :: cs) (c :: acc) where
  sublist := h.sublist.cons_cons c
  size := by
    have hone := size_matching_append_le r es c
    have hsize := h.size
    rw [List.append_assoc, List.singleton_append] at hsize
    rw [List.length_cons]
    omega
  passed := by
    intro e he
    rcases List.mem_cons.mp he with rfl | he
    · exact Or.inl List.mem_cons_self
    · refine (h.passed e he).imp (List.mem_cons_of_mem c) fun hspans => ?_
      rwa [List.append_assoc, List.singleton_append] at hspans

theorem Filled.pass (h : Filled r es cs acc)
    (hsame : (matching r (es ++ [c])).size ≤ (matching r es).size) :
    Filled r es (c :: cs) acc where
  sublist := h.sublist.cons c
  size := h.size
  passed := by
    intro e he
    rcases List.mem_cons.mp he with rfl | he
    · exact Or.inr ((size_matching_append_le_iff.mp hsame).append acc)
    · exact h.passed e he

theorem fill_filled (r : ReducedSystem) : ∀ cs es : List Expr,
    ∃ acc, fill r cs es = es ++ acc ∧ Filled r es cs acc
  | [], es => ⟨[], by simp [fill], List.Sublist.refl [], by simp, by simp⟩
  | c :: cs, es => by
    rw [fill]
    split
    · next hall => exact ⟨[], by simp, filled_nil hall⟩
    · split
      · next hgrows =>
        obtain ⟨acc, hfill, hacc⟩ := fill_filled r cs (es ++ [c])
        exact ⟨c :: acc, by simp [hfill], hacc.accept hgrows⟩
      · next hsame =>
        obtain ⟨acc, hfill, hacc⟩ := fill_filled r cs es
        exact ⟨acc, hfill, hacc.pass (Nat.le_of_not_lt hsame)⟩

/-- Every unknown that is a candidate on its own can be matched. -/
theorem Filled.spans_var (h : Filled r es cs acc) (hu : u ∈ r.unknowns) (horder : u.order = 0)
    (hcs : .var u ∈ cs) : Spans r (es ++ acc) (.var u) := by
  -- either it was accepted as an equation of its own, or it was spanned when its turn came
  rcases h.passed _ hcs with hacc | hspans
  · rw [Spans, unknownsIn_var hu horder]
    refine spanned_singleton (List.mem_map.mpr ⟨.var u, List.mem_append_right es hacc, ?_⟩)
    exact unknownsIn_var hu horder
  · exact hspans

/-- Every maximum matching of the equations gives each unknown to one of them. -/
def Covers (r : ReducedSystem) (es : List Expr) : Prop :=
  ∀ m : Matching Var, m.Valid (es.map r.unknownsIn) → (matching r es).size ≤ m.size →
    ∀ u ∈ r.unknowns, ∃ i, m.matched? i = some u

theorem covers_of_spans (horder : ∀ u ∈ r.unknowns, u.order = 0)
    (h : ∀ u ∈ r.unknowns, Spans r es (.var u)) : Covers r es := by
  intro m hm hsize u hu
  obtain ⟨s, hs, hsub⟩ := h u hu
  rw [unknownsIn_var hu (horder u hu)] at hsub
  exact hs.matched hm hsize (hsub (by simp))

theorem Covers.size (h : Covers r es) : (matching r es).size = r.unknowns.toFinset.card := by
  refine Nat.le_antisymm size_matching_le ?_
  have hm := valid_maximum (es.map r.unknownsIn)
  refine card_le_size_of_matched hm fun u hu => ?_
  exact h _ hm (Nat.le_refl _) u (List.mem_toFinset.mp hu)

theorem covers_fill (horder : ∀ u ∈ r.unknowns, u.order = 0)
    (hcs : ∀ u ∈ r.unknowns, .var u ∈ cs) (h : Filled r es cs acc) : Covers r (es ++ acc) :=
  covers_of_spans horder fun u hu => h.spans_var hu (horder u hu) (hcs u hu)

end Pass

/-! ### The refusal -/

section Refusal

variable {α : Type} [Scalar α] {r : ReducedSystem} {s : Solver α} {o : InitialOptions}
  {given : List Request} {known : Replacement} {t : Rat} {inputs us : InputFunctions}
  {es strong cs acc : List Expr} {e : ModelError} {u : Var}

theorem var_mem_candidates (hcs : candidates r known given = .ok cs) (hu : u ∈ r.unknowns) :
    .var u ∈ cs := by
  unfold candidates at hcs
  rcases hweak : (weakRequests r given).mapM (express r known) with e | es
  · simp [hweak, bind, Except.bind] at hcs
  · rw [hweak] at hcs
    obtain rfl := Except.ok.inj hcs
    exact List.mem_append_right _ (List.mem_map_of_mem hu)

/-- Refused because the unknowns cannot all be matched. -/
def Singular (r : Run (InitialConditions α)) : Prop :=
  ∃ e, r.outcome = .error (.model e) ∧ e.cause = .initial .structurallySingular

/-- Neither the numerical search nor the check of the point it finds gives that cause. -/
theorem cause_of_solve (h : solve r s o es given = .error (.model e)) :
    e.cause ≠ .initial .structurallySingular := by
  simp only [solve] at h
  split_ifs at h
  · cases h
  · split at h
    · cases h
    · split at h
      · next f hf =>
        obtain rfl := Failure.model.inj (Except.error.inj h)
        simp only [fault?] at hf
        split_ifs at hf
        all_goals
          obtain rfl := Option.some.inj hf
          simp
      · cases h

theorem not_model_of_observed {x : Vec α} :
    r.observed.mapM (observedValue r known x) ≠ .error (.model e) := by
  intro h
  obtain ⟨p, -, hp⟩ := exists_of_mapM_error h
  simp only [observedValue] at hp
  split at hp
  · split at hp <;> cases hp
  · cases hp

theorem outcome_lift_eq {β : Type} (y : Except Failure β) : (lift y).outcome = y := by
  cases y <;> rfl

/-- Once the equations can be expressed, only the number of matched unknowns decides. -/
theorem singular_iff_lt (hus : r.inputFunctions inputs = .ok us)
    (hstrong : (strongEquations r (r.knownAt t us) α o given).outcome = .ok strong)
    (hcs : candidates r (r.knownAt t us) given = .ok cs) :
    Singular (r.initialConditions s o given t inputs) ↔
      (matching r (fill r cs strong)).size < r.unknowns.length := by
  simp only [Singular, ReducedSystem.initialConditions, Run.bind_error, outcome_lift_eq, hus,
    hstrong, hcs, reduceCtorEq, false_or, Except.ok.injEq, exists_eq_left']
  split
  · next hlt => exact iff_of_true ⟨_, rfl, rfl⟩ hlt
  · next hge =>
    refine iff_of_false ?_ hge
    rintro ⟨e, he, hcause⟩
    simp only [Run.bind_error, outcome_lift_eq, Run.outcome_line, Run.outcome_pure] at he
    rcases he with hsolve | ⟨x, -, hobserved | ⟨ps, -, hend⟩⟩
    · exact cause_of_solve hsolve hcause
    · exact not_model_of_observed hobserved
    · simp at hend

/-- As many unknowns are different as there are just when none is listed twice. -/
theorem card_unknowns_lt_iff :
    r.unknowns.toFinset.card < r.unknowns.length ↔ ¬ r.unknowns.Nodup := by
  rw [Nat.lt_iff_le_and_ne, and_iff_right (List.toFinset_card_le _)]
  exact not_congr (Multiset.toFinset_card_eq_card_iff_nodup (m := (r.unknowns : Multiset Var)))

/-- For every reduced system and all requests that can be expressed, the search ends with equations
that contain the imposed ones and give each unknown an equation, in every maximum matching. As many
candidates are accepted as unknowns are left over by the imposed equations, and no equation could let
more be matched. Only a variable that is listed twice makes the system structurally singular. -/
theorem filled_of_expressed (horder : ∀ u ∈ r.unknowns, u.order = 0)
    (hus : r.inputFunctions inputs = .ok us)
    (hstrong : (strongEquations r (r.knownAt t us) α o given).outcome = .ok strong)
    (hcs : candidates r (r.knownAt t us) given = .ok cs) :
    (∃ accepted, accepted.Sublist cs ∧ fill r cs strong = strong ++ accepted ∧
      Covers r (strong ++ accepted) ∧
      accepted.length + (matching r strong).size = r.unknowns.toFinset.card ∧
      ∀ e, (matching r (strong ++ accepted ++ [e])).size ≤
        (matching r (strong ++ accepted)).size) ∧
    (Singular (r.initialConditions s o given t inputs) ↔ ¬ r.unknowns.Nodup) := by
  obtain ⟨acc, hfill, hacc⟩ := fill_filled r cs strong
  have hcovers := covers_fill horder (fun u hu => var_mem_candidates hcs hu) hacc
  have hsize := hcovers.size
  refine ⟨⟨acc, hacc.sublist, hfill, hcovers, hacc.size.trans hsize, fun e => ?_⟩, ?_⟩
  · rw [hsize]
    exact size_matching_le
  · rw [singular_iff_lt hus hstrong hcs, hfill, hsize, card_unknowns_lt_iff]

end Refusal

end Initialization

/-! ### A state and its twin -/

namespace ReducedSystem.Twin

open Initialization

def x : Var := ⟨"x", 0⟩

def y : Var := ⟨"y", 0⟩

/-- A state with a weak value, and an algebraic variable that equals it. -/
def system : ReducedSystem where
  states := [x]
  rates := [.var y]
  algebraic := [y]
  constraints := [.var x - .var y]
  weak := [(x, 1)]

/-- A solver that finds nothing. -/
noncomputable def solver : Solver ℝ := ⟨fun _ _ => none, fun _ => 0⟩

/-- The constraint leaves one unknown open, and the weak value of the state is accepted for it. -/
theorem filled_of_expressed_twin :
    ((∀ u ∈ system.unknowns, u.order = 0) ∧ system.inputFunctions [] = .ok [] ∧
      (strongEquations system (system.knownAt 0 []) ℝ {} []).outcome = .ok [.var x - .var y] ∧
      candidates system (system.knownAt 0 []) [] = .ok [.var x - .num 1, .var x, .var y]) ∧
    fill system [.var x - .num 1, .var x, .var y] [.var x - .var y] =
      [.var x - .var y, .var x - .num 1] ∧
    (matching system [.var x - .var y]).size = 1 ∧
    Covers system [.var x - .var y, .var x - .num 1] ∧
    ¬ Singular (system.initialConditions solver {} [] 0 []) := by
  have horder : ∀ u ∈ system.unknowns, u.order = 0 := by decide
  have hstrong : (strongEquations system (system.knownAt 0 []) ℝ {} []).outcome =
      .ok [.var x - .var y] := ok_of_toOption (by decide +kernel)
  have hcandidates : candidates system (system.knownAt 0 []) [] =
      .ok [.var x - .num 1, .var x, .var y] := ok_of_toOption (by decide +kernel)
  have hfilled : fill system [.var x - .num 1, .var x, .var y] [.var x - .var y] =
      [.var x - .var y] ++ [.var x - .num 1] := by decide +kernel
  obtain ⟨⟨acc, -, hfill, hcovers, hcount, -⟩, hsingular⟩ :=
    filled_of_expressed (s := solver) (t := 0) horder rfl hstrong hcandidates
  obtain rfl : acc = [.var x - .num 1] := List.append_cancel_left (hfill.symm.trans hfilled)
  refine ⟨⟨horder, rfl, hstrong, hcandidates⟩, hfilled, ?_, hcovers, ?_⟩
  · have hcard : system.unknowns.toFinset.card = 2 := by decide
    rw [hcard, List.length_singleton] at hcount
    omega
  · rw [hsingular]
    decide

end ReducedSystem.Twin

end Flange

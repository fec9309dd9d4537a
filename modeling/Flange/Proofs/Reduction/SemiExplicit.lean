import Flange.Proofs.Expr.Linear
import Flange.Proofs.Graph.Blocks
import Flange.Proofs.Graph.Matching
import Flange.Proofs.Observed
import Flange.Proofs.Reduction.Structure
import Flange.Reduction.SemiExplicit

/-! # Semi-explicit form

Every variable that is neither a state nor known is solved for or kept, and what is solved for is
given by states, known functions and what is kept.
-/

namespace Flange

namespace SemiExplicit

variable {s : Structure} {es : List Expr} {vs : List Var} {known : List Var} {v w : Var} {i : Nat}

/-! ### Blocks -/

/-- The equations are linear in the variables, and these are their solutions. -/
inductive Solves (solveBlocks : Bool) : List Expr → List Var → List Expr → Prop
  | single {e sol : Expr} {v : Var} : e.solveLinear? (.var v) = some sol →
      Solves solveBlocks [e] [v] [sol]
  | joint {es sols : List Expr} {vs : List Var} : solveBlocks = true →
      (∀ e v, es = [e] → vs ≠ [v]) → Expr.jointlyLinear es (vs.map .var) = true →
      Expr.solveBlock? es (vs.map .var) = some sols → Solves solveBlocks es vs sols

theorem Solves.within {sols : List Expr} {P : Symbol → Prop} {solveBlocks : Bool}
    (h : Solves solveBlocks es vs sols)
    (hes : ∀ e ∈ es, e.Within fun u => P u ∨ Expr.MentionsAny vs u) :
    sols.length = vs.length ∧ ∀ sol ∈ sols, sol.Within P := by
  cases h with
  | single h => exact ⟨rfl, by simpa using Expr.within_solveLinear h (hes _ (by simp))⟩
  | joint _ _ hlin h => exact Expr.solveBlock_within h hlin hes

namespace Progress

variable {p : Progress} {solveBlocks : Bool}

/-- A block is solved for its variables, or both are kept. -/
theorem addBlock_cases (p : Progress) (solveBlocks : Bool) (es : List Expr) (vs : List Var) :
    (∃ sols, Solves solveBlocks (es.map (Expr.substitute p.replacement)) vs sols ∧
      p.addBlock solveBlocks es vs = p.solve vs sols) ∨
    p.addBlock solveBlocks es vs = p.keep vs (es.map (Expr.substitute p.replacement)) := by
  unfold addBlock
  dsimp only
  split
  · next e v heq =>
    split
    · next sol hsol => exact Or.inl ⟨[sol], heq ▸ .single hsol, rfl⟩
    · exact Or.inr (by rw [heq])
  · next hsingle =>
    split
    · next hlin =>
      obtain ⟨hflag, hlin⟩ := Bool.and_eq_true_iff.mp hlin
      split
      · next sols hsols => exact Or.inl ⟨sols, .joint hflag hsingle hlin hsols, rfl⟩
      · exact Or.inr rfl
    · exact Or.inr rfl

theorem lookup_replacement {e : Expr} {t : Symbol} (h : p.replacement.lookup t = some e) :
    ∃ v, t = .var v ∧ (v, e) ∈ p.solved := by
  obtain ⟨q, hq, heq⟩ := List.mem_map.mp (mem_of_lookup h)
  obtain ⟨rfl, rfl⟩ := Prod.mk.inj heq
  exact ⟨q.1, rfl, hq⟩

theorem lookup_replacement_none (h : p.replacement.lookup (.var v) = none) :
    v ∉ p.solved.map Prod.fst := by
  rintro hv
  obtain ⟨q, hq, rfl⟩ := List.mem_map.mp hv
  obtain ⟨e, he⟩ := exists_lookup (List.mem_map_of_mem (f := fun q => (Symbol.var q.1, q.2)) hq)
  exact absurd (h.symm.trans he) (by simp)

end Progress

/-! ### Matching -/

theorem mem_candidates : v ∈ (candidates (.ofExprs known es)).getD i [] ↔
    ∃ e, es[i]? = some e ∧ (v ∈ e.unknownDerivatives known ∨ v ∈ e.unknownFunctions known) ∧
      v ∉ (Structure.ofExprs known es).states := by
  have hadj : candidates (.ofExprs known es) = es.map fun e =>
      (sortVars (e.unknownDerivatives known ++ e.unknownFunctions known)).filter fun v =>
        !(Structure.ofExprs known es).states.contains v := by
    simp [candidates, Structure.ofExprs, Function.comp_def]
  rw [hadj, List.getD_eq_getElem?_getD, List.getElem?_map]
  cases es[i]? with
  | none => simp
  | some e => simp

theorem length_candidates (known : List Var) (es : List Expr) :
    (candidates (.ofExprs known es)).length = es.length := by
  simp [candidates, Structure.ofExprs]

/-- Derivatives and algebraic variables, for which the equations are solved. -/
def targets (s : Structure) : List Var := s.derivatives ++ s.algebraic

theorem mem_targets_of_candidate (hv : v ∈ (candidates (.ofExprs known es)).getD i []) :
    v ∈ targets (.ofExprs known es) := by
  obtain ⟨e, he, hv, hs⟩ := mem_candidates.mp hv
  have he := List.mem_of_getElem? he
  refine List.mem_append.mpr (hv.imp (fun hv => ?_) fun hv => ?_)
  · exact Structure.mem_derivatives_ofExprs.mpr ⟨e, he, hv⟩
  · exact Structure.mem_algebraic_ofExprs.mpr ⟨⟨e, he, hv⟩, hs⟩

theorem matching_valid {adj : Adjacency Var} (hlen : es.length = adj.length) :
    (matching es adj).Valid adj := by
  unfold matching
  dsimp only
  split
  · exact Matching.valid_maximum adj
  · have h := Matching.valid_maximum (linearCandidates es adj)
    refine ⟨?_, h.equation_iff, fun {i v} hi => ?_⟩
    · rw [h.size, linearCandidates, List.length_zipWith, hlen, Nat.min_self]
    · have hv := h.adjacent hi
      rw [linearCandidates, List.getD_eq_getElem?_getD, List.getElem?_zipWith] at hv
      rw [List.getD_eq_getElem?_getD]
      cases hes : es[i]? <;> cases hadj : adj[i]? <;> simp_all

/-- The matching gives each equation a target of its own, and leaves no target out. -/
structure Paired (known : List Var) (es : List Expr) (m : Matching Var) : Prop where
  valid : m.Valid (candidates (.ofExprs known es))
  total : ∀ i < es.length, ∃ v, m.matched? i = some v
  onto : ∀ v ∈ targets (.ofExprs known es), ∃ i, m.matched? i = some v

theorem paired {m : Matching Var} (hm : m.Valid (candidates (.ofExprs known es)))
    (hsize : ¬ m.size < es.length) (hcount : (targets (.ofExprs known es)).length = es.length) :
    Paired known es m := by
  have hall : ∀ i < es.length, ∃ v, m.matched? i = some v := fun i hi =>
    hm.exists_matched (by rw [length_candidates]; omega) (by rwa [length_candidates])
  refine ⟨hm, hall, fun v hv => ?_⟩
  choose! f hf using hall
  obtain ⟨i, hi, rfl⟩ := exists_eq_of_injOn hcount.le
    (fun i hi => mem_targets_of_candidate (hm.adjacent (hf i hi)))
    (fun i hi j hj heq => hm.eq_of_matched (hf i hi) (heq ▸ hf j hj)) hv
  exact ⟨i, hf i hi⟩

/-! ### Order of the blocks -/

theorem edge_dependencies {adj : Adjacency Var} {m : Matching Var} {i k : Nat} :
    (dependencies adj m).Edge i k ↔
      ∃ v, m.matched? i = some v ∧ k < adj.length ∧ k ≠ i ∧ v ∈ adj.getD k [] := by
  simp only [Digraph.Edge, dependencies, List.mem_flatMap]
  constructor
  · rintro ⟨⟨j, v⟩, hp, hk⟩
    obtain ⟨l, hl, heq⟩ := List.mem_map.mp hk
    obtain ⟨rfl, rfl⟩ := Prod.mk.inj heq
    simp only [List.mem_filter, List.mem_range, Bool.and_eq_true, bne_iff_ne,
      List.contains_eq_mem, decide_eq_true_eq] at hl
    exact ⟨v, Matching.mem_pairs.mp hp, hl.1, hl.2.1, hl.2.2⟩
  · rintro ⟨v, hv, hk, hne, hmem⟩
    refine ⟨(i, v), Matching.mem_pairs.mpr hv, List.mem_map.mpr ⟨k, ?_, rfl⟩⟩
    simpa using ⟨hk, hne, hmem⟩

theorem closed_dependencies {adj : Adjacency Var} {m : Matching Var} (hm : m.Valid adj) :
    (dependencies adj m).Closed := by
  intro i k h
  obtain ⟨v, hv, hk, -⟩ := edge_dependencies.mp h
  exact ⟨List.mem_range.mpr (hm.lt hv), List.mem_range.mpr hk⟩

/-- A state, known, or kept. -/
def Kept (known : List Var) (es : List Expr) (retained : List Var) (v : Var) : Prop :=
  v ∈ (Structure.ofExprs known es).states ∨ v.base ∈ known ∨ v ∈ retained

/-- The blocks with the equations `done` have been worked on. -/
structure Reached (known : List Var) (es : List Expr) (m : Matching Var) (done : List Nat)
    (p : Progress) : Prop where
  covers : ∀ {v}, v ∈ p.solved.map Prod.fst ∨ v ∈ p.retained ↔ ∃ i ∈ done, m.matched? i = some v
  within : ∀ q ∈ p.solved, q.2.Within (Symbol.Only (Kept known es p.retained))
  constraints : ∀ g ∈ p.constraints, g.Within (Symbol.Only (Kept known es p.retained))
  balanced : p.constraints.length = p.retained.length

theorem Kept.mono {vs ws : List Var} (h : vs ⊆ ws) (hv : Kept known es vs v) :
    Kept known es ws v :=
  Or.imp_right (Or.imp_right (h ·)) hv

/-- What an equation is about. -/
theorem var_of_equation (hk : ∀ v ∈ known, v.order = 0) {e : Expr} (he : es[i]? = some e)
    (hv : v ∈ e.vars) :
    v ∈ (Structure.ofExprs known es).states ∨ v.base ∈ known ∨
      v ∈ (candidates (.ofExprs known es)).getD i [] := by
  by_cases hs : v ∈ (Structure.ofExprs known es).states
  · exact Or.inl hs
  by_cases hkn : v.base ∈ known
  · exact Or.inr (Or.inl hkn)
  refine Or.inr (Or.inr (mem_candidates.mpr ⟨e, he, ?_, hs⟩))
  by_cases ho : v.order = 0
  · rw [Var.base_of_order ho] at hkn
    exact Or.inr (Structure.mem_unknownFunctions.mpr ⟨hv, ho, hkn⟩)
  · exact Or.inl (Structure.mem_unknownDerivatives.mpr ⟨hv, ho, fun h => ho (hk v h), hkn⟩)

/-- A derivative in an equation is one of a state or of a known function. -/
theorem base_of_equation (hk : ∀ v ∈ known, v.order = 0) {e : Expr} (he : es[i]? = some e)
    (hv : v ∈ e.vars) (ho : v.order ≠ 0) :
    v.base ∈ (Structure.ofExprs known es).states ∨ v.base ∈ known := by
  refine or_iff_not_imp_right.mpr fun hkn => Structure.mem_states_ofExprs.mpr ⟨v, ?_, rfl⟩
  exact Structure.mem_derivatives_ofExprs.mpr ⟨e, List.mem_of_getElem? he,
    Structure.mem_unknownDerivatives.mpr ⟨hv, ho, fun h => ho (hk v h), hkn⟩⟩

section Step

variable {m : Matching Var} {done block : List Nat} {p : Progress} {solveBlocks : Bool}

/-- A function that is matched is neither a state nor known. -/
theorem unsettled_of_matched (hm : m.Valid (candidates (.ofExprs known es)))
    (hv : m.matched? i = some v) :
    v ∉ (Structure.ofExprs known es).states ∧ (v.order = 0 → v ∉ known) := by
  obtain ⟨e, -, hcand, hs⟩ := mem_candidates.mp (hm.adjacent hv)
  refine ⟨hs, fun ho => ?_⟩
  rcases hcand with hd | hf
  · exact absurd ho (Structure.mem_unknownDerivatives.mp hd).2.1
  · exact (Structure.mem_unknownFunctions.mp hf).2.2

/-- The equations of a block are, after substitution, about what is kept and the variables of the
block, when no later block comes into it. -/
theorem Reached.substituted (h : Reached known es m done p) (hk : ∀ v ∈ known, v.order = 0)
    (hm : m.Valid (candidates (.ofExprs known es)))
    (hblock : ∀ i ∈ block, ∀ v ∈ (candidates (.ofExprs known es)).getD i [],
      ∃ j ∈ done ++ block, m.matched? j = some v) {i : Nat} (hi : i ∈ block) {e : Expr}
    (he : es[i]? = some e) :
    (e.substitute p.replacement).Within fun u => Symbol.Only (Kept known es p.retained) u ∨
      ∃ v ∈ block.filterMap m.matched?, u = .var v := by
  refine Expr.within_substitute fun t ht => ?_
  change (Expr.replaceSymbol p.replacement t).Within _
  rcases Expr.replaceSymbol_cases p.replacement t with
    ⟨f, hf, heq⟩ | ⟨v, f, rfl, ho, -, hf, -⟩ | ⟨hnone, -, heq⟩
  · obtain ⟨v, -, hv⟩ := Progress.lookup_replacement hf
    exact heq ▸ (h.within _ hv).mono fun _ => Or.inl
  · -- what is solved for is neither known nor a state, so no derivative of it occurs
    obtain ⟨u, hu, hmem⟩ := Progress.lookup_replacement hf
    obtain rfl := Symbol.var.inj hu
    obtain ⟨j, -, hj⟩ := h.covers.mp (Or.inl (List.mem_map_of_mem hmem))
    obtain ⟨hs, hkn⟩ := unsettled_of_matched hm hj
    rcases base_of_equation hk he (Expr.mem_vars.mpr ht) ho with hst | hkn'
    · exact absurd hst hs
    · exact absurd hkn' (hkn rfl)
  · rw [heq]
    refine Expr.within_sym.mpr ?_
    cases t with
    | var v =>
      rcases var_of_equation hk he (Expr.mem_vars.mpr ht) with hst | hkn | hc
      · exact Or.inl (Or.inl hst)
      · exact Or.inl (Or.inr (Or.inl hkn))
      · obtain ⟨j, hj, hjv⟩ := hblock i hi v hc
        rcases List.mem_append.mp hj with hj | hj
        · refine Or.inl (Or.inr (Or.inr ?_))
          exact (h.covers.mpr ⟨j, hj, hjv⟩).resolve_left (Progress.lookup_replacement_none hnone)
        · exact Or.inr ⟨v, List.mem_filterMap.mpr ⟨j, hj, hjv⟩, rfl⟩
    | _ => exact Or.inl trivial

/-- A block has as many variables as equations. -/
theorem Paired.length_block (hp : Paired known es m) (hlt : ∀ i ∈ block, i < es.length) :
    (block.filterMap fun i => es[i]?).length = (block.filterMap m.matched?).length := by
  have hes : ∀ i ∈ block, (es[i]?).isSome := fun i hi => by simpa using hlt i hi
  have hvs : ∀ i ∈ block, (m.matched? i).isSome := fun i hi =>
    Option.isSome_iff_exists.mpr (hp.total i (hlt i hi))
  rw [List.length_filterMap_eq_countP, List.length_filterMap_eq_countP,
    List.countP_eq_length.mpr hes, List.countP_eq_length.mpr hvs]

theorem Reached.addBlock (h : Reached known es m done p) (hk : ∀ v ∈ known, v.order = 0)
    (hp : Paired known es m) (hlt : ∀ i ∈ block, i < es.length)
    (hblock : ∀ i ∈ block, ∀ v ∈ (candidates (.ofExprs known es)).getD i [],
      ∃ j ∈ done ++ block, m.matched? j = some v) :
    Reached known es m (done ++ block)
      (p.addBlock solveBlocks (block.filterMap fun i => es[i]?) (block.filterMap m.matched?)) := by
  have hcovers : ∀ {v}, ((v ∈ p.solved.map Prod.fst ∨ v ∈ p.retained) ∨
      v ∈ block.filterMap m.matched?) ↔ ∃ i ∈ done ++ block, m.matched? i = some v := by
    intro v
    rw [h.covers, List.mem_filterMap]
    simp only [List.mem_append, or_and_right, exists_or]
  have hsub : ∀ e ∈ (block.filterMap fun i => es[i]?).map (Expr.substitute p.replacement),
      e.Within fun u => Symbol.Only (Kept known es p.retained) u ∨
        ∃ v ∈ block.filterMap m.matched?, u = .var v := by
    intro e he
    obtain ⟨f, hf, rfl⟩ := List.mem_map.mp he
    obtain ⟨i, hi, hf⟩ := List.mem_filterMap.mp hf
    exact h.substituted hk hp.valid hblock hi hf
  rcases Progress.addBlock_cases p solveBlocks (block.filterMap fun i => es[i]?)
    (block.filterMap m.matched?) with ⟨sols, hsols, heq⟩ | heq
  · obtain ⟨hlen, hwithin⟩ := hsols.within (P := Symbol.Only (Kept known es p.retained))
      fun e he => (hsub e he).mono fun u hu =>
        hu.imp_right fun ⟨v, hv, huv⟩ => ⟨v, hv, Or.inl huv⟩
    rw [heq]
    refine ⟨fun {v} => ?_, fun q hq => ?_, h.constraints, h.balanced⟩
    · rw [← hcovers]
      simp only [Progress.solve, List.map_append, List.mem_append, List.map_fst_zip hlen.ge]
      tauto
    · rcases List.mem_append.mp hq with hq | hq
      · exact h.within q hq
      · exact hwithin _ (List.of_mem_zip hq).2
  · have hmono : ∀ u, Symbol.Only (Kept known es p.retained) u →
        Symbol.Only (Kept known es (p.retained ++ block.filterMap m.matched?)) u := fun u hu =>
      hu.imp fun _ => Kept.mono (List.subset_append_left _ _)
    rw [heq]
    refine ⟨fun {v} => ?_, fun q hq => (h.within q hq).mono hmono, fun g hg => ?_, ?_⟩
    · rw [← hcovers]
      simp only [Progress.keep, List.mem_append]
      tauto
    · rcases List.mem_append.mp hg with hg | hg
      · exact (h.constraints g hg).mono hmono
      · refine (hsub g hg).mono fun u hu => hu.elim (hmono u) ?_
        rintro ⟨v, hv, rfl⟩
        exact Or.inr (Or.inr (List.mem_append_right _ hv))
    · simp [Progress.keep, h.balanced, hp.length_block hlt]

/-- The blocks that are left to work on when the equations `done` have been; no equation depends on
a later one. -/
structure Ahead (known : List Var) (es : List Expr) (m : Matching Var) (done : List Nat)
    (bs : List (List Nat)) : Prop where
  all : ∀ i, i ∈ done ++ bs.flatten ↔ i < es.length
  done : ∀ c ∈ bs, ∀ i ∈ done, ∀ j ∈ c,
    ¬ (dependencies (candidates (.ofExprs known es)) m).Edge j i
  ordered : bs.Pairwise fun c d => ∀ i ∈ d, ∀ j ∈ c,
    ¬ (dependencies (candidates (.ofExprs known es)) m).Edge i j

theorem Paired.ahead (hp : Paired known es m) :
    Ahead known es m [] (dependencies (candidates (.ofExprs known es)) m).blocks := by
  have hg : (dependencies (candidates (.ofExprs known es)) m).Closed :=
    closed_dependencies hp.valid
  refine ⟨fun i => ?_, by simp, Digraph.blocks_ordered hg⟩
  rw [List.nil_append, Digraph.mem_flatten_blocks hg]
  simp [dependencies, length_candidates]

namespace Ahead

variable {bs : List (List Nat)} (h : Ahead known es m done (block :: bs))

include h

theorem lt : ∀ i ∈ block, i < es.length := by
  intro i hi
  rw [← h.all, List.flatten_cons]
  exact List.mem_append_right _ (List.mem_append_left _ hi)

/-- What the next block may be solved for is matched in it or before. -/
theorem matched (hp : Paired known es m) :
    ∀ i ∈ block, ∀ v ∈ (candidates (.ofExprs known es)).getD i [],
      ∃ j ∈ done ++ block, m.matched? j = some v := by
  intro i hi v hv
  obtain ⟨j, hj⟩ := hp.onto v (mem_targets_of_candidate hv)
  refine ⟨j, ?_, hj⟩
  by_cases hji : j = i
  · exact List.mem_append_right _ (hji ▸ hi)
  · have hmem : j ∈ done ++ block ∨ j ∈ bs.flatten := by
      rw [← List.mem_append, List.append_assoc, ← List.flatten_cons, h.all,
        ← length_candidates known]
      exact hp.valid.lt hj
    refine hmem.resolve_right fun hlater => ?_
    obtain ⟨c, hc, hjc⟩ := List.mem_flatten.mp hlater
    have hlt : i < (candidates (.ofExprs known es)).length := by
      rw [length_candidates]
      exact h.lt i hi
    exact (List.pairwise_cons.mp h.ordered).1 c hc j hjc i hi
      (edge_dependencies.mpr ⟨v, hj, hlt, Ne.symm hji, hv⟩)

theorem next : Ahead known es m (done ++ block) bs := by
  obtain ⟨hblock, hordered⟩ := List.pairwise_cons.mp h.ordered
  refine ⟨fun i => ?_, fun c hc i hi j hj => ?_, hordered⟩
  · rw [List.append_assoc, ← List.flatten_cons]
    exact h.all i
  · rcases List.mem_append.mp hi with hi | hi
    · exact h.done c (List.mem_cons_of_mem _ hc) i hi j hj
    · exact hblock c hc j hj i hi

end Ahead

theorem reached_foldl (hk : ∀ v ∈ known, v.order = 0) (hp : Paired known es m) :
    ∀ {bs : List (List Nat)} {done : List Nat} {p : Progress}, Reached known es m done p →
      Ahead known es m done bs →
      Reached known es m (done ++ bs.flatten) (bs.foldl (fun p b => p.addBlock solveBlocks
        (b.filterMap fun i => es[i]?) (b.filterMap m.matched?)) p)
  | [], done, p, h, _ => by simpa using h
  | b :: bs, done, p, h, hahead => by
    rw [List.flatten_cons, ← List.append_assoc]
    exact reached_foldl hk hp (h.addBlock hk hp hahead.lt (hahead.matched hp)) hahead.next

theorem reached_start : Reached known es m [] {} := ⟨by simp, by simp, by simp, rfl⟩

theorem reached_solveBlocks (solveBlocks : Bool) (hk : ∀ v ∈ known, v.order = 0)
    (hp : Paired known es m) :
    Reached known es m (dependencies (candidates (.ofExprs known es)) m).blocks.flatten
      (SemiExplicit.solveBlocks solveBlocks es (candidates (.ofExprs known es)) m) :=
  reached_foldl hk hp reached_start hp.ahead

/-- Every target has been solved for, without what comes later, or kept. -/
structure Complete (known : List Var) (es : List Expr) (p : Progress) : Prop where
  covers : ∀ {v}, v ∈ p.solved.map Prod.fst ∨ v ∈ p.retained ↔ v ∈ targets (.ofExprs known es)
  within : ∀ q ∈ p.solved, q.2.Within (Symbol.Only (Kept known es p.retained))
  constraints : ∀ g ∈ p.constraints, g.Within (Symbol.Only (Kept known es p.retained))
  balanced : p.constraints.length = p.retained.length

theorem Paired.complete (hp : Paired known es m) (hk : ∀ v ∈ known, v.order = 0) :
    Complete known es
      (SemiExplicit.solveBlocks solveBlocks es (candidates (.ofExprs known es)) m) := by
  have h := reached_solveBlocks solveBlocks hk hp
  refine ⟨h.covers.trans ⟨?_, fun hv => ?_⟩, h.within, h.constraints, h.balanced⟩
  · rintro ⟨i, -, hi⟩
    exact mem_targets_of_candidate (hp.valid.adjacent hi)
  · obtain ⟨i, hi⟩ := hp.onto _ hv
    refine ⟨i, ?_, hi⟩
    rw [Digraph.mem_flatten_blocks (closed_dependencies hp.valid)]
    exact List.mem_range.mpr (hp.valid.lt hi)

end Step

/-! ### Observed variables -/

theorem renamed_of_order (h : v.order = 0) : renamed v = v := by simp [renamed, Var.isDerivative, h]

theorem lookup_renames {retained : List Var} {t : Symbol} {e : Expr}
    (h : (renames retained).lookup t = some e) : ∃ v ∈ retained, v.order ≠ 0 ∧ t = .var v ∧
      e = .var (renamed v) := by
  obtain ⟨v, hv, heq⟩ := List.mem_map.mp (mem_of_lookup h)
  obtain ⟨rfl, rfl⟩ := Prod.mk.inj heq
  obtain ⟨hv, ho⟩ := List.mem_filter.mp hv
  exact ⟨v, hv, by simpa [Var.isDerivative] using ho, rfl, rfl⟩

/-- A state, known, or kept under its new name. -/
def Remaining (known : List Var) (es : List Expr) (retained : List Var) (f : Var) : Prop :=
  f ∈ (Structure.ofExprs known es).states ∨ f ∈ known ∨ f ∈ retained.map renamed

theorem order_renamed (v : Var) : (renamed v).order = 0 := by
  unfold renamed
  split
  · rfl
  · next h => simpa [Var.isDerivative] using h

/-- Of a known function, or a function that remains. -/
def Settled (known : List Var) (es : List Expr) (retained : List Var) (v : Var) : Prop :=
  v.base ∈ known ∨ v.order = 0 ∧ Remaining known es retained v

/-- With kept derivatives renamed, the only derivatives left are those of known functions. -/
theorem within_renames {retained : List Var} {e : Expr}
    (he : e.Within (Symbol.Only (Kept known es retained))) :
    (e.substitute (renames retained)).Within (Symbol.Only (Settled known es retained)) := by
  refine Expr.within_substitute fun t ht => ?_
  change (Expr.replaceSymbol (renames retained) t).Within _
  rcases Expr.replaceSymbol_cases (renames retained) t with
    ⟨f, hf, heq⟩ | ⟨v, f, rfl, -, -, hf, -⟩ | ⟨hnone, -, heq⟩
  · obtain ⟨v, hv, -, -, rfl⟩ := lookup_renames hf
    rw [heq, Expr.within_var]
    exact Or.inr ⟨order_renamed v, Or.inr (Or.inr (List.mem_map_of_mem hv))⟩
  · -- only derivatives are renamed
    obtain ⟨u, -, ho, hu, -⟩ := lookup_renames hf
    obtain rfl := Symbol.var.inj hu
    exact absurd rfl ho
  · rw [heq, Expr.within_sym]
    cases t with
    | var v =>
      rcases he _ ht with hs | hkn | hr
      · obtain ⟨w, -, rfl⟩ := Structure.mem_states_ofExprs.mp hs
        exact Or.inr ⟨rfl, Or.inl hs⟩
      · exact Or.inl hkn
      · by_cases ho : v.order = 0
        · exact Or.inr ⟨ho, Or.inr (Or.inr (List.mem_map.mpr ⟨v, hr, renamed_of_order ho⟩))⟩
        · obtain ⟨e, he⟩ := exists_lookup (List.mem_map_of_mem
            (f := fun v => (Symbol.var v, Expr.var (renamed v)))
            (List.mem_filter.mpr ⟨hr, (by simpa [Var.isDerivative] using ho :
              v.isDerivative = true)⟩))
          exact absurd (hnone.symm.trans he) (by simp)
    | _ => trivial

theorem over_renames {retained : List Var} {e : Expr}
    (he : e.Within (Symbol.Only (Kept known es retained))) :
    (e.substitute (renames retained)).Over (Remaining known es retained) := by
  refine (within_renames he).mono fun u hu => hu.imp fun v hv => ?_
  rcases hv with hkn | ⟨ho, hv⟩
  · exact Or.inr (Or.inl hkn)
  · rwa [Var.base_of_order ho]

end SemiExplicit

open SemiExplicit

variable {known : List Var} {es : List Expr} {observed : Observed} {y : SemiExplicit}
  {solveBlocks : Bool}

/-- What a successful conversion gives. -/
theorem Structure.semiExplicit_ok
    (h : (Structure.ofExprs known es).semiExplicit es observed solveBlocks = .ok y)
    (hcount : (targets (.ofExprs known es)).length = es.length) :
    ∃ m, m = matching es (candidates (.ofExprs known es)) ∧ Paired known es m ∧ y.leftover = [] ∧
      y = ofProgress (.ofExprs known es) observed
        (SemiExplicit.solveBlocks solveBlocks es (candidates (.ofExprs known es)) m) := by
  unfold Structure.semiExplicit at h
  dsimp only at h
  split at h
  · simp at h
  · next hsize =>
    split at h
    · next hleft =>
      obtain rfl := Except.ok.inj h
      exact ⟨_, rfl, paired (matching_valid (length_candidates known es).symm) hsize hcount,
        List.isEmpty_iff.mp hleft, rfl⟩
    · simp at h

/-- When only derivatives stand in the way of a conversion, these are what is left. -/
theorem Structure.semiExplicit_inputDerivatives {e : ModelError}
    (h : (Structure.ofExprs known es).semiExplicit es observed solveBlocks = .error e)
    (hc : e.cause = .reduction .inputDerivatives)
    (hcount : (targets (.ofExprs known es)).length = es.length) :
    ∃ m, Paired known es m ∧ e.symbols = (ofProgress (.ofExprs known es) observed
      (SemiExplicit.solveBlocks solveBlocks es (candidates (.ofExprs known es)) m)).leftover.map
        .var := by
  unfold Structure.semiExplicit at h
  dsimp only at h
  split at h
  · obtain rfl := Except.error.inj h
    simp at hc
  · next hsize =>
    split at h
    · simp at h
    · obtain rfl := Except.error.inj h
      exact ⟨_, paired (matching_valid (length_candidates known es).symm) hsize hcount, rfl⟩

namespace SemiExplicit

/-- The expressions of a semi-explicit form. -/
def exprs (y : SemiExplicit) : List Expr := y.rates ++ y.constraints ++ y.observed.map Prod.snd

theorem mem_leftover {v : Var} : v ∈ y.leftover ↔ ∃ e ∈ y.exprs, v ∈ e.vars ∧ v.order ≠ 0 := by
  simp only [leftover, mem_sortVars, List.mem_flatMap, Expr.derivatives, List.mem_filter,
    Var.isDerivative, bne_iff_ne, exprs]

theorem order_of_leftover (h : y.leftover = []) {e : Expr} (he : e ∈ y.exprs) {v : Var}
    (hv : v ∈ e.vars) : v.order = 0 := by
  by_contra ho
  exact List.not_mem_nil (h ▸ mem_leftover.mpr ⟨e, he, hv, ho⟩)

variable {m : Matching Var}

/-- The expressions for what is solved for and no derivative, as they are observed. -/
def solvedVars (p : Progress) : List (Var × Expr) :=
  (p.solved.map fun q => (q.1, q.2.substitute (renames p.retained))).filter fun q =>
    !q.1.isDerivative

theorem mem_solvedVars {p : Progress} {v : Var} (ho : v.order = 0)
    (hv : v ∈ p.solved.map Prod.fst) : ∃ e, (v, e) ∈ solvedVars p := by
  obtain ⟨q, hq, rfl⟩ := List.mem_map.mp hv
  exact ⟨_, List.mem_filter.mpr ⟨List.mem_map_of_mem hq, by simp [Var.isDerivative, ho]⟩⟩

theorem observed_ofProgress (s : Structure) (observed : Observed) (p : Progress) :
    (ofProgress s observed p).observed = (solvedVars p).foldl (fun o q => Observed.set o q.1 q.2)
      (observed.map fun q =>
        (q.1, q.2.substitute ((solvedVars p).map fun r => (Symbol.var r.1, r.2)))) := rfl

variable {p : Progress}

/-- What the rate of `x` is solved to, or its kept derivative under a new name. -/
def rate (p : Progress) (x : Var) : Expr :=
  ((p.solved.map fun q => (q.1, q.2.substitute (renames p.retained))).lookup x.der).getD
    (.var (renamed x.der))

theorem rates_ofProgress (s : Structure) (observed : Observed) (p : Progress) :
    (ofProgress s observed p).rates = s.states.map (rate p) := rfl

theorem Complete.rate_cases (hp : Complete known es p) {x : Var}
    (hx : x.der ∈ targets (.ofExprs known es)) :
    (∃ q ∈ p.solved, q.1 = x.der ∧ rate p x = q.2.substitute (renames p.retained)) ∨
      x.der ∈ p.retained ∧ rate p x = .var (renamed x.der) := by
  unfold rate
  cases hlookup : (p.solved.map fun q =>
      (q.1, q.2.substitute (renames p.retained))).lookup x.der with
  | some e =>
    obtain ⟨q, hq, heq⟩ := List.mem_map.mp (mem_of_lookup hlookup)
    obtain ⟨hv, rfl⟩ := Prod.mk.inj heq
    exact Or.inl ⟨q, hq, hv, rfl⟩
  | none =>
    refine Or.inr ⟨(hp.covers.mpr hx).resolve_left fun hs => ?_, rfl⟩
    obtain ⟨q, hq, heq⟩ := List.mem_map.mp hs
    obtain ⟨e, he⟩ := exists_lookup (List.mem_map_of_mem
      (f := fun q : Var × Expr => (q.1, q.2.substitute (renames p.retained))) hq)
    rw [heq, hlookup] at he
    simp at he

theorem mem_keys_ofProgress {s : Structure} {v : Var} :
    v ∈ (ofProgress s observed p).observed.map Prod.fst ↔
      v ∈ (solvedVars p).map Prod.fst ∨ v ∈ observed.map Prod.fst := by
  rw [observed_ofProgress, Observed.mem_keys_foldl_set, List.map_map, Function.comp_def]

theorem mem_targets_of_order {v : Var} (ho : v.order = 0) :
    v ∈ targets (.ofExprs known es) → v ∈ (Structure.ofExprs known es).functions := by
  rw [targets, List.mem_append]
  rintro (hd | ha)
  · obtain ⟨e, -, hd⟩ := Structure.mem_derivatives_ofExprs.mp hd
    exact absurd ho (Structure.mem_unknownDerivatives.mp hd).2.1
  · exact List.mem_append_right _ ha

theorem length_rates_ofProgress (s : Structure) (observed : Observed) (p : Progress) :
    (ofProgress s observed p).states.length = (ofProgress s observed p).rates.length := by
  simp [ofProgress]

/-- Each function of the equations is a state, an algebraic variable or observed. -/
theorem Complete.mem_ofProgress (hp : Complete known es p) {v : Var}
    (hv : v ∈ (Structure.ofExprs known es).functions) (observed : Observed) :
    let y := ofProgress (.ofExprs known es) observed p
    v ∈ y.states ∨ v ∈ y.algebraic ∨ v ∈ y.observed.map Prod.fst := by
  intro y
  have ho := Structure.order_of_mem_functions hv
  rcases List.mem_append.mp hv with hv | hv
  · exact Or.inl hv
  · rcases hp.covers.mpr (List.mem_append_right _ hv) with hs | hr
    · obtain ⟨e, he⟩ := mem_solvedVars ho hs
      exact Or.inr (Or.inr (mem_keys_ofProgress.mpr (Or.inl (List.mem_map_of_mem he))))
    · exact Or.inr (Or.inl (List.mem_map.mpr ⟨v, hr, renamed_of_order ho⟩))

theorem Complete.over_solvedVars (hp : Complete known es p) :
    ∀ r ∈ solvedVars p, r.2.Over (Remaining known es p.retained) := by
  intro r hr
  obtain ⟨q, hq, rfl⟩ := List.mem_map.mp (List.mem_of_mem_filter hr)
  exact over_renames (hp.within q hq)

/-- What is observed is given by what remains and by functions that are in no equation. -/
theorem Complete.over_observed (hp : Complete known es p) {L : Var → Prop}
    (hobs : ∀ q ∈ observed, q.2.Over fun f =>
      f ∈ (Structure.ofExprs known es).functions ∨ f ∈ known ∨ L f) :
    ∀ q ∈ (ofProgress (.ofExprs known es) observed p).observed,
      q.2.Over fun f => Remaining known es p.retained f ∨ L f := by
  have hsolved : ∀ r ∈ solvedVars p, r.2.Over fun f => Remaining known es p.retained f ∨ L f :=
    fun r hr => (hp.over_solvedVars r hr).imp fun _ => Or.inl
  intro q hq
  rw [observed_ofProgress] at hq
  rcases Observed.of_mem_foldl_set hq with hq | hq
  · exact hsolved q hq
  · obtain ⟨g, hg, rfl⟩ := List.mem_map.mp hq
    refine Expr.Over.substitute (fun t f hf => ?_) ((hobs g hg).imp fun v hv hnone => ?_)
    · obtain ⟨r, hr, heq⟩ := List.mem_map.mp (mem_of_lookup hf)
      obtain ⟨-, rfl⟩ := Prod.mk.inj heq
      exact hsolved r hr
    · rcases hv with hv | hkn | hl
      · have ho := Structure.order_of_mem_functions hv
        rcases List.mem_append.mp hv with hv | hv
        · exact Or.inl (Or.inl hv)
        · rcases hp.covers.mpr (List.mem_append_right _ hv) with hs | hr
          · obtain ⟨e, he⟩ := mem_solvedVars ho hs
            obtain ⟨f, hf⟩ := exists_lookup
              (List.mem_map_of_mem (f := fun r => (Symbol.var r.1, r.2)) he)
            exact absurd (hnone.symm.trans hf) (by simp)
          · exact Or.inl (Or.inr (Or.inr (List.mem_map.mpr ⟨_, hr, renamed_of_order ho⟩)))
      · exact Or.inl (Or.inr (Or.inl hkn))
      · exact Or.inr hl

end SemiExplicit

end Flange

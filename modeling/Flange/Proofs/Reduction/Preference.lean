import Flange.Proofs.Expr.Columns
import Flange.Proofs.Run
import Flange.Proofs.Solution.Dummy

/-! # Preference among derivatives

The derivatives of a level that become dummies are the least preferred ones possible: no chosen
derivative can be exchanged for a less preferred one that was not chosen, since the Jacobian of the
exchanged choice is singular.
-/

namespace Flange

/-! ### The order of the columns -/

namespace StatePreference

variable {p q r : StatePreference}

theorem le_total (p q : StatePreference) : p.le q = true ∨ q.le p = true := by
  simp only [le, Bool.or_eq_true, Bool.and_eq_true, decide_eq_true_eq, beq_iff_eq]
  rcases Nat.lt_trichotomy p.initialRank q.initialRank with h | h | h
  · exact Or.inl (Or.inl h)
  · cases hp : p.isVariable
    · simp [h]
    · simp [h]
  · exact Or.inr (Or.inl h)

theorem le_trans (hpq : p.le q = true) (hqr : q.le r = true) : p.le r = true := by
  simp only [le, Bool.or_eq_true, Bool.and_eq_true, decide_eq_true_eq, beq_iff_eq] at *
  grind

theorem le_antisymm (hpq : p.le q = true) (hqp : q.le p = true) : p = q := by
  obtain ⟨m, a⟩ := p
  obtain ⟨n, b⟩ := q
  simp only [le, Bool.or_eq_true, Bool.and_eq_true, decide_eq_true_eq, beq_iff_eq] at *
  grind

end StatePreference

namespace DummyContext

variable {ctx : DummyContext} {u v w : Var}

theorem before_total (ctx : DummyContext) (v w : Var) :
    ctx.before v w = true ∨ ctx.before w v = true := by
  by_cases h : ctx.preference v = ctx.preference w
  · simpa [before, h] using String.le_total v.display w.display
  · simpa [before, h, Ne.symm h] using StatePreference.le_total _ _

theorem before_trans (huv : ctx.before u v = true) (hvw : ctx.before v w = true) :
    ctx.before u w = true := by
  simp only [before] at *
  by_cases h : ctx.preference u = ctx.preference v
  · by_cases h' : ctx.preference v = ctx.preference w
    · simp only [h, h', if_true, decide_eq_true_eq] at *
      exact String.le_trans huv hvw
    · simpa [h, h'] using hvw
  · simp only [h, if_false] at huv
    by_cases h' : ctx.preference v = ctx.preference w
    · simpa [← h', h] using huv
    · simp only [h', if_false] at hvw
      have hne : ctx.preference u ≠ ctx.preference w := fun heq =>
        h (StatePreference.le_antisymm huv (heq ▸ hvw))
      simpa [hne] using StatePreference.le_trans huv hvw

/-- What is less preferred comes before. -/
theorem not_before_of_le (hle : (ctx.preference v).le (ctx.preference w) = true)
    (hne : ctx.preference v ≠ ctx.preference w) : ctx.before w v = false := by
  rw [Bool.eq_false_iff]
  intro h
  simp only [before, Ne.symm hne, if_false] at h
  exact hne (StatePreference.le_antisymm hle h)

end DummyContext

/-! ### Exchanged columns -/

namespace DummyLevel

variable {α β : Type} {xs : List α} {is js : List Nat}

/-- The columns at the listed positions. -/
def columns (rows : List (List α)) (is : List Nat) : List (List α) := rows.map (select · is)

/-- `b` in the place of `a`. -/
def exchange (a b : Nat) (is : List Nat) : List Nat := is.map fun i => if i = a then b else i

theorem forall_exchange {P : Nat → Prop} {a b : Nat} (his : ∀ i ∈ is, P i) (hb : P b) :
    ∀ i ∈ exchange a b is, P i := by
  refine List.forall_mem_map.mpr fun i hi => ?_
  split
  · exact hb
  · exact his i hi

@[simp] theorem length_exchange {a b : Nat} : (exchange a b is).length = is.length :=
  List.length_map _

theorem mem_exchange_self {a b : Nat} (ha : a ∈ is) : b ∈ exchange a b is :=
  List.mem_map.mpr ⟨a, ha, if_pos rfl⟩

theorem mem_exchange_of_ne {a b i : Nat} (hi : i ∈ is) (hne : i ≠ a) : i ∈ exchange a b is :=
  List.mem_map.mpr ⟨i, hi, if_neg hne⟩

theorem nodup_exchange {a b : Nat} (h : is.Nodup) (hb : b ∉ is) :
    (exchange a b is).Nodup := by
  refine h.map_on fun i hi j hj heq => ?_
  split at heq <;> split at heq
  · next hi' hj' => rw [hi', hj']
  · exact absurd (heq ▸ hj) hb
  · exact absurd (heq ▸ hi) hb
  · exact heq

theorem select_eq_map (h : ∀ i ∈ is, i < xs.length) (x : α) :
    select xs is = is.map (xs.getD · x) := by
  induction is with
  | nil => rfl
  | cons i is ih =>
    obtain ⟨hi, his⟩ := List.forall_mem_cons.mp h
    have hsome : xs[i]? = some (xs.getD i x) := by
      rw [List.getD_eq_getElem _ _ hi, List.getElem?_eq_getElem hi]
    rw [select, List.filterMap_cons_some hsome, ← select, ih his, List.map_cons]

end DummyLevel

namespace Expr

open DummyLevel Fraction

variable {smooth : Prop} {ρ : Valuation ℝ} {rows : List (List Expr)} {gens : List Expr}

theorem mem_generatorsOf {es : List Expr} {e g : Expr} (he : e ∈ es) (hg : g ∈ e.generators) :
    g ∈ generatorsOf es := by
  simp only [generatorsOf, mem_sortedBy, List.mem_eraseDups, List.mem_flatMap]
  exact ⟨e, he, hg⟩

theorem yields_getD {row : List Expr} (hreg : ∀ e ∈ row, e.Regular smooth ρ)
    (hgens : ∀ e ∈ row, ∀ g ∈ e.generators, g ∈ gens) (j : Nat) :
    Yields (valueAt gens ρ) gens.length (ofExpr gens (row.getD j zero))
      ((row.getD j zero).eval ρ) := by
  by_cases hj : j < row.length
  · rw [List.getD_eq_getElem _ _ hj]
    have hmem := List.getElem_mem hj
    exact yields_ofExpr (hreg _ hmem) (hgens _ hmem)
  · rw [List.getD_eq_default _ _ (not_lt.mp hj)]
    have hzero : zero.Regular smooth ρ := trivial
    exact yields_ofExpr hzero (by simp [zero, generators])

/-- A relation between the columns makes the matrix singular. -/
theorem not_nonsingular_of_relation (hreg : ∀ row ∈ rows, ∀ e ∈ row, e.Regular smooth ρ)
    (hgens : ∀ row ∈ rows, ∀ e ∈ row, ∀ g ∈ e.generators, g ∈ gens) (x : ℕ → Formal)
    (hne : ∃ j < rows.length, x j ≠ 0)
    (hzero : ∀ row ∈ rows,
      ∑ j ∈ Finset.range rows.length, formal (ofExpr gens (row.getD j zero)) * x j = 0) :
    ¬ Nonsingular rows ρ := by
  intro h
  have hyields : ∀ i j : Fin rows.length, Yields (valueAt gens ρ) gens.length
      (ofExpr gens (rows[i].getD j zero)) (matrixAt rows ρ i j) := fun i j =>
    yields_getD (hreg _ (List.getElem_mem i.isLt)) (hgens _ (List.getElem_mem i.isLt)) j
  refine h (det_eq_zero_of_formal hyields ?_)
  obtain ⟨j, hj, hxj⟩ := hne
  refine Matrix.exists_mulVec_eq_zero_iff.mp ⟨fun j => x j, fun heq => ?_, ?_⟩
  · exact hxj (congrFun heq ⟨j, hj⟩)
  · funext i
    have hrow := hzero _ (List.getElem_mem i.isLt)
    rw [Finset.sum_range] at hrow
    exact hrow

theorem sum_range_getD {f : ℕ → Formal} (is : List Nat) (hnodup : is.Nodup) :
    ∑ j ∈ Finset.range is.length, f (is.getD j 0) = ∑ i ∈ is.toFinset, f i := by
  rw [List.sum_toFinset f hnodup]
  have hmap : (List.range is.length).map (fun j => f (is.getD j 0)) = is.map f := by
    refine List.ext_getElem (by simp) fun j hj hj' => ?_
    have hlt : j < is.length := by simpa using hj'
    simp [List.getElem?_eq_getElem hlt]
  rw [← hmap]
  rfl

theorem lt_of_mem_pivotColumns {w i : Nat} (hrows : ∀ row ∈ rows, row.length = w)
    (hi : i ∈ pivotColumns rows) : i < w := by
  have hrange := List.mem_range.mp ((pivotColumns_sublist rows).subset hi)
  cases rows with
  | nil => simp at hrange
  | cons row rows => exact hrows row List.mem_cons_self ▸ hrange

/-- A relation between some columns makes the matrix of these columns singular. -/
theorem singular_columns {w : Nat} {is : List Nat} (hrows : ∀ row ∈ rows, row.length = w)
    (hlen : is.length = rows.length) (hnodup : is.Nodup) (hlt : ∀ i ∈ is, i < w)
    (hreg : ∀ row ∈ rows, ∀ e ∈ row, e.Regular smooth ρ)
    (hgens : ∀ row ∈ rows, ∀ e ∈ row, ∀ g ∈ e.generators, g ∈ gens) {x : ℕ → Formal}
    (hne : ∃ i ∈ is, x i ≠ 0) (hsupport : ∀ i, x i ≠ 0 → i ∈ is)
    (hzero : ∀ row ∈ rows, combine w x (row.map (ofExpr gens)) = 0) :
    ¬ Nonsingular (columns rows is) ρ := by
  have hreg' : ∀ row ∈ columns rows is, ∀ e ∈ row, e.Regular smooth ρ :=
    List.forall_mem_map.mpr fun row hrow e he => hreg row hrow e (select_subset _ _ he)
  have hgens' : ∀ row ∈ columns rows is, ∀ e ∈ row, ∀ g ∈ e.generators, g ∈ gens :=
    List.forall_mem_map.mpr fun row hrow e he => hgens row hrow e (select_subset _ _ he)
  have hlen' : (columns rows is).length = is.length := by rw [columns, List.length_map, hlen]
  refine not_nonsingular_of_relation hreg' hgens' (fun j => x (is.getD j 0)) ?_ ?_
  · obtain ⟨i, hi, hxi⟩ := hne
    obtain ⟨j, hj, rfl⟩ := List.mem_iff_getElem.mp hi
    exact ⟨j, hlen' ▸ hj, by rwa [List.getD_eq_getElem _ _ hj]⟩
  · refine List.forall_mem_map.mpr fun row hrow => ?_
    have hselect : select row is = is.map (row.getD · zero) :=
      select_eq_map (by rwa [hrows row hrow]) zero
    have hentry : ∀ j ∈ Finset.range is.length,
        formal (ofExpr gens ((select row is).getD j zero)) * x (is.getD j 0) =
          entry (row.map (ofExpr gens)) (is.getD j 0) * x (is.getD j 0) := by
      intro j hj
      have hj := Finset.mem_range.mp hj
      have hi : is[j] < row.length := by rw [hrows row hrow]; exact hlt _ (List.getElem_mem hj)
      rw [hselect, List.getD_eq_getElem is _ hj, entry, List.getElem?_map,
        List.getElem?_eq_getElem hi]
      simp [List.getElem?_eq_getElem hj, List.getElem?_eq_getElem hi]
    rw [hlen', Finset.sum_congr rfl hentry,
      sum_range_getD (f := fun i => entry (row.map (ofExpr gens)) i * x i) is hnodup]
    refine (Finset.sum_subset ?_ ?_).trans (hzero row hrow)
    · intro i hi
      exact Finset.mem_range.mpr (hlt i (List.mem_toFinset.mp hi))
    · intro i _ hout
      have hxi : x i = 0 := by
        by_contra hxi
        exact hout (List.mem_toFinset.mpr (hsupport i hxi))
      rw [hxi, mul_zero]

/-- A column without a pivot depends on the pivot columns before it. -/
theorem exists_relation_pivotColumns {w b : Nat} (hrows : ∀ row ∈ rows, row.length = w)
    (hreg : ∀ row ∈ rows, ∀ e ∈ row, e.Regular smooth ρ) (hne : rows ≠ []) (hbw : b < w)
    (hb : b ∉ pivotColumns rows) : ∃ x, Relation w b (pivotColumns rows)
      (rows.map (·.map (ofExpr (generatorsOf rows.flatten)))) x := by
  have hpivots : pivotColumns rows = pivots (generatorsOf rows.flatten).length (List.range w)
      (rows.map (·.map (ofExpr (generatorsOf rows.flatten)))) := by
    have hwidth : (rows.head?.map List.length).getD 0 = w := by
      obtain ⟨row, rows, rfl⟩ := List.exists_cons_of_ne_nil hne
      exact hrows row List.mem_cons_self
    rw [pivotColumns, hwidth]
  have hproper : ∀ row ∈ rows.map (·.map (ofExpr (generatorsOf rows.flatten))),
      ProperRow (generatorsOf rows.flatten).length w row := by
    refine List.forall_mem_map.mpr fun row hrow => ⟨by simpa using hrows row hrow, ?_⟩
    refine List.forall_mem_map.mpr fun e he => ?_
    have hmem : e ∈ rows.flatten := List.mem_flatten.mpr ⟨row, hrow, he⟩
    exact (yields_ofExpr (hreg row hrow e he) fun _ => mem_generatorsOf hmem).proper
  rw [hpivots] at hb ⊢
  exact exists_relation hproper List.pairwise_lt_range (fun _ => List.mem_range.mp)
    (List.mem_range.mpr hbw) hb

/-- In the place of a pivot, a column before it that is none makes the columns dependent. -/
theorem singular_exchange {w a b : Nat} (hrows : ∀ row ∈ rows, row.length = w)
    (hlen : (pivotColumns rows).length = rows.length) (ha : a ∈ pivotColumns rows)
    (hb : b ∉ pivotColumns rows) (hba : b < a)
    (hreg : ∀ row ∈ rows, ∀ e ∈ row, e.Regular smooth ρ) :
    ¬ Nonsingular (columns rows (exchange a b (pivotColumns rows))) ρ := by
  have hne : rows ≠ [] := by
    rintro rfl
    exact absurd (hlen ▸ List.length_pos_of_mem ha) (lt_irrefl 0)
  have hrange : ∀ i ∈ pivotColumns rows, i < w := fun i => lt_of_mem_pivotColumns hrows
  have hbw : b < w := hba.trans (hrange a ha)
  have hnodup : (pivotColumns rows).Nodup := (pivotColumns_sublist rows).nodup List.nodup_range
  have hgens : ∀ row ∈ rows, ∀ e ∈ row, ∀ g ∈ e.generators, g ∈ generatorsOf rows.flatten :=
    fun row hrow e he g hg => mem_generatorsOf (List.mem_flatten.mpr ⟨row, hrow, he⟩) hg
  obtain ⟨x, hx⟩ := exists_relation_pivotColumns hrows hreg hne hbw hb
  refine singular_columns hrows (length_exchange.trans hlen) (nodup_exchange hnodup hb)
    (forall_exchange hrange hbw) hreg hgens ⟨b, mem_exchange_self ha, hx.self ▸ one_ne_zero⟩ ?_
    fun row hrow => hx.zero _ (List.mem_map_of_mem hrow)
  intro i hi
  rcases hx.support i hi with rfl | ⟨hi, hib⟩
  · exact mem_exchange_self ha
  · exact mem_exchange_of_ne hi (hib.trans hba).ne

end Expr

/-! ### Levels -/

namespace DummyLevel

variable {d : Differentiation} {ctx : DummyContext} {l below : DummyLevel}
  {chosen : List (Nat × Nat)} {block : List Nat} {p q n : Nat}

/-- The columns of the differentiated equations at the listed positions. -/
def jacobianAt (l : DummyLevel) (is : List Nat) : List (List Expr) :=
  columns (l.jacobian.take l.differentiated) is

/-- The positions of the chosen derivatives among the variables of the level. -/
def chosenColumns (d : Differentiation) (ctx : DummyContext) (l : DummyLevel) : List Nat :=
  select (l.columnOrder d ctx) (Expr.pivotColumns (l.jacobianAt (l.columnOrder d ctx)))

/-- There is a row for each differentiated equation and a column for each variable. -/
structure Shaped (l : DummyLevel) : Prop where
  rows : l.differentiated ≤ l.jacobian.length
  width : ∀ row ∈ l.jacobian, l.vars.length ≤ row.length

theorem lt_of_mem_columnOrder (hp : p ∈ l.columnOrder d ctx) : p < l.vars.length :=
  List.mem_range.mp (mem_sortedBy.mp hp)

theorem nodup_columnOrder : (l.columnOrder d ctx).Nodup :=
  (sortedBy_perm _ _).nodup_iff.mpr List.nodup_range

theorem columnOrder_pairwise : (l.columnOrder d ctx).Pairwise fun i j =>
    ctx.before (d.var (l.vars.getD i 0)) (d.var (l.vars.getD j 0)) = true :=
  sortedBy_pairwise
    (fun i j => ctx.before_total (d.var (l.vars.getD i 0)) (d.var (l.vars.getD j 0)))
    (fun h h' => DummyContext.before_trans h h') _

theorem select_select {α : Type} {xs : List α} {is js : List Nat} (h : ∀ i ∈ is, i < xs.length)
    (hjs : ∀ j ∈ js, j < is.length) (x : α) :
    select (select xs is) js = select xs (select is js) := by
  have hmem : ∀ i ∈ select is js, i < xs.length := fun i hi => h i (select_subset _ _ hi)
  rw [select_eq_map hmem x, select_eq_map hjs 0, select_eq_map h x,
    select_eq_map (by simpa using hjs) x, List.map_map]
  refine List.map_congr_left fun j hj => ?_
  have hj := hjs j hj
  simp [List.getElem?_eq_getElem hj]

/-- What a successful descent has chosen, and what it leaves for the level below. -/
theorem descend_chosen (h : descend d ctx l = .ok (chosen, below)) :
    (Expr.pivotColumns (l.jacobianAt (l.columnOrder d ctx))).length = l.differentiated ∧
      chosen = (l.equations.take l.differentiated).zip (select (select l.vars
        (l.columnOrder d ctx)) (Expr.pivotColumns (l.jacobianAt (l.columnOrder d ctx)))) ∧
      below.jacobian = columns (l.jacobianAt (l.columnOrder d ctx))
        (Expr.pivotColumns (l.jacobianAt (l.columnOrder d ctx))) ∧
      below.vars = (select (select l.vars (l.columnOrder d ctx))
        (Expr.pivotColumns (l.jacobianAt (l.columnOrder d ctx)))).filterMap d.integral? ∧
      below.depths = (l.depths.take l.differentiated).map (· - 1) := by
  unfold descend at h
  dsimp only at h
  split at h
  · simp at h
  · next hlen =>
    obtain ⟨rfl, rfl⟩ := Prod.mk.inj (Except.ok.inj h)
    exact ⟨not_not.mp hlen, rfl, rfl, rfl, rfl⟩

theorem Shaped.length_row (hl : l.Shaped) :
    ∀ row ∈ l.jacobianAt (l.columnOrder d ctx), row.length = (l.columnOrder d ctx).length := by
  refine List.forall_mem_map.mpr fun row hrow => length_select fun i hi => ?_
  exact (lt_of_mem_columnOrder hi).trans_le (hl.width row (List.take_subset _ _ hrow))

theorem Shaped.pivots_lt (hl : l.Shaped) :
    ∀ i ∈ Expr.pivotColumns (l.jacobianAt (l.columnOrder d ctx)),
      i < (l.columnOrder d ctx).length := fun _ => Expr.lt_of_mem_pivotColumns hl.length_row

theorem Shaped.length_jacobianAt (hl : l.Shaped) (is : List Nat) :
    (l.jacobianAt is).length = l.differentiated := by
  rw [jacobianAt, columns, List.length_map, List.length_take, Nat.min_eq_left hl.rows]

theorem shaped_top (d : Differentiation) (block : List Nat) : (top d block).Shaped := by
  by_cases hflat : (d.descent.byDepth block).all (fun p => p.1 == 0) = true
  · have hnone : (top d block).differentiated = 0 := by
      refine List.countP_eq_zero.mpr (List.forall_mem_map.mpr fun p hp => ?_)
      simpa using List.all_eq_true.mp hflat p hp
    refine ⟨hnone ▸ Nat.zero_le _, ?_⟩
    simp [top, hflat]
  · have hjacobian : (top d block).jacobian = jacobianOf d (top d block).equations
        (top d block).vars := by simp [top, hflat, jacobianOf]
    constructor
    · rw [hjacobian, jacobianOf, List.length_map]
      exact List.countP_le_length.trans (by simp [top])
    · rw [hjacobian]
      exact List.forall_mem_map.mpr fun e _ => by rw [List.length_map]

theorem Shaped.descend (hl : l.Shaped) (h : descend d ctx l = .ok (chosen, below)) :
    below.Shaped := by
  obtain ⟨hlen, -, hjacobian, hvars, hdepths⟩ := descend_chosen h
  constructor
  · rw [hjacobian, columns, List.length_map, hl.length_jacobianAt]
    refine List.countP_le_length.trans ?_
    rw [hdepths, List.length_map]
    exact List.length_take_le _ _
  · rw [hjacobian, hvars]
    refine List.forall_mem_map.mpr fun row hrow => ?_
    rw [length_select (hl.length_row row hrow ▸ hl.pivots_lt)]
    exact (List.length_filterMap_le _ _).trans (List.length_filterMap_le _ _)

/-- Each step down from a level is a descent from a level with a row for each differentiated
equation and a column for each variable. -/
theorem Shaped.descents : ∀ {fuel : Nat} {l : DummyLevel}, l.Shaped →
    ∀ (n : Nat) (step : List (Nat × Nat) × DummyLevel), (descents d ctx fuel l)[n]? = some step →
      ∃ l', (l :: (descents d ctx fuel l).map Prod.snd)[n]? = some l' ∧ l'.Shaped ∧
        DummyLevel.descend d ctx l' = .ok step
  | 0, _, _, _, _, hstep => by simp [DummyLevel.descents] at hstep
  | fuel + 1, l, hl, n, step, hstep => by
    rw [DummyLevel.descents] at hstep ⊢
    split at hstep
    · simp at hstep
    next hm =>
    rw [if_neg hm]
    rcases hdesc : DummyLevel.descend d ctx l with e | ⟨chosen, below⟩
    · simp [hdesc] at hstep
    simp only [hdesc] at hstep ⊢
    cases n with
    | zero =>
      obtain rfl := Option.some.inj hstep
      exact ⟨l, rfl, hl, hdesc⟩
    | succ n => exact (hl.descend hdesc).descents n step hstep

/-- Positions in the order of the columns are exchanged as the columns are. -/
theorem select_exchange {is order : List Nat} {a b : Nat} (hnodup : order.Nodup)
    (his : ∀ i ∈ is, i < order.length) (ha : order[a]? = some p) (hb : order[b]? = some q) :
    select order (exchange a b is) = exchange p q (select order is) := by
  have hexchange : ∀ i ∈ exchange a b is, i < order.length :=
    forall_exchange his (lt_of_getElem? hb)
  rw [select_eq_map hexchange 0, select_eq_map his 0, exchange, exchange, List.map_map,
    List.map_map]
  refine List.map_congr_left fun i hi => ?_
  obtain ⟨j, hj⟩ : ∃ j, order[i]? = some j := ⟨_, List.getElem?_eq_getElem (his i hi)⟩
  simp only [Function.comp_apply, List.getD_eq_getElem?_getD, hj, Option.getD_some]
  by_cases hia : i = a
  · obtain rfl : j = p := Option.some.inj (hj.symm.trans (hia ▸ ha))
    rw [if_pos hia, if_pos rfl, hb, Option.getD_some]
  · have hne : j ≠ p := by
      rintro rfl
      exact hia ((List.getElem?_inj (lt_of_getElem? hj) hnodup).mp (hj.trans ha.symm))
    rw [if_neg hia, if_neg hne, hj, Option.getD_some]

theorem Shaped.columns_jacobianAt (hl : l.Shaped) {is js : List Nat}
    (his : ∀ i ∈ is, i < l.vars.length) (hjs : ∀ j ∈ js, j < is.length) :
    columns (l.jacobianAt is) js = l.jacobianAt (select is js) := by
  rw [jacobianAt, jacobianAt, columns, columns, columns, List.map_map]
  refine List.map_congr_left fun row hrow => select_select (fun i hi => ?_) hjs .zero
  exact (his i hi).trans_le (hl.width row (List.take_subset _ _ hrow))

/-- No chosen derivative can be exchanged for one that comes before it. -/
theorem Shaped.singular_exchange {smooth : Prop} {ρ : Valuation ℝ} (hl : l.Shaped)
    (hdesc : DummyLevel.descend d ctx l = .ok (chosen, below))
    (hreg : ∀ row ∈ l.jacobian.take l.differentiated, ∀ e ∈ row, e.Regular smooth ρ)
    (hp : p ∈ l.chosenColumns d ctx) (hq : q < l.vars.length) (hnot : q ∉ l.chosenColumns d ctx)
    (hbefore : ctx.before (d.var (l.vars.getD p 0)) (d.var (l.vars.getD q 0)) = false) :
    ¬ Expr.Nonsingular (l.jacobianAt (exchange p q (l.chosenColumns d ctx))) ρ := by
  obtain ⟨hlen, -⟩ := descend_chosen hdesc
  obtain ⟨a, ha, hap⟩ := List.mem_filterMap.mp hp
  obtain ⟨b, hbq⟩ := List.mem_iff_getElem?.mp
    (mem_sortedBy.mpr (List.mem_range.mpr hq) : q ∈ l.columnOrder d ctx)
  have hb : b ∉ Expr.pivotColumns (l.jacobianAt (l.columnOrder d ctx)) := fun hb =>
    hnot (List.mem_filterMap.mpr ⟨b, hb, hbq⟩)
  have hba : b < a := by
    rcases Nat.lt_trichotomy a b with hab | rfl | hba
    · have hsorted := pairwise_getElem? columnOrder_pairwise hab hap hbq
      exact absurd (hbefore.symm.trans hsorted) Bool.false_ne_true
    · exact absurd ha hb
    · exact hba
  have hsingular := Expr.singular_exchange hl.length_row (hlen.trans (hl.length_jacobianAt _).symm)
    ha hb hba (List.forall_mem_map.mpr fun row hrow e he => hreg row hrow e (select_subset _ _ he))
  rwa [hl.columns_jacobianAt (fun _ => lt_of_mem_columnOrder)
    (forall_exchange hl.pivots_lt (lt_of_getElem? hbq)),
    select_exchange nodup_columnOrder hl.pivots_lt hap hbq] at hsingular

/-- **The derivatives that become dummies are the least preferred ones.** Going down the levels of a
block, wherever a choice of columns succeeds it has one column for each differentiated equation;
and whenever a column `q` that was not chosen comes before a chosen column `p`, as it does when its
variable is less preferred, the Jacobian with `q` in the place of `p` is singular at every point
where its entries are defined. -/
theorem singular_of_preferred (d : Differentiation) (ctx : DummyContext) (block : List Nat)
    (n : Nat) (l : DummyLevel) (step : List (Nat × Nat) × DummyLevel)
    (hl : (levelsOf d ctx block)[n]? = some l) (hstep : (stepsOf d ctx block)[n]? = some step) :
    step.1 = (l.equations.take l.differentiated).zip (select l.vars (l.chosenColumns d ctx)) ∧
      (l.chosenColumns d ctx).length = l.differentiated ∧ (l.chosenColumns d ctx).Nodup ∧
      (∀ v w, (ctx.preference v).le (ctx.preference w) = true →
        ctx.preference v ≠ ctx.preference w → ctx.before w v = false) ∧
      ∀ p ∈ l.chosenColumns d ctx, ∀ q < l.vars.length, q ∉ l.chosenColumns d ctx →
        ctx.before (d.var (l.vars.getD p 0)) (d.var (l.vars.getD q 0)) = false →
          ∀ ρ : Valuation ℝ,
            (∀ row ∈ l.jacobian.take l.differentiated, ∀ e ∈ row, e.Regular False ρ) →
              ¬ Expr.Nonsingular (l.jacobianAt (exchange p q (l.chosenColumns d ctx))) ρ := by
  obtain ⟨l', hl', hshaped, hdesc⟩ := (shaped_top d block).descents n step hstep
  obtain rfl := Option.some.inj (hl.symm.trans hl')
  obtain ⟨hlen, hchosen, -⟩ := descend_chosen hdesc
  refine ⟨?_, ?_, ?_, fun _ _ => DummyContext.not_before_of_le, fun p hp q hq hnot hbefore ρ hreg =>
    hshaped.singular_exchange hdesc hreg hp hq hnot hbefore⟩
  · rw [hchosen, select_select (fun _ => lt_of_mem_columnOrder) hshaped.pivots_lt 0, chosenColumns]
  · rw [chosenColumns, length_select hshaped.pivots_lt, hlen]
  · exact nodup_select nodup_columnOrder
      ((DummyLevel.pivotColumns_sublist _).nodup List.nodup_range)

/-- Three equations of which the first two do not tell `x` and `y` apart. -/
def tied : List Expr :=
  let x (k : Nat) := Expr.var ⟨"x", k⟩
  let y (k : Nat) := Expr.var ⟨"y", k⟩
  let z (k : Nat) := Expr.var ⟨"z", k⟩
  [x 0 + y 0 + z 0, x 0 + y 0 + .num 2 * z 0, x 1 + .num 2 * y 1 + z 1]

/-- The variable `z` has an initial value of its own. -/
def preferringZ : DummyContext := ⟨fun _ => none, [(⟨"z", 0⟩, 1)], []⟩

/-- The derivative of `z` is chosen although `z` has an initial value: with that of `y` in its place
the choice would be singular. -/
theorem singular_of_preferred_tied : ∃ d step,
    (Structure.ofExprs [] tied).differentiate tied 20 = .ok d ∧
      (stepsOf d preferringZ [2, 3, 4])[0]? = some step ∧
      step.1.map (fun c => d.var c.2) = [⟨"x", 1⟩, ⟨"z", 1⟩] ∧
      ∀ ρ : Valuation ℝ, ¬ Expr.Nonsingular ((top d [2, 3, 4]).jacobianAt [1, 0]) ρ := by
  have hok : (do
      let d ← ((Structure.ofExprs [] tied).differentiate tied 20).toOption
      let step ← (stepsOf d preferringZ [2, 3, 4])[0]?
      let l := top d [2, 3, 4]
      return (step.1.map (fun c => d.var c.2), l.chosenColumns d preferringZ, (l.vars.length,
        preferringZ.before (d.var (l.vars.getD 2 0)) (d.var (l.vars.getD 0 0))),
        l.jacobian.take l.differentiated)) = some ([⟨"x", 1⟩, ⟨"z", 1⟩], [1, 2], (3, false),
          [[.num 1, .num 1, .num 2], [.num 1, .num 1, .num 1]]) := by decide +kernel
  obtain ⟨d, hd, hok⟩ := Option.bind_eq_some_iff.mp hok
  obtain ⟨step, hstep, hok⟩ := Option.bind_eq_some_iff.mp hok
  simp only [Option.pure_def, Option.some.injEq, Prod.mk.injEq] at hok
  obtain ⟨hnames, hchosen, ⟨hlen, hbefore⟩, hjacobian⟩ := hok
  obtain ⟨-, -, -, -, hsingular⟩ := singular_of_preferred d preferringZ [2, 3, 4] 0 _ step rfl hstep
  refine ⟨d, step, ok_of_toOption hd, hstep, hnames, fun ρ => ?_⟩
  rw [hchosen, hjacobian, hlen] at hsingular
  refine hsingular 2 (by decide) 0 (by decide) (by decide) hbefore ρ ?_
  simp [Expr.Regular]

end DummyLevel

end Flange

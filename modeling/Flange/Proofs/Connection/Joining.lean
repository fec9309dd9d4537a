import Flange.Proofs.Connection.Basic
import Flange.Proofs.Symbol

/-! # Joining connectors

A connection is refused before its connectors are registered, or because it names fewer than two
of them, or because of what its merged class would hold; else its classes become one.
-/

namespace Flange

namespace ConnectionGraph

variable {g g' : ConnectionGraph} {root rank root' rank' : Nat → Nat} {ts : List Terminal}
  {is : List Nat} {P Q : Nat → Prop}

/-- One of the records that `P` picks is that of the connector `k`. -/
def Holds (g : ConnectionGraph) (P : Nat → Prop) (k : String × String) : Prop :=
  ∃ i r, P i ∧ g.records[i]? = some r ∧ r.key = k

/-- Two of the records that `P` picks have different domains. -/
def Mixes (g : ConnectionGraph) (P : Nat → Prop) : Prop :=
  ∃ i j r s, P i ∧ P j ∧ g.records[i]? = some r ∧ g.records[j]? = some s ∧ r.domain ≠ s.domain

/-- The records that `P` picks cannot be one class of connectors of the components `cs`: they mix
domains, or two of them are ports that their component keeps apart. -/
def Conflicts (cs : List Component) (g : ConnectionGraph) (P : Nat → Prop) : Prop :=
  g.Mixes P ∨ ∃ c ∈ cs, ∃ pq ∈ c.interface.exclusive,
    g.Holds P (c.name, pq.1) ∧ g.Holds P (c.name, pq.2)

theorem Conflicts.mono {cs : List Component} (h : Conflicts cs g P) (hPQ : ∀ i, P i → Q i) :
    Conflicts cs g Q := by
  rcases h with ⟨i, j, r, s, hi, hj, h⟩ | ⟨c, hc, pq, hpq, ⟨i, r, hi, hr⟩, j, s, hj, hs⟩
  · exact Or.inl ⟨i, j, r, s, hPQ i hi, hPQ j hj, h⟩
  · exact Or.inr ⟨c, hc, pq, hpq, ⟨i, r, hPQ i hi, hr⟩, j, s, hPQ j hj, hs⟩

theorem one_lt_length_eraseDups_iff {α : Type} [BEq α] [LawfulBEq α] {xs : List α} :
    1 < xs.eraseDups.length ↔ ∃ x ∈ xs, ∃ y ∈ xs, x ≠ y := by
  have hnodup := nodup_eraseDups xs
  have hmem : ∀ x, x ∈ xs.eraseDups ↔ x ∈ xs := fun x => List.mem_eraseDups
  simp only [← hmem]
  rcases hx : xs.eraseDups with _ | ⟨x, _ | ⟨y, ys⟩⟩
  · simp
  · simp
  · rw [hx] at hnodup
    refine iff_of_true (by simp) ⟨x, by simp, y, by simp, ?_⟩
    exact fun hxy => (List.nodup_cons.mp hnodup).1 (hxy ▸ List.mem_cons_self)

theorem one_lt_length_domains_iff : 1 < (g.domains is).length ↔ g.Mixes (· ∈ is) := by
  rw [domains, one_lt_length_eraseDups_iff]
  constructor
  · rintro ⟨d, hd, e, he, hde⟩
    obtain ⟨i, hi, hid⟩ := List.mem_filterMap.mp hd
    obtain ⟨j, hj, hje⟩ := List.mem_filterMap.mp he
    obtain ⟨r, hr, rfl⟩ := Option.map_eq_some_iff.mp hid
    obtain ⟨s, hs, rfl⟩ := Option.map_eq_some_iff.mp hje
    exact ⟨i, j, r, s, hi, hj, hr, hs, hde⟩
  · rintro ⟨i, j, r, s, hi, hj, hr, hs, hrs⟩
    exact ⟨r.domain, List.mem_filterMap.mpr ⟨i, hi, by rw [hr]; rfl⟩,
      s.domain, List.mem_filterMap.mpr ⟨j, hj, by rw [hs]; rfl⟩, hrs⟩

theorem hasPort_iff {n p : String} : g.hasPort is n p ↔ g.Holds (· ∈ is) (n, p) := by
  rw [hasPort, List.any_eq_true]
  constructor
  · rintro ⟨i, hi, hp⟩
    rcases hr : g.records[i]? with _ | r <;> simp only [hr, Option.map_none, Option.map_some,
      Option.getD_none, Option.getD_some, Bool.false_eq_true, Bool.and_eq_true, beq_iff_eq] at hp
    exact ⟨i, r, hi, hr, Prod.ext hp.1 hp.2⟩
  · rintro ⟨i, r, hi, hr, hkey⟩
    obtain ⟨hn, hp⟩ := Prod.mk.inj hkey
    exact ⟨i, hi, by simp [hr, hn, hp]⟩

theorem Sound.exclusive?_eq_none_iff (h : Sound root rank g) :
    g.exclusive? is = none ↔ ¬ ∃ c ∈ g.components, ∃ pq ∈ c.interface.exclusive,
      g.Holds (· ∈ is) (c.name, pq.1) ∧ g.Holds (· ∈ is) (c.name, pq.2) := by
  have hname : ∀ n, n ∈ Component.sortNames (is.filterMap fun i =>
      g.records[i]?.map ConnectorRecord.component) ↔ ∃ p, g.Holds (· ∈ is) (n, p) := by
    intro n
    rw [Component.sortNames, mem_sortedByText, List.mem_eraseDups, List.mem_filterMap]
    constructor
    · rintro ⟨i, hi, hn⟩
      obtain ⟨r, hr, rfl⟩ := Option.map_eq_some_iff.mp hn
      exact ⟨r.port, i, r, hi, hr, rfl⟩
    · rintro ⟨p, i, r, hi, hr, hkey⟩
      exact ⟨i, hi, by rw [hr, ← (Prod.mk.inj hkey).1]; rfl⟩
  rw [exclusive?, List.findSome?_eq_none_iff]
  constructor
  · rintro hnone ⟨c, hc, pq, hpq, hp, hq⟩
    have hn := hnone c.name ((hname _).mpr ⟨_, hp⟩)
    rw [h.component?_eq_some_iff.mpr ⟨hc, rfl⟩] at hn
    rw [Option.bind_eq_bind, Option.bind_some, Option.bind_eq_bind, Option.bind_eq_none_iff] at hn
    have hnot := List.find?_eq_none.mp (Option.eq_none_iff_forall_ne_some.mpr fun r hr =>
      absurd (hn r hr) (by simp)) pq hpq
    simp only [Bool.and_eq_true, not_and] at hnot
    exact hnot (hasPort_iff.mpr hp) (hasPort_iff.mpr hq)
  · intro hno n _
    rcases hc : g.component? n with _ | c
    · rfl
    · obtain ⟨hmem, rfl⟩ := h.component?_eq_some_iff.mp hc
      rw [Option.bind_eq_bind, Option.bind_some, Option.bind_eq_bind, Option.bind_eq_none_iff]
      intro pq hpq
      have hports := List.find?_some hpq
      simp only [Bool.and_eq_true, hasPort_iff] at hports
      exact absurd ⟨c, hmem, pq, List.mem_of_find?_eq_some hpq, hports⟩ hno

theorem Sound.conflict?_eq_none_iff (h : Sound root rank g) :
    g.conflict? is = none ↔ ¬ Conflicts g.components g (· ∈ is) := by
  rw [conflict?, Conflicts, not_or, ← one_lt_length_domains_iff, ← h.exclusive?_eq_none_iff]
  split
  · next hlen => simp [hlen]
  · next hlen => simp [hlen]

theorem kind_of_conflict? {e : ModelError} (h : g.conflict? is = some e) :
    e.kind = .connection := by
  rw [conflict?] at h
  split at h
  · obtain rfl := Option.some.inj h
    rfl
  · obtain ⟨⟨c, p, q⟩, -, rfl⟩ := Option.map_eq_some_iff.mp h
    rfl

/-! ### Connecting -/

/-- The records in the classes of the listed ones. -/
def Touched (root : Nat → Nat) (n : Nat) (is : List Nat) (i : Nat) : Prop :=
  i < n ∧ ∃ a ∈ is, root i = root a

theorem Sound.withForest (h : Sound root rank g) {f : Forest}
    (hf : f.Ranked g.size root' rank') : Sound root' rank' { g with forest := f } :=
  ⟨hf, h.nodup_keys, h.nodup_names, h.owner⟩

theorem Registered.withForest (x : Registered root ts g g') {f : Forest}
    (hf : f.Ranked g'.size root rank) : Registered root ts g { g' with forest := f } := by
  obtain ⟨_, h⟩ := x.sound
  exact ⟨⟨_, h.withForest hf⟩, ⟨x.grows.records, x.grows.components⟩, x.records, x.components,
    x.known⟩

/-- What comes of a connection. Its group is registered first. -/
inductive Connection (root : Nat → Nat) (ts : List Terminal) (g : ConnectionGraph) :
    Except ModelError Nat × ConnectionGraph → Prop
  | unregistered {e : ModelError} {g' : ConnectionGraph} : Registered root ts g g' →
      e.kind = .definition → (∃ t ∈ ts, g.indexOf? t = none ∧ g.Unfit ts t) →
      Connection root ts g (.error e, g')
  | tooFew {e : ModelError} {g' : ConnectionGraph} {is : List Nat} : Registered root ts g g' →
      Names g' ts is → is.length < 2 → e.kind = .definition → Connection root ts g (.error e, g')
  | conflicting {e : ModelError} {g' : ConnectionGraph} {is : List Nat} {f : Forest}
      {rank' : Nat → Nat} : addGroup ts g = (.ok is, g') → Registered root ts g g' →
      Names g' ts is → 2 ≤ is.length → Conflicts g'.components g' (Touched root g'.size is) →
      e.kind = .connection → f.Ranked g'.size root rank' →
      Connection root ts g (.error e, { g' with forest := f })
  | joined {n : Nat} {g' : ConnectionGraph} {is : List Nat} {f : Forest} {root' rank' : Nat → Nat} :
      addGroup ts g = (.ok is, g') → Registered root ts g g' → Names g' ts is → 2 ≤ is.length →
      ¬ Conflicts g'.components g' (Touched root g'.size is) →
      Sound root' rank' { g' with forest := f } → Forest.Joins root root' is →
      Connection root ts g (.ok n, { g' with forest := f })

theorem Names.lt (hnames : Names g ts is) (h : Sound root rank g) {i : Nat} (hi : i ∈ is) :
    i < g.size := by
  obtain ⟨t, -, ht⟩ := hnames.mem_iff.mp hi
  obtain ⟨r, hr, -⟩ := h.index?_eq_some_iff.mp ht
  exact lt_of_getElem? hr

theorem Sound.connection (h : Sound root rank g) (ts : List Terminal) :
    Connection root ts g (connect ts g) := by
  have hgroup := h.groupRegistration ts
  rw [connect]
  rcases hrun : addGroup ts g with ⟨e | is, g'⟩ <;> rw [hrun] at hgroup
  · rw [Wiring.bind_of_error hrun]
    cases hgroup with
    | refused x hkind hnone => exact .unregistered x hkind hnone
  · rw [Wiring.bind_of_ok hrun]
    cases hgroup with
    | ok x hnames =>
      obtain ⟨rank', h'⟩ := x.sound
      rcases is with _ | ⟨i, _ | ⟨j, js⟩⟩
      · exact .tooFew x hnames (by simp) rfl
      · exact .tooFew x hnames (by simp) rfl
      · obtain ⟨hroots, hf⟩ := h'.ranked.findAll (i :: j :: js)
        rcases hall : g'.forest.findAll (i :: j :: js) with ⟨roots, f⟩
        rw [hall] at hroots hf
        obtain ⟨hmembers, hf'⟩ := hf.members roots
        rcases hmem : f.members roots with ⟨members, f'⟩
        rw [hmem] at hmembers hf'
        have hconflict : g'.conflict? members = none ↔
            ¬ Conflicts g'.components g' (· ∈ members) := h'.conflict?_eq_none_iff
        have htouched : (· ∈ members) = Touched root g'.size (i :: j :: js) := by
          funext k
          dsimp only at hmembers hroots
          rw [hmembers, hroots, List.mem_filter, List.mem_range, List.contains_iff_mem,
            List.mem_map]
          simp only [Touched, eq_comm]
        rw [htouched] at hconflict
        simp only [Wiring.get_bind, hall, hmem, Wiring.set_bind]
        rcases hc : g'.conflict? members with _ | e
        · obtain ⟨root'', rank'', hf'', hjoin⟩ := hf'.unionAll
            (hnames.lt h' List.mem_cons_self) fun k hk => hnames.lt h' (List.mem_cons_of_mem i hk)
          exact .joined hrun x hnames (by simp) (hconflict.mp hc) (h'.withForest hf'') hjoin
        · have hconflict := not_imp_comm.mp hconflict.mpr (by simp [hc])
          exact .conflicting hrun x hnames (by simp) hconflict (kind_of_conflict? hc) hf'

end ConnectionGraph

end Flange

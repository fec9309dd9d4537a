import Mathlib.Data.Finset.Max
import Mathlib.Data.List.Sort
import Mathlib.Logic.Relation
import Flange.Graph.Blocks
import Flange.Proofs.Lists

/-! # Blocks are the components in order

Every node stands in exactly one block, and no edge leads from a later block to an earlier one.
There is always a next block to take: the one whose members are reached from the fewest nodes.
-/

namespace Flange

namespace Digraph

variable {g : Digraph} {u v w : Nat}

def Edge (g : Digraph) (u v : Nat) : Prop := (u, v) ∈ g.edges

def Reaches (g : Digraph) : Nat → Nat → Prop := Relation.ReflTransGen g.Edge

/-- Edges lead from nodes to nodes. -/
def Closed (g : Digraph) : Prop := ∀ {u v}, g.Edge u v → u ∈ g.nodes ∧ v ∈ g.nodes

theorem mem_successors : v ∈ g.successors u ↔ g.Edge u v := by
  simp [successors, Edge]

theorem Reaches.mem_nodes (hg : g.Closed) (h : g.Reaches u v) (hu : u ∈ g.nodes) :
    v ∈ g.nodes := by
  induction h with
  | refl => exact hu
  | tail _ he => exact (hg he).2

/-! ### Reachability -/

/-- What is seen is reached from `u`, and what is not on the frontier has its successors seen. -/
structure Seen (g : Digraph) (u : Nat) (frontier seen : List Nat) : Prop where
  nodup : seen.Nodup
  reached : ∀ v ∈ seen, g.Reaches u v
  subset : frontier ⊆ seen
  closed : ∀ v ∈ seen, v ∉ frontier → g.successors v ⊆ seen

theorem Seen.step {frontier seen : List Nat} (h : Seen g u frontier seen) :
    let new := ((frontier.flatMap g.successors).filter fun v => !seen.contains v).eraseDups
    Seen g u new (seen ++ new) := by
  intro new
  have hnew : ∀ {v}, v ∈ new ↔ (∃ w ∈ frontier, g.Edge w v) ∧ v ∉ seen := by
    simp [new, mem_successors]
  refine ⟨?_, ?_, List.subset_append_right _ _, ?_⟩
  · rw [List.nodup_append]
    exact ⟨h.nodup, nodup_eraseDups _, fun v hv w hw hvw => (hnew.mp hw).2 (hvw ▸ hv)⟩
  · intro v hv
    rcases List.mem_append.mp hv with hv | hv
    · exact h.reached v hv
    · obtain ⟨⟨w, hw, he⟩, -⟩ := hnew.mp hv
      exact (h.reached w (h.subset hw)).tail he
  · intro v hv hvn w hw
    have hvs : v ∈ seen := (List.mem_append.mp hv).resolve_right hvn
    by_cases hws : w ∈ seen
    · exact List.mem_append_left _ hws
    · by_cases hvf : v ∈ frontier
      · exact List.mem_append_right _ (hnew.mpr ⟨⟨v, hvf, mem_successors.mp hw⟩, hws⟩)
      · exact List.mem_append_left _ (h.closed v hvs hvf hw)

theorem reachFrom_seen (hg : g.Closed) (hu : u ∈ g.nodes) : ∀ {n : Nat}
    {frontier seen : List Nat}, Seen g u frontier seen → g.nodes.length < n + seen.length →
      Seen g u [] (g.reachFrom n frontier seen) ∧ seen ⊆ g.reachFrom n frontier seen
  | 0, frontier, seen, h, hf => by
    have hle : seen.length ≤ g.nodes.length :=
      (h.nodup.subperm fun v hv => (h.reached v hv).mem_nodes hg hu).length_le
    omega
  | fuel + 1, frontier, seen, h, hf => by
    have hstep := h.step
    simp only [reachFrom]
    generalize ((frontier.flatMap g.successors).filter fun v => !seen.contains v).eraseDups = new
      at hstep
    rcases new with _ | ⟨v, new⟩
    · simpa using hstep
    · have hlen : g.nodes.length < fuel + (seen ++ v :: new).length := by simp; omega
      obtain ⟨hs, hsub⟩ := reachFrom_seen hg hu hstep hlen
      exact ⟨hs, fun w hw => hsub (List.mem_append_left _ hw)⟩

theorem mem_reach (hg : g.Closed) (hu : u ∈ g.nodes) : v ∈ g.reach u ↔ g.Reaches u v := by
  have hstart : Seen g u [u] [u] :=
    ⟨by simp, by simp [Reaches, Relation.ReflTransGen.refl], fun _ h => h, by simp⟩
  obtain ⟨h, hsub⟩ := reachFrom_seen hg hu hstart (n := g.nodes.length) (by simp)
  refine ⟨h.reached v, fun hv => ?_⟩
  induction hv with
  | refl => exact hsub (by simp)
  | tail _ he ih => exact h.closed _ ih (by simp) (mem_successors.mpr he)

theorem nodup_reach (hg : g.Closed) (hu : u ∈ g.nodes) : (g.reach u).Nodup := by
  have hstart : Seen g u [u] [u] :=
    ⟨by simp, by simp [Reaches, Relation.ReflTransGen.refl], fun _ h => h, by simp⟩
  exact (reachFrom_seen hg hu hstart (by simp)).1.nodup

/-! ### Components -/

/-- The nodes that reach `u` and are reached from it. -/
def component (g : Digraph) (u : Nat) : List Nat :=
  sorted ((g.reach u).filter fun v => (g.reach v).contains u)

theorem mem_component (hg : g.Closed) (hu : u ∈ g.nodes) :
    v ∈ g.component u ↔ g.Reaches u v ∧ g.Reaches v u := by
  simp only [component, sorted, mem_sortedBy, List.mem_filter, mem_reach hg hu,
    List.contains_iff_mem]
  exact and_congr_right fun h => mem_reach hg (h.mem_nodes hg hu)

theorem self_mem_component (hg : g.Closed) (hu : u ∈ g.nodes) : u ∈ g.component u :=
  (mem_component hg hu).mpr ⟨.refl, .refl⟩

theorem nodup_component (hg : g.Closed) (hu : u ∈ g.nodes) : (g.component u).Nodup :=
  (sortedBy_perm _ _).nodup_iff.mpr ((nodup_reach hg hu).filter _)

theorem sorted_pairwise (xs : List Nat) : (sorted xs).Pairwise (· ≤ ·) := by
  have h := sortedBy_pairwise (r := fun a b : Nat => decide (a ≤ b))
    (fun x y => by simpa using Nat.le_total x y)
    (fun hxy hyz => by simpa using Nat.le_trans (by simpa using hxy) (by simpa using hyz)) xs
  exact h.imp fun h => by simpa using h

/-- Components with a common node are the same. -/
theorem component_eq (hg : g.Closed) (hu : u ∈ g.nodes) (hv : v ∈ g.component u) :
    g.component v = g.component u := by
  obtain ⟨huv, hvu⟩ := (mem_component hg hu).mp hv
  have hvn := huv.mem_nodes hg hu
  refine List.Perm.eq_of_pairwise' (r := (· ≤ ·)) (sorted_pairwise _) (sorted_pairwise _) ?_
  rw [List.perm_ext_iff_of_nodup (nodup_component hg hvn) (nodup_component hg hu)]
  intro w
  rw [mem_component hg hvn, mem_component hg hu]
  exact ⟨fun h => ⟨huv.trans h.1, h.2.trans hvu⟩, fun h => ⟨hvu.trans h.1, h.2.trans huv⟩⟩

theorem lookup_map_pair {α : Type} (f : Nat → α) : ∀ {xs : List Nat}, u ∈ xs →
    (xs.map fun x => (x, f x)).lookup u = some (f u)
  | x :: xs, h => by
    rw [List.map_cons, List.lookup_cons]
    by_cases hux : u = x
    · simp [hux]
    · simpa [beq_false_of_ne hux] using
        lookup_map_pair f ((List.mem_cons.mp h).resolve_left hux)

theorem components_eq (hg : g.Closed) :
    g.components = ((sorted g.nodes).map g.component).eraseDups := by
  simp only [components, List.map_map]
  congr 1
  refine List.map_congr_left fun u hu => ?_
  simp only [Function.comp_apply, component]
  congr 1
  refine List.filter_congr fun v hv => ?_
  have hun : u ∈ g.nodes := by simpa [sorted] using hu
  have hvn : v ∈ sorted g.nodes := by
    simpa [sorted] using ((mem_reach hg hun).mp hv).mem_nodes hg hun
  rw [lookup_map_pair g.reach hvn, Option.getD_some]

theorem mem_components (hg : g.Closed) {c : List Nat} :
    c ∈ g.components ↔ ∃ u ∈ g.nodes, g.component u = c := by
  simp [components_eq hg, sorted]

/-! ### Order -/

/-- The nodes that reach `u`. -/
def above (g : Digraph) (u : Nat) : Finset Nat :=
  g.nodes.toFinset.filter fun v => u ∈ g.reach v

theorem mem_above (hg : g.Closed) : v ∈ g.above u ↔ v ∈ g.nodes ∧ g.Reaches v u := by
  simp only [above, Finset.mem_filter, List.mem_toFinset]
  exact and_congr_right fun h => mem_reach hg h

/-- Of some components one is entered by no edge from another. -/
theorem exists_ready (hg : g.Closed) {cs : List (List Nat)} (hcs : cs ⊆ g.components)
    (hne : cs ≠ []) : ∃ c, cs.find? (g.ready cs.flatten) = some c := by
  have hnode : ∀ {u}, u ∈ cs.flatten → u ∈ g.nodes ∧ g.component u ∈ cs := by
    intro u hu
    obtain ⟨c, hc, huc⟩ := List.mem_flatten.mp hu
    obtain ⟨v, hv, rfl⟩ := (mem_components hg).mp (hcs hc)
    exact ⟨((mem_component hg hv).mp huc).1.mem_nodes hg hv, component_eq hg hv huc ▸ hc⟩
  have hsome : cs.flatten.toFinset.Nonempty := by
    obtain ⟨c, hc⟩ := List.exists_mem_of_ne_nil cs hne
    obtain ⟨u, hu, rfl⟩ := (mem_components hg).mp (hcs hc)
    exact ⟨u, List.mem_toFinset.mpr (List.mem_flatten.mpr ⟨_, hc, self_mem_component hg hu⟩)⟩
  obtain ⟨u, hu, hmin⟩ := Finset.exists_min_image cs.flatten.toFinset (fun u => (g.above u).card)
    hsome
  obtain ⟨hun, huc⟩ := hnode (List.mem_toFinset.mp hu)
  have hready : g.ready cs.flatten (g.component u) = true := by
    simp only [ready, List.all_eq_true, Bool.not_eq_true', Bool.and_eq_false_iff]
    rintro ⟨p, q⟩ he
    by_contra hn
    obtain ⟨hq, hp, hw⟩ : q ∈ g.component u ∧ p ∉ g.component u ∧ p ∈ cs.flatten := by
      simpa [and_assoc] using hn
    obtain ⟨huq, hqu⟩ := (mem_component hg hun).mp hq
    have hpu : g.Reaches p u := Relation.ReflTransGen.head he hqu
    have hlt : g.above p ⊂ g.above u := by
      rw [Finset.ssubset_iff_of_subset]
      · refine ⟨u, (mem_above hg).mpr ⟨hun, .refl⟩, fun hup => ?_⟩
        exact hp ((mem_component hg hun).mpr ⟨((mem_above hg).mp hup).2, hpu⟩)
      · intro v hv
        obtain ⟨hvn, hvp⟩ := (mem_above hg).mp hv
        exact (mem_above hg).mpr ⟨hvn, hvp.trans hpu⟩
    have := hmin p (List.mem_toFinset.mpr hw)
    have := Finset.card_lt_card hlt
    omega
  rcases hf : cs.find? (g.ready cs.flatten) with _ | c
  · simp [List.find?_eq_none.mp hf _ huc] at hready
  · exact ⟨c, rfl⟩

theorem order_perm (hg : g.Closed) : ∀ {fuel : Nat} {cs : List (List Nat)}, cs ⊆ g.components →
    cs.length ≤ fuel → (g.order fuel cs).Perm cs
  | 0, cs, _, hf => by
    obtain rfl := List.length_eq_zero_iff.mp (Nat.le_zero.mp hf)
    exact .refl _
  | fuel + 1, cs, hcs, hf => by
    rw [order]
    rcases cs with _ | ⟨d, ds⟩
    · simp
    · obtain ⟨c, hc⟩ := exists_ready hg hcs (by simp)
      have hmem := List.mem_of_find?_eq_some hc
      have hlen := List.length_erase_of_mem hmem
      rw [hc]
      exact ((order_perm hg (fun d hd => hcs (List.erase_subset hd))
        (by simp at hlen hf ⊢; omega)).cons
        c).trans (List.perm_cons_erase hmem).symm

theorem order_subset : ∀ (fuel : Nat) (cs : List (List Nat)), g.order fuel cs ⊆ cs
  | 0, _ => List.nil_subset _
  | fuel + 1, cs => by
    rw [order]
    split
    · exact List.nil_subset _
    · next c hc =>
      exact List.cons_subset.mpr ⟨List.mem_of_find?_eq_some hc,
        fun d hd => List.erase_subset (order_subset fuel _ hd)⟩

theorem order_pairwise : ∀ (fuel : Nat) (cs : List (List Nat)),
    (g.order fuel cs).Pairwise fun c d => ∀ u ∈ d, ∀ v ∈ c, g.Edge u v → u ∈ c
  | 0, _ => .nil
  | fuel + 1, cs => by
    rw [order]
    split
    · exact .nil
    · next c hc =>
      refine List.pairwise_cons.mpr ⟨fun d hd u hu v hv he => ?_, order_pairwise fuel _⟩
      have hready := List.find?_some hc
      simp only [ready, List.all_eq_true] at hready
      have hw : u ∈ cs.flatten :=
        List.mem_flatten.mpr ⟨d, List.erase_subset (order_subset fuel _ hd), hu⟩
      by_contra hn
      simpa [hv, hn, hw] using hready (u, v) he

/-! ### Blocks -/

theorem blocks_perm (hg : g.Closed) : g.blocks.Perm g.components :=
  order_perm hg (List.Subset.refl _) (Nat.le_refl _)

theorem mem_blocks (hg : g.Closed) {c : List Nat} :
    c ∈ g.blocks ↔ ∃ u ∈ g.nodes, g.component u = c :=
  (blocks_perm hg).mem_iff.trans (mem_components hg)

theorem mem_flatten_blocks (hg : g.Closed) : u ∈ g.blocks.flatten ↔ u ∈ g.nodes := by
  rw [List.mem_flatten]
  constructor
  · rintro ⟨c, hc, hu⟩
    obtain ⟨v, hv, rfl⟩ := (mem_blocks hg).mp hc
    exact ((mem_component hg hv).mp hu).1.mem_nodes hg hv
  · exact fun hu => ⟨_, (mem_blocks hg).mpr ⟨u, hu, rfl⟩, self_mem_component hg hu⟩

theorem blocks_disjoint (hg : g.Closed) : g.blocks.Pairwise fun c d => ∀ u ∈ c, u ∉ d := by
  have hnodup : g.blocks.Nodup :=
    (blocks_perm hg).nodup_iff.mpr (components_eq hg ▸ nodup_eraseDups _)
  refine hnodup.imp_of_mem fun {c d} hc hd hne u huc hud => hne ?_
  obtain ⟨v, hv, rfl⟩ := (mem_blocks hg).mp hc
  obtain ⟨w, hw, rfl⟩ := (mem_blocks hg).mp hd
  exact (component_eq hg hv huc).symm.trans (component_eq hg hw hud)

theorem nodup_flatten_blocks (hg : g.Closed) : g.blocks.flatten.Nodup := by
  rw [List.nodup_flatten]
  refine ⟨fun c hc => ?_, (blocks_disjoint hg).imp fun h u hc hd => h u hc hd⟩
  obtain ⟨u, hu, rfl⟩ := (mem_blocks hg).mp hc
  exact nodup_component hg hu

/-- No edge leads from a later block to an earlier one. -/
theorem blocks_ordered (hg : g.Closed) :
    g.blocks.Pairwise fun c d => ∀ u ∈ d, ∀ v ∈ c, ¬ g.Edge u v :=
  ((order_pairwise _ _).and (blocks_disjoint hg)).imp fun h u hu v hv he =>
    h.2 u (h.1 u hu v hv he) hu

end Digraph

end Flange

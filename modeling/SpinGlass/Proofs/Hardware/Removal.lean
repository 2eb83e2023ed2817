import SpinGlass.Proofs.Hardware.Target
import Mathlib.Combinatorics.Enumerative.DoubleCounting
import Mathlib.Data.List.TFAE

/-!
# Removing qubits from a graph

A graph is known by its couplers: building it from other edges with the same couplers gives the
same graph, slots included. So removing qubits leaves the couplers without them, in all the forms in
which a graph can be asked for them, and removing more of them later is as good as removing all at
once.
-/

namespace SpinGlass

/-- A sorted list is known by its members. -/
theorem sortDistinct_congr {α : Type} [Ord α] [Std.TransOrd α] [Std.LawfulEqOrd α] {xs ys : List α}
    (h : ∀ x, x ∈ xs ↔ x ∈ ys) : sortDistinct xs = sortDistinct ys := by
  have hperm : (sortDistinct xs).Perm (sortDistinct ys) :=
    (List.perm_ext_iff_of_nodup (nodup_sortDistinct xs) (nodup_sortDistinct ys)).mpr fun x => by
      rw [mem_sortDistinct, mem_sortDistinct, h]
  refine hperm.eq_of_pairwise (fun x y _ _ hxy hyx => ?_) (pairwise_sortDistinct xs)
    (pairwise_sortDistinct ys)
  have hirrefl := Std.TransCmp.lt_trans hxy hyx
  simp at hirrefl

theorem Pair.of_eq_min_max (a b : Nat) : of a b = ⟨min a b, max a b⟩ := by
  unfold of
  split
  · next hlt => rw [Nat.min_eq_left hlt.le, Nat.max_eq_right hlt.le]
  · next hge => rw [Nat.min_eq_right (Nat.not_lt.mp hge), Nat.max_eq_left (Nat.not_lt.mp hge)]

namespace Target

section Counting

variable {t : Target}

/-- The neighbours of a slot with a property, as a set of slots. -/
theorem Lawful.length_filter_neighborSlots (h : t.Lawful) (s : Nat) (p : Nat → Bool) :
    ((t.neighborSlots s).filter p).length =
      ((Finset.range t.size).filter fun u => u ∈ t.neighborSlots s ∧ p u = true).card := by
  have hnodup : (t.neighborSlots s).Nodup := (h.sorted s).imp fun hlt => by omega
  rw [← List.toFinset_card_of_nodup (hnodup.filter p)]
  congr 1
  ext u
  simp only [List.mem_toFinset, List.mem_filter, Finset.mem_filter, Finset.mem_range]
  exact ⟨fun hu => ⟨h.lt_size s u hu.1, hu⟩, And.right⟩

/-- A coupler is met once from below and once from above. -/
theorem Lawful.sum_length_filter_lt (h : t.Lawful) :
    ∑ s ∈ Finset.range t.size, ((t.neighborSlots s).filter (s < ·)).length =
      ∑ u ∈ Finset.range t.size, ((t.neighborSlots u).filter (· < u)).length := by
  have hswap : ∀ u, ((Finset.range t.size).filter fun s => s ∈ t.neighborSlots u ∧ s < u) =
      (Finset.range t.size).bipartiteBelow (fun s u => u ∈ t.neighborSlots s ∧ s < u) u := by
    intro u
    refine Finset.filter_congr fun s _ => and_congr_left fun _ => ⟨h.symm u s, h.symm s u⟩
  simp only [h.length_filter_neighborSlots, decide_eq_true_eq, hswap]
  exact Finset.sum_card_bipartiteAbove_eq_sum_card_bipartiteBelow _

/-- A slot's neighbours are above it or below it. -/
theorem Lawful.length_neighborSlots (h : t.Lawful) (s : Nat) :
    (t.neighborSlots s).length = ((t.neighborSlots s).filter (s < ·)).length +
      ((t.neighborSlots s).filter (· < s)).length := by
  have hnot : (t.neighborSlots s).filter (fun u => !decide (s < u)) =
      (t.neighborSlots s).filter (· < s) := by
    refine List.filter_congr fun u hu => ?_
    have hne : u ≠ s := fun heq => h.irrefl s (heq ▸ hu)
    simp only [← decide_not, decide_eq_decide]
    omega
  rw [← hnot]
  exact List.length_eq_length_filter_add _

/-- The lists of neighbours have every coupler twice. -/
theorem Lawful.length_edges (h : t.Lawful) (hsize : t.adjacency.size = t.size) :
    t.edges.length = t.edgeCount := by
  have hflatten : t.adjacency.toList.flatten.length =
      ∑ s ∈ Finset.range t.size, (t.neighborSlots s).length := by
    have hlists : t.adjacency.toList = (List.range t.size).map t.neighborSlots := by
      refine List.ext_getElem (by simp [hsize]) fun s hs _ => ?_
      simp only [Array.length_toList] at hs
      simp [neighborSlots, hs]
    rw [hlists, List.length_flatten, List.map_map]
    rfl
  have hedges : t.edges.length =
      ∑ s ∈ Finset.range t.size, ((t.neighborSlots s).filter (s < ·)).length := by
    rw [edges, List.length_flatMap]
    simp only [List.length_map]
    rfl
  have htwice : t.adjacency.toList.flatten.length = t.edges.length + t.edges.length := by
    rw [hflatten, Finset.sum_congr rfl fun s _ => h.length_neighborSlots s, Finset.sum_add_distrib,
      ← h.sum_length_filter_lt, ← hedges]
  rw [edgeCount, htwice]
  omega

end Counting

section Couplers

variable {t : Target} {edges edges' : List (Nat × Nat)} {a b : Nat}

/-- A graph with more couplers is built from more of them. -/
theorem couplersOf_subset
    (h : ∀ a b, (ofEdges edges).hasEdge a b = true → (ofEdges edges').hasEdge a b = true) :
    couplersOf edges ⊆ couplersOf edges' := by
  intro e he
  have hof : Pair.of e.lo e.hi = e := Pair.of_of_lt (lo_lt_hi_of_mem_couplersOf e he)
  rw [← hof] at he ⊢
  rw [of_mem_couplersOf_iff, ← hasEdge_ofEdges_iff] at he ⊢
  exact h _ _ he

/-- Graphs with the same couplers are the same, slots included. -/
theorem ofEdges_ext
    (h : ∀ a b, (ofEdges edges).hasEdge a b = true ↔ (ofEdges edges').hasEdge a b = true) :
    ofEdges edges = ofEdges edges' := by
  have hmem : ∀ e, e ∈ couplersOf edges ↔ e ∈ couplersOf edges' := fun e =>
    ⟨fun he => couplersOf_subset (fun a b => (h a b).mp) he,
      fun he => couplersOf_subset (fun a b => (h a b).mpr) he⟩
  have hcouplers : couplersOf edges = couplersOf edges' := by
    simp only [couplersOf, mem_sortDistinct] at hmem
    exact sortDistinct_congr hmem
  unfold couplersOf at hcouplers
  unfold ofEdges
  rw [hcouplers]

/-- Removing qubits leaves the couplers without them. -/
theorem Lawful.hasEdge_withoutQubits_iff (h : t.Lawful) {removed : List Nat} :
    (t.withoutQubits removed).hasEdge a b = true ↔
      t.hasEdge a b = true ∧ a ∉ removed ∧ b ∉ removed := by
  have hbuilt : (t.withoutQubits removed).hasEdge a b = true ↔ _ := hasEdge_ofEdges_iff
  rw [hbuilt]
  simp only [List.mem_filter, h.mem_edges_iff, Bool.and_eq_true, Bool.not_eq_true',
    List.contains_eq_mem, decide_eq_false_iff_not]
  constructor
  · rintro ⟨_, ⟨⟨_, hedge⟩, ha, hb⟩ | ⟨⟨_, hedge⟩, hb, ha⟩⟩
    · exact ⟨hedge, ha, hb⟩
    · exact ⟨h.hasEdge_symm hedge, ha, hb⟩
  · rintro ⟨hedge, ha, hb⟩
    have hne := h.ne_of_hasEdge hedge
    refine ⟨hne, ?_⟩
    rcases Nat.lt_or_gt_of_ne hne with hlt | hgt
    · exact .inl ⟨⟨hlt, hedge⟩, ha, hb⟩
    · exact .inr ⟨⟨hgt, h.hasEdge_symm hedge⟩, hb, ha⟩

/-- Removing qubits one after the other is removing them all. -/
theorem Lawful.withoutQubits_withoutQubits (h : t.Lawful) (removed removed' : List Nat) :
    (t.withoutQubits removed).withoutQubits removed' = t.withoutQubits (removed ∪ removed') := by
  have hrest := lawful_withoutQubits t removed
  have hcouplers : ∀ a b,
      ((t.withoutQubits removed).withoutQubits removed').hasEdge a b = true ↔
        (t.withoutQubits (removed ∪ removed')).hasEdge a b = true := by
    intro a b
    rw [hrest.hasEdge_withoutQubits_iff, h.hasEdge_withoutQubits_iff,
      h.hasEdge_withoutQubits_iff, List.mem_union_iff, List.mem_union_iff]
    tauto
  have hbuilt := ofEdges_ext hcouplers
  unfold withoutQubits at hbuilt ⊢
  rw [hbuilt]

/-- The ends of the edges are the qubits that have a coupler. -/
theorem Lawful.exists_mem_edges_iff (h : t.Lawful) {q : Nat} :
    (∃ e ∈ t.edges, q = e.1 ∨ q = e.2) ↔ ∃ r, t.hasEdge q r = true := by
  constructor
  · rintro ⟨⟨a, b⟩, he, rfl | rfl⟩
    · exact ⟨b, (h.mem_edges_iff.mp he).2⟩
    · exact ⟨a, h.hasEdge_symm (h.mem_edges_iff.mp he).2⟩
  · rintro ⟨r, hedge⟩
    rcases Nat.lt_or_gt_of_ne (h.ne_of_hasEdge hedge) with hlt | hgt
    · exact ⟨(q, r), h.mem_edges_iff.mpr ⟨hlt, hedge⟩, .inl rfl⟩
    · exact ⟨(r, q), h.mem_edges_iff.mpr ⟨hgt, h.hasEdge_symm hedge⟩, .inr rfl⟩

/-- The qubits are listed in increasing order. -/
theorem Lawful.pairwise_qubits (h : t.Lawful) : t.qubits.toList.Pairwise (· < ·) := by
  refine List.pairwise_iff_getElem.mpr fun s u hs hu hlt => ?_
  simp only [Array.length_toList] at hs hu
  simpa [qubit, hs, hu] using h.qubit_lt s u hlt hu

/-- All forms in which a graph can be asked for a coupler agree, in both directions: two different
qubits are coupled if they are in the list that the graph was built from, and not removed. The list
of edges has each coupler once, with its lower end first, and the qubits are their ends, in
increasing order. More qubits can be removed later or at once. -/
theorem couplers_withoutQubits (edges : List (Nat × Nat)) (removed : List Nat) :
    let t := (ofEdges edges).withoutQubits removed
    (∀ a b, List.TFAE [t.hasEdge a b = true, t.hasEdge b a = true, b ∈ t.neighbors a,
      (min a b, max a b) ∈ t.edges,
      a ≠ b ∧ ((a, b) ∈ edges ∨ (b, a) ∈ edges) ∧ a ∉ removed ∧ b ∉ removed]) ∧
    (t.edges.Nodup ∧ (∀ e ∈ t.edges, e.1 < e.2) ∧ t.edges.length = t.edgeCount) ∧
    (t.qubits.toList.Pairwise (· < ·) ∧ ∀ q, q ∈ t.qubits ↔ ∃ e ∈ t.edges, q = e.1 ∨ q = e.2) ∧
    ∀ removed', t.withoutQubits removed' = (ofEdges edges).withoutQubits (removed ∪ removed') := by
  intro t
  have h : t.Lawful := lawful_withoutQubits _ _
  refine ⟨fun a b => ?_, ⟨h.nodup_edges, fun e he => (h.mem_edges_iff.mp he).1, ?_⟩,
    ⟨h.pairwise_qubits, fun q => ?_⟩, (lawful_ofEdges edges).withoutQubits_withoutQubits removed⟩
  · tfae_have 1 ↔ 2 := ⟨h.hasEdge_symm, h.hasEdge_symm⟩
    tfae_have 1 ↔ 3 := h.mem_neighbors_iff.symm
    tfae_have 1 ↔ 4 := by
      rw [← h.of_mem_edges_iff, Pair.of_eq_min_max]
    tfae_have 1 ↔ 5 := by
      rw [(lawful_ofEdges edges).hasEdge_withoutQubits_iff, hasEdge_ofEdges_iff, and_assoc]
    tfae_finish
  · exact h.length_edges (by simp [t, withoutQubits, ofEdges, size])
  · have hcontains : t.contains q = true ↔ ∃ r, t.hasEdge q r = true := contains_ofEdges_iff
    rw [h.exists_mem_edges_iff, ← hcontains]
    exact Array.contains_iff_mem.symm

end Couplers

end Target

end SpinGlass

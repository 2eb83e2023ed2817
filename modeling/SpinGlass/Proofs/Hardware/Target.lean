import SpinGlass.Hardware.Target
import SpinGlass.Proofs.Problem.Objective
import Mathlib.Combinatorics.SimpleGraph.Basic

/-!
# Target graphs as graphs

A target keeps its couplers as lists of neighbours between slots. However it is built, the qubits
are increasing and the lists are increasing, symmetric and without loops. Then the couplers are the
edges of a simple graph over qubits, and the list of edges has each of them once.
-/

namespace SpinGlass

namespace Target

/-- A target with increasing qubits and a symmetric list of neighbours for each. -/
structure Lawful (t : Target) : Prop where
  qubit_lt : ∀ s u, s < u → u < t.size → t.qubit s < t.qubit u
  lt_size : ∀ s, ∀ u ∈ t.neighborSlots s, u < t.size
  sorted : ∀ s, (t.neighborSlots s).Pairwise (· < ·)
  symm : ∀ s, ∀ u ∈ t.neighborSlots s, s ∈ t.neighborSlots u
  irrefl : ∀ s, s ∉ t.neighborSlots s

/-- The couplers of a target as the edges of a simple graph. -/
def graph (t : Target) : SimpleGraph Nat := .fromRel fun a b => t.hasEdge a b = true

theorem contains_iff {t : Target} {q : Nat} :
    t.contains q = true ↔ ∃ s < t.size, t.qubit s = q := by
  unfold contains
  rw [Array.contains_iff_mem, Array.mem_iff_getElem]
  constructor
  · rintro ⟨s, hs, rfl⟩
    exact ⟨s, hs, by simp [qubit, hs]⟩
  · rintro ⟨s, hs, rfl⟩
    have hs : s < t.qubits.size := hs
    exact ⟨s, hs, by simp [qubit, hs]⟩

/-- Where qubits are increasing, the slot of a qubit is its position. -/
theorem slot?_eq_some_iff_of_lt {t : Target}
    (hlt : ∀ s u, s < u → u < t.size → t.qubit s < t.qubit u) {q s : Nat} :
    t.slot? q = some s ↔ s < t.size ∧ t.qubit s = q := by
  have hget : ∀ k (hk : k < t.qubits.toList.length), t.qubits.toList[k] = t.qubit k := by
    intro k hk
    simp only [Array.length_toList] at hk
    simp [qubit, hk]
  have hlist : t.qubits.idxOf? q = List.idxOf? q t.qubits.toList :=
    List.idxOf?_toArray q t.qubits.toList
  unfold slot?
  rw [hlist, List.idxOf?_eq_some_iff]
  constructor
  · rintro ⟨hs, heq, _⟩
    exact ⟨by simpa [size] using hs, by rw [← heq, hget]⟩
  · rintro ⟨hs, rfl⟩
    refine ⟨by simpa [size] using hs, hget s _, fun k hk heq => ?_⟩
    have := hlt k s hk hs
    rw [hget] at heq
    omega

namespace Lawful

variable {t : Target} (h : t.Lawful)

include h

theorem qubit_inj {s u : Nat} (hs : s < t.size) (hu : u < t.size) (heq : t.qubit s = t.qubit u) :
    s = u := by
  rcases Nat.lt_trichotomy s u with hlt | hsu | hgt
  · have := h.qubit_lt s u hlt hu
    omega
  · exact hsu
  · have := h.qubit_lt u s hgt hs
    omega

theorem slot?_eq_some_iff {q s : Nat} : t.slot? q = some s ↔ s < t.size ∧ t.qubit s = q :=
  slot?_eq_some_iff_of_lt h.qubit_lt

/-- Two qubits are coupled if their slots are neighbours. -/
theorem hasEdge_iff {a b : Nat} :
    t.hasEdge a b = true ↔ ∃ s u, t.qubit s = a ∧ t.qubit u = b ∧ u ∈ t.neighborSlots s := by
  unfold hasEdge
  constructor
  · intro hedge
    split at hedge
    · next s u hs hu =>
      refine ⟨s, u, (h.slot?_eq_some_iff.mp hs).2, (h.slot?_eq_some_iff.mp hu).2, ?_⟩
      simpa using hedge
    · cases hedge
  · rintro ⟨s, u, rfl, rfl, hu⟩
    have hs := h.slot?_eq_some_iff.mpr ⟨h.lt_size u s (h.symm s u hu), rfl⟩
    have hu' := h.slot?_eq_some_iff.mpr ⟨h.lt_size s u hu, rfl⟩
    rw [hs, hu']
    simpa using hu

theorem hasEdge_symm {a b : Nat} (hedge : t.hasEdge a b = true) : t.hasEdge b a = true := by
  obtain ⟨s, u, hs, hu, hmem⟩ := h.hasEdge_iff.mp hedge
  exact h.hasEdge_iff.mpr ⟨u, s, hu, hs, h.symm s u hmem⟩

theorem ne_of_hasEdge {a b : Nat} (hedge : t.hasEdge a b = true) : a ≠ b := by
  rintro rfl
  obtain ⟨s, u, hs, hu, hmem⟩ := h.hasEdge_iff.mp hedge
  have heq : s = u :=
    h.qubit_inj (h.lt_size u s (h.symm s u hmem)) (h.lt_size s u hmem) (hs.trans hu.symm)
  exact h.irrefl u (heq ▸ hmem)

/-- The edges of the graph are the couplers. -/
theorem graph_adj {a b : Nat} : t.graph.Adj a b ↔ t.hasEdge a b = true := by
  rw [graph, SimpleGraph.fromRel_adj]
  constructor
  · rintro ⟨_, hedge | hedge⟩
    · exact hedge
    · exact h.hasEdge_symm hedge
  · exact fun hedge => ⟨h.ne_of_hasEdge hedge, .inl hedge⟩

/-- The neighbours of a qubit are those that it is coupled to. -/
theorem mem_neighbors_iff {q r : Nat} : r ∈ t.neighbors q ↔ t.hasEdge q r = true := by
  rw [h.hasEdge_iff]
  unfold neighbors
  constructor
  · intro hr
    split at hr
    · next s hs =>
      obtain ⟨u, hu, rfl⟩ := List.mem_map.mp hr
      exact ⟨s, u, (h.slot?_eq_some_iff.mp hs).2, rfl, hu⟩
    · cases hr
  · rintro ⟨s, u, rfl, rfl, hu⟩
    rw [h.slot?_eq_some_iff.mpr ⟨h.lt_size u s (h.symm s u hu), rfl⟩]
    exact List.mem_map_of_mem hu

/-- No neighbour is listed twice. -/
theorem nodup_neighbors (q : Nat) : (t.neighbors q).Nodup := by
  unfold neighbors
  split
  · next s _ =>
    refine List.Nodup.map_on (fun u hu u' hu' heq => ?_) ((h.sorted s).imp fun hlt => by omega)
    exact h.qubit_inj (h.lt_size s u hu) (h.lt_size s u' hu') heq
  · exact .nil

/-- The edges are the couplers, the lower end first. -/
theorem mem_edges_iff {a b : Nat} : (a, b) ∈ t.edges ↔ a < b ∧ t.hasEdge a b = true := by
  rw [h.hasEdge_iff]
  unfold edges
  simp only [List.mem_flatMap, List.mem_range, List.mem_map, List.mem_filter, decide_eq_true_eq,
    Prod.mk.injEq]
  constructor
  · rintro ⟨s, _, u, ⟨hu, hlt⟩, rfl, rfl⟩
    exact ⟨h.qubit_lt s u hlt (h.lt_size s u hu), s, u, rfl, rfl, hu⟩
  · rintro ⟨hab, s, u, rfl, rfl, hu⟩
    have hs := h.lt_size u s (h.symm s u hu)
    refine ⟨s, hs, u, ⟨hu, ?_⟩, rfl, rfl⟩
    rcases Nat.lt_trichotomy s u with hlt | rfl | hgt
    · exact hlt
    · exact absurd hu (h.irrefl s)
    · have := h.qubit_lt u s hgt hs
      omega

/-- Coupled qubits make an edge, in either order. -/
theorem of_mem_edges_iff {a b : Nat} :
    ((Pair.of a b).lo, (Pair.of a b).hi) ∈ t.edges ↔ t.hasEdge a b = true := by
  rw [h.mem_edges_iff]
  constructor
  · rintro ⟨_, hedge⟩
    unfold Pair.of at hedge
    split at hedge
    · exact hedge
    · exact h.hasEdge_symm hedge
  · intro hedge
    refine ⟨Pair.of_lo_lt_hi (h.ne_of_hasEdge hedge), ?_⟩
    unfold Pair.of
    split
    · exact hedge
    · exact h.hasEdge_symm hedge

/-- No edge is listed twice. -/
theorem nodup_edges : t.edges.Nodup := by
  unfold edges
  refine List.nodup_flatMap.mpr ⟨fun s hs => ?_, ?_⟩
  · refine List.Nodup.map_on (fun u hu u' hu' heq => ?_)
      (((h.sorted s).imp fun hlt => by omega).filter _)
    have hu := h.lt_size s u (List.mem_filter.mp hu).1
    have hu' := h.lt_size s u' (List.mem_filter.mp hu').1
    exact h.qubit_inj hu hu' (Prod.mk.inj heq).2
  · refine List.nodup_range.pairwise_of_forall_ne fun s hs s' hs' hne => ?_
    refine List.disjoint_left.mpr fun e he he' => ?_
    obtain ⟨u, _, rfl⟩ := List.mem_map.mp he
    obtain ⟨u', _, heq⟩ := List.mem_map.mp he'
    exact hne (h.qubit_inj (List.mem_range.mp hs') (List.mem_range.mp hs) (Prod.mk.inj heq).1).symm

end Lawful

section Builders

/-- A neighbour in a list of couplers is the other end of a coupler. -/
theorem mem_neighborsIn_iff {couplers : List Pair} (h : ∀ e ∈ couplers, e.lo < e.hi) {q r : Nat} :
    r ∈ neighborsIn couplers q ↔ q ≠ r ∧ .of q r ∈ couplers := by
  unfold neighborsIn
  rw [List.mem_filterMap]
  constructor
  · rintro ⟨e, he, hr⟩
    have hlt := h e he
    split at hr
    · next hq =>
      cases hr
      subst hq
      refine ⟨by omega, ?_⟩
      rwa [Pair.of_comm, Pair.of_of_lt hlt]
    · split at hr
      · next hq =>
        cases hr
        subst hq
        refine ⟨by omega, ?_⟩
        rwa [Pair.of_of_lt hlt]
      · cases hr
  · rintro ⟨hne, he⟩
    refine ⟨_, he, ?_⟩
    unfold Pair.of
    rcases Nat.lt_or_gt_of_ne hne with hlt | hgt
    · simp [hlt, Ne.symm hne]
    · simp [Nat.not_lt.mpr hgt.le]

/-- The neighbours in a sorted list of couplers are increasing. -/
theorem pairwise_neighborsIn {couplers : List Pair} (h : ∀ e ∈ couplers, e.lo < e.hi)
    (hsorted : couplers.Pairwise fun e f => compare e f = .lt) (q : Nat) :
    (neighborsIn couplers q).Pairwise (· < ·) := by
  unfold neighborsIn
  refine List.pairwise_filterMap.mpr (hsorted.imp_of_mem fun {e f} he hf hlt => ?_)
  have he := h e he
  have hf := h f hf
  rw [Pair.compare_eq_lt_iff] at hlt
  intro a ha b hb
  split at ha <;> split at hb <;>
    simp only [Option.ite_none_right_eq_some, Option.some.injEq] at ha hb <;> omega

/-- The couplers of a list of edges, sorted, each once. -/
def couplersOf (edges : List (Nat × Nat)) : List Pair :=
  sortDistinct ((edges.filter fun e => e.1 != e.2).map fun e => Pair.of e.1 e.2)

variable {edges : List (Nat × Nat)}

theorem lo_lt_hi_of_mem_couplersOf : ∀ e ∈ couplersOf edges, e.lo < e.hi := by
  intro e he
  obtain ⟨⟨a, b⟩, hmem, rfl⟩ := List.mem_map.mp (mem_sortDistinct.mp he)
  exact Pair.of_lo_lt_hi (by simpa using (List.mem_filter.mp hmem).2)

theorem qubits_ofEdges : (ofEdges edges).qubits =
    (sortDistinct ((couplersOf edges).flatMap fun e => [e.lo, e.hi])).toArray := rfl

theorem qubit_lt_ofEdges : ∀ s u, s < u → u < (ofEdges edges).size →
    (ofEdges edges).qubit s < (ofEdges edges).qubit u := by
  intro s u hlt hu
  have hsorted := pairwise_sortDistinct ((couplersOf edges).flatMap fun e => [e.lo, e.hi])
  unfold size at hu
  unfold qubit
  rw [qubits_ofEdges] at hu ⊢
  simp only [List.size_toArray] at hu
  have hs := Nat.lt_trans hlt hu
  have hcompare := List.pairwise_iff_getElem.mp hsorted s u hs hu hlt
  simpa [hs, hu, Nat.compare_eq_lt] using hcompare

/-- The neighbours of a slot are the slots of the neighbours of its qubit. -/
theorem neighborSlots_ofEdges {s : Nat} (hs : s < (ofEdges edges).size) :
    (ofEdges edges).neighborSlots s =
      (neighborsIn (couplersOf edges) ((ofEdges edges).qubit s)).filterMap
        (ofEdges edges).slot? := by
  have hs : s < (ofEdges edges).qubits.size := hs
  have hqubit : (ofEdges edges).qubit s = (ofEdges edges).qubits[s] := by simp [qubit, hs]
  rw [hqubit]
  unfold neighborSlots
  rw [Array.getD_eq_getD_getElem?]
  have hadjacency : (ofEdges edges).adjacency = (ofEdges edges).qubits.map fun q =>
      (neighborsIn (couplersOf edges) q).filterMap (ofEdges edges).slot? := rfl
  simp [hadjacency, hs]

theorem mem_neighborSlots_ofEdges {s u : Nat} :
    u ∈ (ofEdges edges).neighborSlots s ↔
      s < (ofEdges edges).size ∧ u < (ofEdges edges).size ∧
        (ofEdges edges).qubit s ≠ (ofEdges edges).qubit u ∧
        .of ((ofEdges edges).qubit s) ((ofEdges edges).qubit u) ∈ couplersOf edges := by
  by_cases hs : s < (ofEdges edges).size
  · rw [neighborSlots_ofEdges hs, List.mem_filterMap]
    simp only [mem_neighborsIn_iff lo_lt_hi_of_mem_couplersOf,
      slot?_eq_some_iff_of_lt qubit_lt_ofEdges]
    constructor
    · rintro ⟨r, hr, hu, rfl⟩
      exact ⟨hs, hu, hr⟩
    · rintro ⟨_, hu, hr⟩
      exact ⟨_, hr, hu, rfl⟩
  · have hempty : (ofEdges edges).neighborSlots s = [] := by
      have hs : ¬ s < (ofEdges edges).adjacency.size := by simpa [ofEdges, size] using hs
      simp [neighborSlots, hs]
    simp [hempty, hs]

/-- A target that is built from edges is lawful. -/
theorem lawful_ofEdges (edges : List (Nat × Nat)) : (ofEdges edges).Lawful where
  qubit_lt := qubit_lt_ofEdges
  lt_size s u hu := (mem_neighborSlots_ofEdges.mp hu).2.1
  sorted s := by
    by_cases hs : s < (ofEdges edges).size
    · rw [neighborSlots_ofEdges hs]
      have hsorted : (couplersOf edges).Pairwise fun e f => compare e f = .lt :=
        pairwise_sortDistinct _
      have hneighbors := pairwise_neighborsIn lo_lt_hi_of_mem_couplersOf hsorted
        ((ofEdges edges).qubit s)
      refine List.pairwise_filterMap.mpr (hneighbors.imp fun {a b} hlt u hu u' hu' => ?_)
      obtain ⟨hsize, rfl⟩ := (slot?_eq_some_iff_of_lt qubit_lt_ofEdges).mp hu
      obtain ⟨_, rfl⟩ := (slot?_eq_some_iff_of_lt qubit_lt_ofEdges).mp hu'
      by_contra hle
      rcases Nat.lt_or_eq_of_le (Nat.not_lt.mp hle) with hgt | rfl
      · have := qubit_lt_ofEdges u' u hgt hsize
        omega
      · omega
    · have hempty : (ofEdges edges).neighborSlots s = [] :=
        List.eq_nil_iff_forall_not_mem.mpr fun u hu => hs (mem_neighborSlots_ofEdges.mp hu).1
      rw [hempty]
      exact .nil
  symm s u hu := by
    obtain ⟨hs, hu, hne, hmem⟩ := mem_neighborSlots_ofEdges.mp hu
    exact mem_neighborSlots_ofEdges.mpr ⟨hu, hs, hne.symm, Pair.of_comm _ _ ▸ hmem⟩
  irrefl s hs := (mem_neighborSlots_ofEdges.mp hs).2.2.1 rfl

/-- Two different qubits are an edge, in either order, if their pair is a coupler. -/
theorem of_mem_couplersOf_iff {a b : Nat} :
    .of a b ∈ couplersOf edges ↔ a ≠ b ∧ ((a, b) ∈ edges ∨ (b, a) ∈ edges) := by
  unfold couplersOf
  rw [mem_sortDistinct, List.mem_map]
  constructor
  · rintro ⟨⟨c, d⟩, hmem, heq⟩
    obtain ⟨hmem, hne⟩ := List.mem_filter.mp hmem
    have hne : c ≠ d := by simpa using hne
    rcases Pair.of_eq_of_iff.mp heq with ⟨rfl, rfl⟩ | ⟨rfl, rfl⟩
    · exact ⟨hne, .inl hmem⟩
    · exact ⟨hne.symm, .inr hmem⟩
  · rintro ⟨hne, hmem | hmem⟩
    · exact ⟨(a, b), List.mem_filter.mpr ⟨hmem, by simpa using hne⟩, rfl⟩
    · exact ⟨(b, a), List.mem_filter.mpr ⟨hmem, by simpa using hne.symm⟩, Pair.of_comm b a⟩

/-- The qubits of a graph are the ends of its couplers. -/
theorem contains_ofEdges_iff_exists {q : Nat} :
    (ofEdges edges).contains q = true ↔ ∃ r, .of q r ∈ couplersOf edges := by
  unfold contains
  rw [qubits_ofEdges, Array.contains_iff_mem, List.mem_toArray, mem_sortDistinct, List.mem_flatMap]
  constructor
  · rintro ⟨e, he, hq⟩
    have hlt := lo_lt_hi_of_mem_couplersOf e he
    rcases List.mem_pair.mp hq with rfl | rfl
    · exact ⟨e.hi, (Pair.of_of_lt hlt).symm ▸ he⟩
    · exact ⟨e.lo, (Pair.of_comm e.hi e.lo).trans (Pair.of_of_lt hlt) ▸ he⟩
  · rintro ⟨r, he⟩
    refine ⟨_, he, List.mem_pair.mpr ?_⟩
    unfold Pair.of
    split <;> simp

/-- The couplers of a graph are the edges that it is built from, loops left out. -/
theorem hasEdge_ofEdges_iff {a b : Nat} :
    (ofEdges edges).hasEdge a b = true ↔ a ≠ b ∧ ((a, b) ∈ edges ∨ (b, a) ∈ edges) := by
  rw [(lawful_ofEdges edges).hasEdge_iff, ← of_mem_couplersOf_iff]
  constructor
  · rintro ⟨s, u, rfl, rfl, hmem⟩
    exact (mem_neighborSlots_ofEdges.mp hmem).2.2.2
  · intro hmem
    obtain ⟨s, hs, rfl⟩ := contains_iff.mp (contains_ofEdges_iff_exists.mpr ⟨b, hmem⟩)
    obtain ⟨u, hu, rfl⟩ :=
      contains_iff.mp (contains_ofEdges_iff_exists.mpr ⟨_, Pair.of_comm _ b ▸ hmem⟩)
    exact ⟨s, u, rfl, rfl, mem_neighborSlots_ofEdges.mpr
      ⟨hs, hu, (of_mem_couplersOf_iff.mp hmem).1, hmem⟩⟩

/-- Every qubit of a graph is coupled to another. -/
theorem contains_ofEdges_iff {q : Nat} :
    (ofEdges edges).contains q = true ↔ ∃ r, (ofEdges edges).hasEdge q r = true := by
  rw [contains_ofEdges_iff_exists]
  exact exists_congr fun r => of_mem_couplersOf_iff.trans hasEdge_ofEdges_iff.symm

/-- Dimensions do not change the couplers. -/
theorem Lawful.declareShape {t : Target} (h : t.Lawful) (shape : Option Chimera) :
    { t with declaredShape := shape }.Lawful :=
  ⟨h.qubit_lt, h.lt_size, h.sorted, h.symm, h.irrefl⟩

theorem Lawful.withShape {t : Target} (h : t.Lawful) (shape : Chimera) :
    (t.withShape shape).Lawful :=
  h.declareShape (some shape)

theorem lawful_withoutQubits (t : Target) (removed : List Nat) : (t.withoutQubits removed).Lawful :=
  (lawful_ofEdges _).declareShape t.declaredShape

end Builders

end Target

end SpinGlass

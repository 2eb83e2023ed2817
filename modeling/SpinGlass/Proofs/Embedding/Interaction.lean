import SpinGlass.Embedding.LogicalGraph
import SpinGlass.Proofs.Problem.Indices

/-!
# Interaction graphs as graphs

An interaction graph grows from a graph without edges, one edge at a time. So its lists of
neighbours are symmetric and without loops, and the neighbours in the graph of a problem are the
variables that share a nonzero term or a chain.
-/

namespace SpinGlass

namespace LogicalGraph

/-- A graph whose neighbours are symmetric, different and variables of the graph. -/
structure Lawful (g : LogicalGraph) : Prop where
  lt_size : ∀ a, ∀ b ∈ g.neighbors a, b < g.size
  symm : ∀ a, ∀ b ∈ g.neighbors a, a ∈ g.neighbors b
  irrefl : ∀ a, a ∉ g.neighbors a

@[simp] theorem size_empty (size : Nat) : (empty size).size = size := by
  simp [empty, LogicalGraph.size]

@[simp] theorem neighbors_empty (size v : Nat) : (empty size).neighbors v = [] := by
  unfold neighbors empty
  rw [Array.getD_eq_getD_getElem?, Array.getElem?_replicate]
  split <;> rfl

section AddEdge

variable {g : LogicalGraph}

@[simp] theorem size_grow (size : Nat) : (g.grow size).size = max g.size size := by
  simp only [grow, LogicalGraph.size, Array.size_append, Array.size_replicate]
  omega

/-- New variables have no neighbours. -/
@[simp] theorem neighbors_grow (size v : Nat) : (g.grow size).neighbors v = g.neighbors v := by
  unfold neighbors grow
  rw [Array.getD_eq_getD_getElem?, Array.getD_eq_getD_getElem?, Array.getElem?_append]
  split
  · rfl
  · next hv =>
    rw [Array.getElem?_replicate, Array.getElem?_eq_none (Nat.not_lt.mp hv)]
    split <;> rfl

@[simp] theorem size_addNeighbor (a b : Nat) : (g.addNeighbor a b).size = g.size := by
  simp [addNeighbor, LogicalGraph.size]

theorem mem_neighbors_addNeighbor {a b v c : Nat} (ha : a < g.size) :
    c ∈ (g.addNeighbor a b).neighbors v ↔ c ∈ g.neighbors v ∨ v = a ∧ c = b := by
  unfold neighbors addNeighbor
  rw [Array.getD_eq_getD_getElem?, Array.getElem?_modify, Array.getD_eq_getD_getElem?]
  by_cases hva : v = a
  · subst hva
    have hsome : g.adjacency[v]? = some g.adjacency[v] := Array.getElem?_eq_getElem ha
    simp only [hsome, if_true, Option.map_some, Option.getD_some, KeySet.mem_toList_iff,
      KeySet.contains_insert_iff, true_and]
    exact or_comm
  · simp [hva, Ne.symm hva]

/-- An edge adds the variables up to its ends. -/
theorem size_addEdge_of_ne {a b : Nat} (hne : a ≠ b) :
    (g.addEdge a b).size = max g.size (max a b + 1) := by
  simp [addEdge, hne]

/-- An edge between variables of the graph adds no variable. -/
theorem size_addEdge {a b : Nat} (ha : a < g.size) (hb : b < g.size) :
    (g.addEdge a b).size = g.size := by
  by_cases hne : a = b
  · simp [addEdge, hne]
  · rw [size_addEdge_of_ne hne]
    omega

/-- An edge makes its ends neighbours of each other. -/
theorem mem_neighbors_addEdge {a b v c : Nat} :
    c ∈ (g.addEdge a b).neighbors v ↔
      c ∈ g.neighbors v ∨ a ≠ b ∧ (v = a ∧ c = b ∨ v = b ∧ c = a) := by
  by_cases hne : a = b
  · simp [addEdge, hne]
  · have ha : a < max g.size (max a b + 1) := by omega
    have hb : b < max g.size (max a b + 1) := by omega
    simp [addEdge, hne, mem_neighbors_addNeighbor, ha, hb, or_assoc]

end AddEdge

theorem lawful_empty (size : Nat) : (empty size).Lawful := by
  constructor <;> simp

/-- Adding an edge keeps a graph lawful. -/
theorem Lawful.addEdge {g : LogicalGraph} (h : g.Lawful) (a b : Nat) : (g.addEdge a b).Lawful where
  lt_size v c hc := by
    rcases mem_neighbors_addEdge.mp hc with hc | ⟨hne, hends⟩
    · have hlt := h.lt_size v c hc
      by_cases hne : a = b
      · simpa [LogicalGraph.addEdge, hne] using hlt
      · rw [size_addEdge_of_ne hne]
        omega
    · rw [size_addEdge_of_ne hne]
      omega
  symm v c hc := by
    rw [mem_neighbors_addEdge] at hc ⊢
    exact hc.imp (h.symm v c) fun ⟨hne, hends⟩ => ⟨hne, by tauto⟩
  irrefl v hv := by
    rcases mem_neighbors_addEdge.mp hv with hv | ⟨hne, hends⟩
    · exact h.irrefl v hv
    · omega

/-- The edges are the pairs of neighbours, the lower end first. -/
theorem Lawful.mem_edges_iff {g : LogicalGraph} (h : g.Lawful) {a b : Nat} :
    (a, b) ∈ g.edges ↔ a < b ∧ b ∈ g.neighbors a := by
  unfold edges
  simp only [List.mem_flatMap, List.mem_range, List.mem_map, List.mem_filter, decide_eq_true_eq,
    Prod.mk.injEq]
  constructor
  · rintro ⟨_, _, _, ⟨hb, hlt⟩, rfl, rfl⟩
    exact ⟨hlt, hb⟩
  · rintro ⟨hlt, hb⟩
    exact ⟨a, h.lt_size b a (h.symm a b hb), b, ⟨hb, hlt⟩, rfl, rfl⟩

section OfProblem

variable {K : Type} [Coefficient K] {p : Problem K} {size : Nat}

/-- The pairs of variables that share a nonzero term or a chain. -/
def Shares (p : Problem K) (q : Pair) : Prop :=
  q ∈ p.strengths.nonzero.keys ∨ p.chains.contains q = true

theorem Shares.joins {live : Nat → Prop} {q : Pair} (hq : Shares p q) (h : p.Over live) :
    q.Joins live := by
  rcases hq with hq | hq
  · obtain ⟨j, hj⟩ := Table.mem_keys_iff.mp hq
    rw [Table.nonzero, Table.get?_filter, Option.filter_eq_some_iff] at hj
    exact h.strengths q j hj.1
  · exact h.chains q hq

theorem mem_neighbors_foldl {pairs : List Pair} {g : LogicalGraph} {a b : Nat} :
    b ∈ (pairs.foldl (fun g q => g.addEdge q.lo q.hi) g).neighbors a ↔ b ∈ g.neighbors a ∨
      ∃ q ∈ pairs, q.lo ≠ q.hi ∧ (a = q.lo ∧ b = q.hi ∨ a = q.hi ∧ b = q.lo) := by
  induction pairs generalizing g with
  | nil => simp
  | cons q rest ih =>
    rw [List.foldl_cons, ih, mem_neighbors_addEdge, or_assoc]
    simp

/-- The graph of a problem is lawful. -/
theorem lawful_ofProblem (p : Problem K) (size : Nat) : (ofProblem p size).Lawful :=
  List.foldlRecOn _ _ (lawful_empty size) fun _ hg q _ => hg.addEdge q.lo q.hi

/-- The neighbours in the graph of a problem share a nonzero term or a chain. -/
theorem mem_neighbors_ofProblem {live : Nat → Prop} (h : p.Over live) {a b : Nat} :
    b ∈ (ofProblem p size).neighbors a ↔ a ≠ b ∧ Shares p (.of a b) := by
  unfold ofProblem
  simp only [mem_neighbors_foldl, neighbors_empty, List.not_mem_nil, false_or, List.mem_append,
    KeySet.mem_toList_iff]
  have hlt : ∀ q, Shares p q → q.lo < q.hi := fun _ hq => (hq.joins h).1
  constructor
  · rintro ⟨q, hq, hne, ⟨rfl, rfl⟩ | ⟨rfl, rfl⟩⟩
    · exact ⟨hne, by rwa [Pair.of_of_lt (hlt q hq)]⟩
    · exact ⟨hne.symm, by rwa [Pair.of_comm, Pair.of_of_lt (hlt q hq)]⟩
  · rintro ⟨hne, hq⟩
    refine ⟨.of a b, hq, (hlt _ hq).ne, ?_⟩
    unfold Pair.of
    split <;> simp

/-- The graph of a problem has the variables it was asked for. -/
theorem size_ofProblem (h : p.Over (· < size)) : (ofProblem p size).size = size := by
  refine List.foldlRecOn (motive := fun g : LogicalGraph => g.size = size) _
    (fun g (q : Pair) => g.addEdge q.lo q.hi) (size_empty size) fun g hg q hq => ?_
  rw [List.mem_append, KeySet.mem_toList_iff] at hq
  obtain ⟨_, hlo, hhi⟩ := Shares.joins hq h
  rw [← hg] at hlo hhi
  exact (size_addEdge hlo hhi).trans hg

end OfProblem

end LogicalGraph

end SpinGlass

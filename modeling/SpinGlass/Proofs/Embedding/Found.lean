import SpinGlass.Embedding.Strategy
import SpinGlass.Proofs.Embedding.Minor
import SpinGlass.Proofs.Routing.Rounds

/-!
# Embeddings that are found

The router tests that every variable is placed, that no slot is shared and that every edge has a
coupler, but not that chains are connected. They are by the way they are made. So what a strategy
finds is a minor embedding, and its validation never fails.
-/

namespace SpinGlass

open Relation (ReflTransGen)

namespace Embedding

variable {target : Target} {chains : List (List Nat)}

/-- The chains of an embedding of slots are the qubits of the chains of slots. -/
theorem mem_chains_ofSlots {chain : List Nat} :
    chain ∈ (ofSlots target chains).chains ↔
      ∃ slots ∈ chains, sortDistinct (slots.map target.qubit) = chain := by
  simp [ofSlots, ofChains]

theorem chain_ofSlots (v : Nat) :
    (ofSlots target chains).chain v = sortDistinct ((chains.getD v []).map target.qubit) := by
  unfold Embedding.chain ofSlots ofChains
  simp only [List.getD_eq_getElem?_getD, List.getElem?_map]
  cases chains[v]? <;> rfl

/-- The qubits of connected slots are connected. -/
theorem connected_of_isChain (htarget : target.Lawful) {slots : List Nat}
    (h : target.IsChain slots) (hne : slots ≠ []) :
    (chainGraph target (sortDistinct (slots.map target.qubit))).Connected := by
  have hmem : ∀ s ∈ slots, target.qubit s ∈ sortDistinct (slots.map target.qubit) := fun s hs =>
    mem_sortDistinct.mpr (List.mem_map_of_mem hs)
  obtain ⟨root, hroot, hsteps⟩ := h.connected hne
  rw [connected_iff htarget (hmem root hroot)]
  intro q hq
  obtain ⟨s, hs, rfl⟩ := List.mem_map.mp (mem_sortDistinct.mp hq)
  exact (hsteps s hs).lift target.qubit fun a b hstep =>
    ⟨hmem b hstep.1, htarget.hasEdge_iff.mpr ⟨a, b, rfl, rfl, hstep.2⟩⟩

end Embedding

section Placed

variable {logical : LogicalGraph} {target : Target}

/-- Two chains touch if a slot of one is a neighbour of a slot of the other. -/
theorem Placement.touches_iff {p : Placement} {a b : Nat} :
    p.touches target a b = true ↔
      ∃ s ∈ p.chain a, ∃ u ∈ p.chain b, u ∈ target.neighborSlots s := by
  simp only [touches, List.any_eq_true, List.contains_iff_mem]
  exact exists_congr fun s => and_congr_right fun _ => exists_congr fun u => and_comm

/-- A placement is valid if no variable is without a chain, no slot is shared and every edge has a
coupler. -/
theorem Placement.isValid_iff {p : Placement} :
    p.isValid logical target = true ↔ (∀ chain ∈ p.chains.toList, chain ≠ []) ∧
      p.overlaps = 0 ∧ ∀ edge ∈ logical.edges, p.touches target edge.1 edge.2 = true := by
  unfold isValid
  rw [← Array.all_toList]
  simp only [Bool.and_eq_true, List.all_eq_true, beq_iff_eq, Bool.not_eq_true', ← Bool.not_eq_true,
    List.isEmpty_iff, and_assoc, ne_eq]

/-- The chains of a sound placement that is valid are a minor embedding. -/
theorem Placed.isMinor (hlogical : logical.Lawful) (htarget : target.Lawful)
    {chains : List (List Nat)} (h : Placed logical target chains) :
    (Embedding.ofSlots target chains).IsMinor logical target := by
  obtain ⟨p, hsound, hvalid, rfl⟩ := h
  obtain ⟨hne, hoverlaps, htouches⟩ := Placement.isValid_iff.mp hvalid
  have hchain : ∀ v, (Embedding.ofSlots target p.chains.toList).chain v =
      sortDistinct ((p.chain v).map target.qubit) := by
    intro v
    rw [Embedding.chain_ofSlots]
    simp [Placement.chain]
  constructor
  · simp [Embedding.ofSlots, Embedding.ofChains, hsound.chains_size]
  · intro chain hmem
    obtain ⟨slots, hslots, rfl⟩ := Embedding.mem_chains_ofSlots.mp hmem
    obtain ⟨s, hs⟩ := List.exists_mem_of_ne_nil _ (hne slots hslots)
    exact List.ne_nil_of_mem (mem_sortDistinct.mpr (List.mem_map_of_mem hs))
  · intro chain hmem q hq
    obtain ⟨slots, hslots, rfl⟩ := Embedding.mem_chains_ofSlots.mp hmem
    obtain ⟨s, hs, rfl⟩ := List.mem_map.mp (mem_sortDistinct.mp hq)
    exact Target.contains_iff.mpr ⟨s, (hsound.isChain slots hslots).lt_size s hs, rfl⟩
  · unfold Embedding.ofSlots Embedding.ofChains
    rw [List.map_map, List.pairwise_map]
    refine (hsound.disjoint hoverlaps).imp_of_mem fun {a b} ha hb hdisjoint q hqa hqb => ?_
    obtain ⟨s, hs, rfl⟩ := List.mem_map.mp (mem_sortDistinct.mp hqa)
    obtain ⟨u, hu, heq⟩ := List.mem_map.mp (mem_sortDistinct.mp hqb)
    have hsu := htarget.qubit_inj ((hsound.isChain b hb).lt_size u hu)
      ((hsound.isChain a ha).lt_size s hs) heq
    exact hdisjoint hs (hsu ▸ hu)
  · intro chain hmem
    obtain ⟨slots, hslots, rfl⟩ := Embedding.mem_chains_ofSlots.mp hmem
    exact Embedding.connected_of_isChain htarget (hsound.isChain slots hslots) (hne slots hslots)
  · refine (Embedding.forall_edges_iff hlogical htarget).mp fun edge hedge => ?_
    obtain ⟨s, hs, u, hu, hstep⟩ := Placement.touches_iff.mp (htouches edge hedge)
    rw [hchain, hchain]
    exact ⟨_, mem_sortDistinct.mpr (List.mem_map_of_mem hs), _,
      mem_sortDistinct.mpr (List.mem_map_of_mem hu),
      htarget.hasEdge_iff.mpr ⟨s, u, rfl, rfl, hstep⟩⟩

end Placed

section Strategies

variable {K : Type} [Coefficient K] {logical : LogicalGraph} {target : Target} {cancelled : Bool}

/-- A trial of the dense strategy returns placed chains. -/
theorem Dense.placed_of_trial (htarget : target.Lawful) {maxRounds : Nat} {seed : UInt64}
    {chains : List (List Nat)}
    (h : trial K logical target maxRounds cancelled seed = some chains) :
    Placed logical target chains := by
  have hperm := Generator.perm_shuffle (Generator.ofSeed seed) (List.range logical.size)
  have horder : ∀ v ∈ ((Generator.ofSeed seed).shuffle (List.range logical.size)).1,
      v < logical.size := fun v hv => List.mem_range.mp (hperm.mem_iff.mp hv)
  let task : RoutingTask K := ⟨logical, target, RootBias.none⟩
  have htask : task.target.Lawful := htarget
  exact Routing.placed_of_run htask horder h

/-- The smallest result is one of the results. -/
theorem Dense.mem_of_smallest? {results : List (List (List Nat))} {chains : List (List Nat)}
    (h : smallest? results = some chains) : chains ∈ results := by
  refine List.foldlRecOn (motive := fun best => ∀ c, best = some c → c ∈ results) results _
    (fun _ hnone => by cases hnone) (fun best hbest c hc d hd => ?_) chains h
  split at hd
  · split at hd
    · exact Option.some.inj hd ▸ hc
    · exact hbest d hd
  · exact Option.some.inj hd ▸ hc

/-- There is a hint for every variable. -/
theorem Layout.length_hints {locations : Locations K} {shape : Chimera}
    {result : List (Nat × Nat)} (h : hints locations logical shape = .ok result) :
    result.length = logical.size := by
  unfold hints at h
  dsimp only at h
  split at h
  · cases h
  · cases h
    simp

/-- The order by hints has only variables. -/
theorem Layout.lt_length_of_mem_order {hints : List (Nat × Nat)} :
    ∀ v ∈ order hints, v < hints.length := by
  intro v hv
  obtain ⟨⟨hint, i⟩, hmem, rfl⟩ := List.mem_map.mp hv
  exact List.snd_lt_of_mem_zipIdx ((List.mergeSort_perm _ _).mem_iff.mp hmem)

/-- What a strategy finds was placed by a routing. -/
theorem Strategy.placed_of_search (htarget : target.Lawful) {strategy : Strategy K} {e : Embedding}
    (h : strategy.search logical target cancelled = .ok e) :
    ∃ chains, Placed logical target chains ∧ Embedding.ofSlots target chains = e := by
  cases strategy with
  | dense trials seed maxRounds =>
    unfold Strategy.search Dense.embed at h
    dsimp only at h
    split at h
    · next chains hsmallest =>
      obtain ⟨t, _, htrial⟩ := List.mem_filterMap.mp (Dense.mem_of_smallest? hsmallest)
      exact ⟨chains, Dense.placed_of_trial htarget htrial, Except.ok.inj h⟩
    · cases h
  | layout locations seed maxRounds radius =>
    unfold Strategy.search Layout.embed at h
    dsimp only at h
    split at h
    · cases h
    · obtain ⟨hints, hhints, h⟩ := bind_eq_ok.mp h
      split at h
      · next chains hrun =>
        have horder : ∀ v ∈ Layout.order hints, v < logical.size := fun v hv =>
          Layout.length_hints hhints ▸ Layout.lt_length_of_mem_order v hv
        exact ⟨chains, Routing.placed_of_run htarget horder hrun, Except.ok.inj h⟩
      · cases h

/-- What a strategy finds is a minor embedding. -/
theorem Strategy.isMinor_of_search (hlogical : logical.Lawful) (htarget : target.Lawful)
    {strategy : Strategy K} {e : Embedding}
    (h : strategy.search logical target cancelled = .ok e) : e.IsMinor logical target := by
  obtain ⟨chains, hplaced, rfl⟩ := strategy.placed_of_search htarget h
  exact hplaced.isMinor hlogical htarget

/-- A search that fails does not blame an embedding. -/
theorem Strategy.search_ne_invalid (strategy : Strategy K) (logical : LogicalGraph)
    (target : Target) (cancelled : Bool) (fault : EmbeddingFault) :
    strategy.search logical target cancelled ≠ .error (.invalid fault) := by
  intro h
  cases strategy with
  | dense trials seed maxRounds =>
    unfold Strategy.search Dense.embed at h
    dsimp only at h
    split at h
    · cases h
    · cases cancelled <;> cases h
  | layout locations seed maxRounds radius =>
    unfold Strategy.search Layout.embed at h
    dsimp only at h
    split at h
    · cases h
    · next shape _ =>
      cases hhints : Layout.hints locations logical shape with
      | error e =>
        rw [hhints] at h
        unfold Layout.hints at hhints
        dsimp only at hhints
        split at hhints <;> cases hhints
        cases h
      | ok hints =>
        rw [hhints] at h
        dsimp only [Bind.bind, Except.bind] at h
        split at h
        · cases h
        · cases cancelled <;> cases h

/-- Every embedding that a strategy finds passes validation, its chains connected, so that running
the strategy with its checks never ends with an invalid embedding. -/
theorem Strategy.validate_of_search (hlogical : logical.Lawful) (htarget : target.Lawful)
    (strategy : Strategy K) (cancelled : Bool) :
    (∀ e, strategy.search logical target cancelled = .ok e →
      e.validate logical target = .ok () ∧
        ∀ chain ∈ e.chains, (Embedding.chainGraph target chain).Connected) ∧
      ∀ fault, strategy.embed logical target cancelled ≠ .error (.invalid fault) := by
  have hsearch : ∀ e, strategy.search logical target cancelled = .ok e →
      e.validate logical target = .ok () := by
    intro e he
    have hminor := strategy.isMinor_of_search hlogical htarget he
    obtain ⟨chains, _, rfl⟩ := strategy.placed_of_search htarget he
    exact (Embedding.validate_eq_ok_iff_of_nodup hlogical htarget
      Embedding.nodup_of_mem_ofChains).mpr hminor
  refine ⟨fun e he => ⟨hsearch e he, (strategy.isMinor_of_search hlogical htarget he).connected⟩,
    fun fault h => ?_⟩
  unfold Strategy.embed at h
  dsimp only at h
  split at h
  · cases h
  · split at h
    · cases h
    · split at h
      · cases h
      · cases hfound : strategy.search logical target cancelled with
        | error e =>
          rw [hfound] at h
          cases h
          exact strategy.search_ne_invalid logical target cancelled fault hfound
        | ok e =>
          have hvalid := hsearch e hfound
          rw [hfound] at h
          dsimp only [Bind.bind, Except.bind] at h
          rw [hvalid] at h
          cases h

/-- Routing a triangle into a cycle of four qubits. -/
theorem Strategy.validate_of_search_triangle :
    ∃ e, (Strategy.dense 1 7 8 : Strategy ℚ).search
        ((((LogicalGraph.empty 3).addEdge 0 1).addEdge 1 2).addEdge 0 2)
        (.ofEdges [(0, 1), (1, 2), (2, 3), (3, 0)]) false = .ok e ∧
      e.validate ((((LogicalGraph.empty 3).addEdge 0 1).addEdge 1 2).addEdge 0 2)
        (.ofEdges [(0, 1), (1, 2), (2, 3), (3, 0)]) = .ok () := by
  have hsuccess : ((Strategy.dense 1 7 8 : Strategy ℚ).search
      ((((LogicalGraph.empty 3).addEdge 0 1).addEdge 1 2).addEdge 0 2)
      (.ofEdges [(0, 1), (1, 2), (2, 3), (3, 0)]) false).toOption.isSome = true := by
    decide +kernel
  have hall := (validate_of_search
    ((((LogicalGraph.lawful_empty 3).addEdge 0 1).addEdge 1 2).addEdge 0 2)
    (Target.lawful_ofEdges [(0, 1), (1, 2), (2, 3), (3, 0)])
    (.dense 1 7 8 : Strategy ℚ) false).1
  cases hfound : (Strategy.dense 1 7 8 : Strategy ℚ).search
      ((((LogicalGraph.empty 3).addEdge 0 1).addEdge 1 2).addEdge 0 2)
      (.ofEdges [(0, 1), (1, 2), (2, 3), (3, 0)]) false with
  | error e =>
    rw [hfound] at hsuccess
    cases hsuccess
  | ok e => exact ⟨e, rfl, (hall e hfound).1⟩

end Strategies

end SpinGlass

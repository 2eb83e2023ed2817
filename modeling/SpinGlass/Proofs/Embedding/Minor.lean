import SpinGlass.Proofs.Embedding.Connected
import SpinGlass.Proofs.Embedding.Valid

/-!
# Minor embeddings

An embedding passes validation exactly if it represents the interaction graph as a minor of the
target. The chains of the variables are nonempty, disjoint and connected sets of qubits, and where
two variables are joined, a coupler joins their chains.
-/

namespace SpinGlass

namespace Embedding

/-- The definition of a minor embedding. -/
structure IsMinor (e : Embedding) (logical : LogicalGraph) (target : Target) : Prop where
  /-- There is one chain for each variable. -/
  length : e.chains.length = logical.size
  nonempty : ∀ chain ∈ e.chains, chain ≠ []
  inTarget : ∀ chain ∈ e.chains, ∀ q ∈ chain, target.contains q = true
  disjoint : e.chains.Pairwise List.Disjoint
  /-- Each chain induces a connected part of the target. -/
  connected : ∀ chain ∈ e.chains, (chainGraph target chain).Connected
  /-- A coupler joins the chains of two variables that share an edge. -/
  joined : ∀ a, ∀ b ∈ logical.neighbors a,
    ∃ q ∈ e.chain a, ∃ r ∈ e.chain b, target.hasEdge q r = true

/-- A qubit of a minor embedding belongs to one variable. -/
theorem IsMinor.eq_of_mem_chain {e : Embedding} {logical : LogicalGraph} {target : Target}
    (h : e.IsMinor logical target) {i j q : Nat} (hi : q ∈ e.chain i) (hj : q ∈ e.chain j) :
    i = j := by
  have hilt := lt_length_of_mem_chain hi
  have hjlt := lt_length_of_mem_chain hj
  rw [chain_eq_getElem hilt] at hi
  rw [chain_eq_getElem hjlt] at hj
  have hapart := List.pairwise_iff_getElem.mp h.disjoint
  rcases Nat.lt_trichotomy i j with hlt | heq | hgt
  · exact absurd hj (hapart i j hilt hjlt hlt hi)
  · exact heq
  · exact absurd hi (hapart j i hjlt hilt hgt hj)

theorem nodup_of_mem_ofChains {chains : List (List Nat)} :
    ∀ chain ∈ (ofChains chains).chains, chain.Nodup := by
  intro chain hchain
  obtain ⟨qubits, _, rfl⟩ := List.mem_map.mp hchain
  exact nodup_sortDistinct qubits

section Claim

variable {target : Target} {owners owners' : Owners}

/-- The qubits of a chain can be claimed if they are different, in the target and free. -/
theorem exists_foldlM_claimQubit {v : Nat} {chain : List Nat} :
    (∃ owners', chain.foldlM (claimQubit target v) owners = .ok owners') ↔
      chain.Nodup ∧ ∀ q ∈ chain, target.contains q = true ∧ owners.get? q = none := by
  induction chain generalizing owners with
  | nil => simp [Pure.pure, Except.pure]
  | cons a rest ih =>
    have hnext : ∀ q, (owners.insert a v).get? q = none ↔ q ≠ a ∧ owners.get? q = none := by
      intro q
      rw [Table.get?_insert]
      by_cases hqa : q = a <;> simp [hqa]
    have hrest : (∃ owners', rest.foldlM (claimQubit target v) (owners.insert a v) = .ok owners') ↔
        rest.Nodup ∧ a ∉ rest ∧
          ∀ q ∈ rest, target.contains q = true ∧ owners.get? q = none := by
      rw [ih]
      simp only [hnext]
      refine and_congr_right fun _ => ⟨fun h => ?_, ?_⟩
      · exact ⟨fun ha => (h a ha).2.1 rfl, fun q hq => ⟨(h q hq).1, (h q hq).2.2⟩⟩
      · rintro ⟨ha, h⟩ q hq
        exact ⟨(h q hq).1, fun hqa => ha (hqa ▸ hq), (h q hq).2⟩
    simp only [foldlM_cons_eq_ok, claimQubit_eq_ok]
    rw [List.nodup_cons, List.forall_mem_cons]
    constructor
    · rintro ⟨owners', _, ⟨hcontains, hfree, rfl⟩, hfold⟩
      obtain ⟨hnodup, ha, hall⟩ := hrest.mp ⟨owners', hfold⟩
      exact ⟨⟨ha, hnodup⟩, ⟨hcontains, hfree⟩, hall⟩
    · rintro ⟨⟨ha, hnodup⟩, ⟨hcontains, hfree⟩, hall⟩
      obtain ⟨owners', hfold⟩ := hrest.mpr ⟨hnodup, ha, hall⟩
      exact ⟨owners', _, ⟨hcontains, hfree, rfl⟩, hfold⟩

/-- A chain that can have an owner beside others: nonempty, in the target and connected. -/
def Claimable (target : Target) (chain : List Nat) : Prop :=
  chain ≠ [] ∧ (∀ q ∈ chain, target.contains q = true) ∧ isConnected target chain = true

/-- Chains can be claimed if each can be for itself, they are disjoint, and their qubits free. -/
theorem exists_foldlM_claimChain {chains : List (List Nat)} {start : Nat}
    (hnodup : ∀ chain ∈ chains, chain.Nodup) :
    (∃ owners', (chains.zipIdx start).foldlM (claimChain target) owners = .ok owners') ↔
      (∀ chain ∈ chains, Claimable target chain) ∧ chains.Pairwise List.Disjoint ∧
        ∀ chain ∈ chains, ∀ q ∈ chain, owners.get? q = none := by
  induction chains generalizing owners start with
  | nil => simp [Pure.pure, Except.pure]
  | cons chain rest ih =>
    obtain ⟨hchain, hrest⟩ := List.forall_mem_cons.mp hnodup
    simp only [List.zipIdx_cons, foldlM_cons_eq_ok, claimChain_eq_ok, List.forall_mem_cons,
      List.pairwise_cons]
    -- claiming the first chain takes its qubits from the free ones
    have hnext : ∀ {next : Owners}, chain.foldlM (claimQubit target start) owners = .ok next →
        ∀ q, next.get? q = none ↔ owners.get? q = none ∧ q ∉ chain := by
      intro next hclaim q
      simp only [Option.eq_none_iff_forall_ne_some, ne_eq, get?_foldlM_claimQubit hclaim]
      constructor
      · exact fun h => ⟨fun i hi => h i (.inl hi), fun hq => h start (.inr ⟨rfl, hq⟩)⟩
      · rintro ⟨hfree, hq⟩ i (hi | ⟨_, hmem⟩)
        · exact hfree i hi
        · exact hq hmem
    constructor
    · rintro ⟨owners', next, ⟨hne, hclaim, hconnected⟩, hfold⟩
      obtain ⟨_, hqubits⟩ := exists_foldlM_claimQubit.mp ⟨next, hclaim⟩
      obtain ⟨hclaimable, hdisjoint, hfree⟩ := (ih hrest).mp ⟨owners', hfold⟩
      simp only [hnext hclaim] at hfree
      exact ⟨⟨⟨hne, fun q hq => (hqubits q hq).1, hconnected⟩, hclaimable⟩,
        ⟨fun other hother q hq hq' => (hfree other hother q hq').2 hq, hdisjoint⟩,
        fun q hq => (hqubits q hq).2, fun other hother q hq => (hfree other hother q hq).1⟩
    · rintro ⟨⟨⟨hne, hcontains, hconnected⟩, hclaimable⟩, ⟨hapart, hdisjoint⟩, hfirst, hfree⟩
      obtain ⟨next, hclaim⟩ := exists_foldlM_claimQubit.mpr
        ⟨hchain, fun q hq => ⟨hcontains q hq, hfirst q hq⟩⟩
      obtain ⟨owners', hfold⟩ := (ih hrest).mpr ⟨hclaimable, hdisjoint, fun other hother q hq =>
        (hnext hclaim q).mpr ⟨hfree other hother q hq, fun hmem => hapart other hother hmem hq⟩⟩
      exact ⟨owners', next, ⟨hne, hclaim, hconnected⟩, hfold⟩

end Claim

section Validate

variable {logical : LogicalGraph} {target : Target}

/-- With the owners of all chains, a coupler to a variable is one to its chain. -/
theorem hasCoupler_iff (htarget : target.Lawful) {e : Embedding} {owners : Owners}
    (howners : ∀ q i, owners.get? q = some i ↔ q ∈ e.chain i) {chain : List Nat} {b : Nat} :
    hasCoupler target owners chain b = true ↔
      ∃ q ∈ chain, ∃ r ∈ e.chain b, target.hasEdge q r = true := by
  simp only [hasCoupler, List.any_eq_true, beq_iff_eq, howners, htarget.mem_neighbors_iff]
  exact exists_congr fun q => and_congr_right fun _ => exists_congr fun r => and_comm

/-- The edges are joined if all neighbours are. -/
theorem forall_edges_iff (hlogical : logical.Lawful) (htarget : target.Lawful) {e : Embedding} :
    (∀ edge ∈ logical.edges,
        ∃ q ∈ e.chain edge.1, ∃ r ∈ e.chain edge.2, target.hasEdge q r = true) ↔
      ∀ a, ∀ b ∈ logical.neighbors a,
        ∃ q ∈ e.chain a, ∃ r ∈ e.chain b, target.hasEdge q r = true := by
  constructor
  · intro hedges a b hb
    rcases Nat.lt_trichotomy a b with hlt | rfl | hgt
    · exact hedges (a, b) (hlogical.mem_edges_iff.mpr ⟨hlt, hb⟩)
    · exact absurd hb (hlogical.irrefl a)
    · obtain ⟨r, hr, q, hq, hedge⟩ :=
        hedges (b, a) (hlogical.mem_edges_iff.mpr ⟨hgt, hlogical.symm a b hb⟩)
      exact ⟨q, hq, r, hr, htarget.hasEdge_symm hedge⟩
  · rintro hall ⟨a, b⟩ hedge
    exact hall a b (hlogical.mem_edges_iff.mp hedge).2

/-- Validation succeeds if there are as many chains as variables, the chains can be claimed one
after the other, and with the owners that this gives every edge has a coupler. -/
theorem validate_eq_ok {e : Embedding} :
    e.validate logical target = .ok () ↔ e.size = logical.size ∧
      ∃ owners, e.chains.zipIdx.foldlM (claimChain target) .empty = .ok owners ∧
        ∀ edge ∈ logical.edges, hasCoupler target owners (e.chain edge.1) edge.2 = true := by
  unfold validate
  by_cases hsize : e.size = logical.size
  · simp only [hsize, ne_eq, not_true_eq_false, if_false, true_and]
    rw [bind_eq_ok]
    refine exists_congr fun owners => and_congr_right fun _ => ?_
    rw [forM_eq_ok]
    refine forall₂_congr fun edge _ => ?_
    cases hasCoupler target owners (e.chain edge.1) edge.2 <;> simp
  · simp [hsize, throw, throwThe, MonadExceptOf.throw, Bind.bind, Except.bind]

/-- Validation of chains without repetitions is the definition of a minor embedding. -/
theorem validate_eq_ok_iff_of_nodup (hlogical : logical.Lawful) (htarget : target.Lawful)
    {e : Embedding} (hnodup : ∀ chain ∈ e.chains, chain.Nodup) :
    e.validate logical target = .ok () ↔ e.IsMinor logical target := by
  have howners : ∀ {owners}, e.chains.zipIdx.foldlM (claimChain target) .empty = .ok owners →
      ∀ q i, owners.get? q = some i ↔ q ∈ e.chain i := by
    intro owners hfold q i
    rw [(get?_foldlM_claimChain hfold).2]
    simp [Embedding.chain]
  rw [validate_eq_ok]
  constructor
  · rintro ⟨hsize, owners, hfold, hedges⟩
    obtain ⟨hclaimable, hdisjoint, _⟩ := (exists_foldlM_claimChain hnodup).mp ⟨owners, hfold⟩
    simp only [hasCoupler_iff htarget (howners hfold)] at hedges
    exact {
      length := hsize
      nonempty := fun chain hchain => (hclaimable chain hchain).1
      inTarget := fun chain hchain => (hclaimable chain hchain).2.1
      disjoint := hdisjoint
      connected := fun chain hchain => (isConnected_iff htarget (hclaimable chain hchain).1
        (hnodup chain hchain)).mp (hclaimable chain hchain).2.2
      joined := (forall_edges_iff hlogical htarget).mp hedges }
  · intro h
    have hclaimable : ∀ chain ∈ e.chains, Claimable target chain := fun chain hchain =>
      ⟨h.nonempty chain hchain, h.inTarget chain hchain, (isConnected_iff htarget
        (h.nonempty chain hchain) (hnodup chain hchain)).mpr (h.connected chain hchain)⟩
    obtain ⟨owners, hfold⟩ := (exists_foldlM_claimChain hnodup).mpr
      ⟨hclaimable, h.disjoint, fun _ _ q _ => Table.get?_empty q⟩
    refine ⟨h.length, owners, hfold, ?_⟩
    simp only [hasCoupler_iff htarget (howners hfold)]
    exact (forall_edges_iff hlogical htarget).mpr h.joined

/-- Validation decides whether a list of chains is a minor embedding of the interaction graph. -/
theorem validate_ofChains_iff (hlogical : logical.Lawful) (htarget : target.Lawful)
    (chains : List (List Nat)) :
    (ofChains chains).validate logical target = .ok () ↔
      (ofChains chains).IsMinor logical target :=
  validate_eq_ok_iff_of_nodup hlogical htarget nodup_of_mem_ofChains

/-- A triangle in a cycle of four qubits, one variable on two of them. -/
theorem validate_ofChains_iff_triangle :
    (ofChains [[0], [1], [3, 2, 3]]).IsMinor
      ((((LogicalGraph.empty 3).addEdge 0 1).addEdge 1 2).addEdge 0 2)
      (Target.ofEdges [(0, 1), (1, 2), (2, 3), (3, 0)]) :=
  (validate_ofChains_iff
    ((((LogicalGraph.lawful_empty 3).addEdge 0 1).addEdge 1 2).addEdge 0 2)
    (Target.lawful_ofEdges _) _).mp (by decide +kernel)

end Validate

end Embedding

end SpinGlass

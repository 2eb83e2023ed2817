import SpinGlass.Proofs.Embedding.Minor
import SpinGlass.Proofs.Physical.Placement

/-!
# Placing a problem on a valid embedding

The embedding was validated against the graph of the problem, which has an edge for every term that
is not zero and for every chain. So each of them finds a coupler, and placing the problem never
fails. What is placed keeps to the couplers of the target, and on a vector that shows an assignment
the machine reports the energy of the problem and of the couplers that tie qubits together.
-/

namespace SpinGlass

namespace Embedding

/-- The couplers of a target with both ends in one chain. -/
def edgesInside (e : Embedding) (target : Target) : List (Nat × Nat) :=
  target.edges.filter fun edge =>
    e.chains.any fun chain => chain.contains edge.1 && chain.contains edge.2

end Embedding

theorem Pair.of_injective (a : Nat) : Function.Injective (Pair.of a) := by
  intro b b' h
  unfold Pair.of at h
  split at h <;> split at h <;> simp only [Pair.mk.injEq] at h <;> omega

namespace PhysicalProblem

section Inside

variable {target : Target} (htarget : target.Lawful)

include htarget

/-- The couplers inside a chain are the edges with both ends in it. -/
theorem mem_couplersInside_iff {chain : List Nat} {e : Pair} :
    e ∈ couplersInside target chain ↔
      (e.lo, e.hi) ∈ target.edges ∧ e.lo ∈ chain ∧ e.hi ∈ chain := by
  induction chain with
  | nil => simp [couplersInside]
  | cons a rest ih =>
    have hfirst : e ∈ (rest.filter (target.hasEdge a ·)).map (Pair.of a) ↔
        (e.lo, e.hi) ∈ target.edges ∧ ∃ b ∈ rest, .of a b = e := by
      rw [List.mem_map]
      constructor
      · rintro ⟨b, hb, rfl⟩
        obtain ⟨hmem, hedge⟩ := List.mem_filter.mp hb
        exact ⟨htarget.of_mem_edges_iff.mpr hedge, b, hmem, rfl⟩
      · rintro ⟨hedge, b, hmem, rfl⟩
        exact ⟨b, List.mem_filter.mpr ⟨hmem, htarget.of_mem_edges_iff.mp hedge⟩, rfl⟩
    rw [couplersInside, List.mem_append, hfirst, ih, ← and_or_left]
    refine and_congr_right fun hedge => ?_
    have hlt := (htarget.mem_edges_iff.mp hedge).1
    simp only [List.mem_cons]
    constructor
    · rintro (⟨b, hb, rfl⟩ | ⟨hlo, hhi⟩)
      · unfold Pair.of
        split <;> simp [hb]
      · exact ⟨.inr hlo, .inr hhi⟩
    · rintro ⟨rfl | hlo, heq | hhi⟩
      · omega
      · exact .inl ⟨_, hhi, Pair.of_of_lt hlt⟩
      · exact .inl ⟨_, hlo, by rw [← heq, Pair.of_comm, Pair.of_of_lt hlt]⟩
      · exact .inr ⟨hlo, hhi⟩

/-- No coupler inside a chain is listed twice. -/
theorem nodup_couplersInside {chain : List Nat} (hnodup : chain.Nodup) :
    (couplersInside target chain).Nodup := by
  induction chain with
  | nil => exact .nil
  | cons a rest ih =>
    obtain ⟨ha, hrest⟩ := List.nodup_cons.mp hnodup
    refine List.Nodup.append ((hrest.filter _).map (Pair.of_injective a)) (ih hrest) ?_
    intro e he he'
    obtain ⟨_, hlo, hhi⟩ := (mem_couplersInside_iff htarget).mp he'
    obtain ⟨b, _, rfl⟩ := List.mem_map.mp he
    unfold Pair.of at hlo hhi
    split at hlo
    · exact ha hlo
    · next hlt =>
      rw [if_neg hlt] at hhi
      exact ha hhi

/-- The couplers that tie the chains are as many as the edges inside the chains. -/
theorem length_couplersInside {e : Embedding} (hnodup : ∀ chain ∈ e.chains, chain.Nodup)
    (hdisjoint : e.chains.Pairwise List.Disjoint) :
    (e.chains.flatMap (couplersInside target)).length = (e.edgesInside target).length := by
  have hinside : (e.chains.flatMap (couplersInside target)).Nodup := by
    refine List.nodup_flatMap.mpr
      ⟨fun chain hchain => nodup_couplersInside htarget (hnodup chain hchain), ?_⟩
    refine hdisjoint.imp fun {a b} hab => ?_
    intro edge ha hb
    exact hab ((mem_couplersInside_iff htarget).mp ha).2.1
      ((mem_couplersInside_iff htarget).mp hb).2.1
  have hedges : ((e.edgesInside target).map fun edge => Pair.mk edge.1 edge.2).Nodup := by
    refine (htarget.nodup_edges.filter _).map fun edge edge' h => ?_
    exact Prod.ext (Pair.mk.inj h).1 (Pair.mk.inj h).2
  have hperm := (List.perm_ext_iff_of_nodup hinside hedges).mpr fun edge => ?_
  · rw [hperm.length_eq, List.length_map]
  · simp only [List.mem_flatMap, mem_couplersInside_iff htarget, List.mem_map,
      Embedding.edgesInside, List.mem_filter, List.any_eq_true, Bool.and_eq_true,
      List.contains_iff_mem]
    constructor
    · rintro ⟨chain, hchain, hedge, hends⟩
      exact ⟨(edge.lo, edge.hi), ⟨hedge, chain, hchain, hends⟩, rfl⟩
    · rintro ⟨⟨lo, hi⟩, ⟨hedge, chain, hchain, hends⟩, rfl⟩
      exact ⟨chain, hchain, hedge, hends⟩

end Inside

section Couplers

variable {K : Type} {target : Target}

/-- The terms and ties of a physical problem are on edges of the target. -/
structure OnEdges (target : Target) (p : PhysicalProblem K) : Prop where
  strengths : ∀ e, p.strengths.contains e = true → (e.lo, e.hi) ∈ target.edges
  chains : ∀ e, p.chains.contains e = true → (e.lo, e.hi) ∈ target.edges

variable [Coefficient K] {p p' : PhysicalProblem K}

theorem OnEdges.addStrength (h : p.OnEdges target) {e : Pair} (he : (e.lo, e.hi) ∈ target.edges)
    (j : K) : (p.addStrength e j).OnEdges target := by
  refine ⟨fun f hf => ?_, h.chains⟩
  obtain ⟨k, hk⟩ := Table.contains_iff.mp hf
  unfold PhysicalProblem.addStrength at hk
  rw [Table.get?_alter] at hk
  split at hk
  · next heq => exact heq ▸ he
  · exact h.strengths f (Table.contains_iff.mpr ⟨k, hk⟩)

theorem OnEdges.addChain (h : p.OnEdges target) {e : Pair} (he : (e.lo, e.hi) ∈ target.edges)
    (strength : K) : (addChain strength p e).OnEdges target := by
  refine ⟨(h.addStrength he strength).strengths, fun f hf => ?_⟩
  rcases KeySet.contains_insert_iff.mp hf with rfl | hf
  · exact he
  · exact h.chains f hf

/-- A coupler that is found is an edge. -/
theorem mem_edges_of_couplerOf (htarget : target.Lawful) {embedding : Embedding} {q e : Pair}
    {fault : EmbeddingFault} (h : couplerOf embedding target q fault = .ok e) :
    (e.lo, e.hi) ∈ target.edges := by
  obtain ⟨⟨a, _, b, _, rfl⟩, hedge⟩ := couplerOf_eq_ok h
  have hne : a ≠ b := by
    rintro rfl
    exact htarget.ne_of_hasEdge hedge (by unfold Pair.of; split <;> rfl)
  exact htarget.mem_edges_iff.mpr ⟨Pair.of_lo_lt_hi hne, hedge⟩

/-- A placed problem keeps to the edges of the target. -/
theorem onEdges_reconcile (htarget : target.Lawful) {logical : Problem K} {embedding : Embedding}
    {chainStrength : K} (h : reconcile logical embedding target chainStrength = .ok p) :
    p.OnEdges target := by
  obtain ⟨p₁, p₂, p₃, hweights, hstrengths, hties, rfl⟩ := reconcile_eq_ok.mp h
  have hempty : (empty embedding logical.toIsing.offset).OnEdges target :=
    ⟨fun e he => by simp [empty, Table.contains, Table.empty] at he,
      fun e he => by simp [empty, Table.contains, Table.empty] at he⟩
  have h₁ : p₁.OnEdges target := by
    refine holds_of_foldlM hempty (fun q hq term _ next hnext => ?_) hweights
    obtain ⟨_, _, rfl⟩ := placeWeight_eq_ok.mp hnext
    exact ⟨hq.strengths, hq.chains⟩
  have h₂ : p₂.OnEdges target := by
    refine holds_of_foldlM h₁ (fun q hq term _ next hnext => ?_) hstrengths
    obtain ⟨e, hcoupler, rfl⟩ := placeStrength_eq_ok.mp hnext
    exact hq.addStrength (mem_edges_of_couplerOf htarget hcoupler) term.2
  have hinside := List.foldlRecOn (embedding.chains.flatMap (couplersInside target))
    (addChain chainStrength) (motive := OnEdges target) h₂ fun q hq e he => by
      obtain ⟨chain, _, he⟩ := List.mem_flatMap.mp he
      exact hq.addChain ((mem_couplersInside_iff htarget).mp he).1 chainStrength
  have h₃ : p₃.OnEdges target := by
    refine holds_of_foldlM hinside (fun q hq term _ next hnext => ?_) hties
    obtain ⟨e, hcoupler, rfl⟩ := placeChain_eq_ok.mp hnext
    exact hq.addChain (mem_edges_of_couplerOf htarget hcoupler) chainStrength
  refine ⟨fun e he => ?_, h₃.chains⟩
  obtain ⟨j, hj⟩ := Table.contains_iff.mp he
  rw [Table.nonzero, Table.get?_filter, Option.filter_eq_some_iff] at hj
  exact h₃.strengths e (Table.contains_iff.mpr ⟨j, hj.1⟩)

end Couplers

section Scatter

variable {α κ σ ε : Type} [Ord κ] [Std.TransOrd κ] [Std.LawfulEqOrd κ] [DecidableEq κ]
  {step : σ → α × ℚ → Except ε σ} {table : σ → Table κ ℚ} {place : α → κ → Prop}

/-- Terms that are added up at their places are found there if the places are different and nothing
was there before. -/
theorem get?_foldlM_scatter
    (hplace : ∀ a k k', place a k → place a k' → k = k')
    (hstep : ∀ s term s', step s term = .ok s' → ∃ k, place term.1 k ∧
      table s' = (table s).alter k fun old => old.getD 0 + term.2) {terms : List (α × ℚ)}
    (hapart : ∀ x ∈ terms, ∀ y ∈ terms, ∀ k, place x.1 k → place y.1 k → x.1 = y.1)
    (hkeys : (terms.map (·.1)).Nodup) {s s' : σ}
    (hfree : ∀ term ∈ terms, ∀ k, place term.1 k → (table s).get? k = none)
    (h : terms.foldlM step s = .ok s') (k : κ) (w : ℚ) :
    (table s').get? k = some w ↔
      (table s).get? k = some w ∨ ∃ a, place a k ∧ (a, w) ∈ terms := by
  induction terms generalizing s with
  | nil =>
    cases h
    simp
  | cons term rest ih =>
    obtain ⟨next, hfirst, h⟩ := foldlM_cons_eq_ok.mp h
    obtain ⟨first, hfirst, htable⟩ := hstep s term next hfirst
    obtain ⟨hterm, hfree⟩ := List.forall_mem_cons.mp hfree
    obtain ⟨hnew, hkeys⟩ := List.nodup_cons.mp hkeys
    have hget : ∀ r, (table next).get? r =
        if r = first then some term.2 else (table s).get? r := by
      intro r
      simp [htable, Table.get?_alter, hterm first hfirst]
    have hother : ∀ a x, (a, x) ∈ rest → ¬ place a first := by
      intro a x hmem ha
      have heq : a = term.1 := hapart (a, x) (List.mem_cons_of_mem _ hmem) term List.mem_cons_self
        first ha hfirst
      subst heq
      exact hnew (List.mem_map.mpr ⟨_, hmem, rfl⟩)
    have hfree' : ∀ e ∈ rest, ∀ r, place e.1 r → (table next).get? r = none := by
      intro e he r hr
      have hne : r ≠ first := by
        rintro rfl
        exact hother e.1 e.2 he hr
      rw [hget, if_neg hne]
      exact hfree e he r hr
    have hapart' : ∀ x ∈ rest, ∀ y ∈ rest, ∀ k, place x.1 k → place y.1 k → x.1 = y.1 :=
      fun x hx y hy => hapart x (List.mem_cons_of_mem _ hx) y (List.mem_cons_of_mem _ hy)
    rw [ih hapart' hkeys hfree' h, hget]
    by_cases hk : k = first
    · subst hk
      rw [if_pos rfl]
      constructor
      · rintro (hw | ⟨a, ha, hmem⟩)
        · cases hw
          exact .inr ⟨term.1, hfirst, List.mem_cons_self⟩
        · exact absurd ha (hother a w hmem)
      · rintro (hw | ⟨a, ha, hmem⟩)
        · rw [hterm k hfirst] at hw
          cases hw
        · rcases List.mem_cons.mp hmem with rfl | hmem
          · exact .inl rfl
          · exact absurd ha (hother a w hmem)
    · rw [if_neg hk]
      refine or_congr Iff.rfl (exists_congr fun a => and_congr_right fun ha => ?_)
      rw [List.mem_cons]
      refine ⟨.inr, fun hmem => hmem.resolve_left ?_⟩
      rintro rfl
      exact hk (hplace a k first ha hfirst)

end Scatter

section Weights

variable {embedding : Embedding}

/-- No two chains begin with one qubit. -/
def HeadsApart (embedding : Embedding) : Prop :=
  ∀ i j q, (embedding.chain i).head? = some q → (embedding.chain j).head? = some q → i = j

/-- Linear terms of different variables come to different qubits. -/
theorem get?_foldlM_placeWeight (hapart : HeadsApart embedding) {terms : List (Nat × ℚ)}
    {p p' : PhysicalProblem ℚ} (hkeys : (terms.map (·.1)).Nodup)
    (hfree : ∀ term ∈ terms, ∀ q, (embedding.chain term.1).head? = some q →
      p.weights.get? q = none)
    (h : terms.foldlM (placeWeight embedding) p = .ok p') (q : Nat) (w : ℚ) :
    p'.weights.get? q = some w ↔ p.weights.get? q = some w ∨
      ∃ i, (embedding.chain i).head? = some q ∧ (i, w) ∈ terms := by
  have hplace : ∀ i q q', (embedding.chain i).head? = some q →
      (embedding.chain i).head? = some q' → q = q' := fun i q q' hq hq' =>
    Option.some.inj (hq.symm.trans hq')
  refine get?_foldlM_scatter hplace (fun p term p' hok => ?_)
    (fun x _ y _ q => hapart x.1 y.1 q) hkeys hfree h q w
  obtain ⟨first, hhead, rfl⟩ := placeWeight_eq_ok.mp hok
  exact ⟨first, hhead, rfl⟩

/-- The weights of a placed problem are the linear terms that are not zero, each on the lowest qubit
of the chain of its variable. -/
theorem get?_weights_reconcile (hapart : HeadsApart embedding) {logical : Problem ℚ}
    {target : Target} {chainStrength : ℚ} {p : PhysicalProblem ℚ}
    (h : reconcile logical embedding target chainStrength = .ok p) (q : Nat) (w : ℚ) :
    p.weights.get? q = some w ↔ ∃ i, (embedding.chain i).head? = some q ∧
      logical.toIsing.weights.get? i = some w ∧ w ≠ 0 := by
  obtain ⟨p₁, p₂, p₃, hweights, hstrengths, hties, rfl⟩ := reconcile_eq_ok.mp h
  -- strengths and ties leave the weights alone
  let Same (q : PhysicalProblem ℚ) : Prop := q.weights = p₁.weights
  have h₂ : Same p₂ := by
    refine holds_of_foldlM (motive := Same) rfl (fun q hq term _ next hnext => ?_) hstrengths
    obtain ⟨e, _, rfl⟩ := placeStrength_eq_ok.mp hnext
    exact hq
  have hinside := List.foldlRecOn (embedding.chains.flatMap (couplersInside target))
    (addChain chainStrength) (motive := Same) h₂ fun q hq e _ => hq
  have h₃ : p₃.weights = p₁.weights := by
    refine holds_of_foldlM (motive := Same) hinside (fun q hq term _ next hnext => ?_) hties
    obtain ⟨e, _, rfl⟩ := placeChain_eq_ok.mp hnext
    exact hq
  have hempty : ∀ term ∈ logical.toIsing.weights.nonzero.entries, ∀ q,
      (embedding.chain term.1).head? = some q →
        (empty embedding logical.toIsing.offset : PhysicalProblem ℚ).weights.get? q = none :=
    fun _ _ q _ => Table.get?_empty q
  have hplaced := get?_foldlM_placeWeight hapart (Table.nodup_keys _) hempty hweights q w
  simp only [empty, Table.get?_empty, reduceCtorEq, false_or] at hplaced
  simp only [h₃, hplaced, ← Table.get?_eq_some_iff, Table.get?_nonzero]

end Weights

section Total

variable {target : Target} {embedding : Embedding}

/-- Two chains that are joined have a lowest coupler. -/
theorem exists_couplerOf (htarget : target.Lawful) {q : Pair} (fault : EmbeddingFault)
    (hjoined : ∃ a ∈ embedding.chain q.lo, ∃ b ∈ embedding.chain q.hi,
      target.hasEdge a b = true) :
    ∃ e, couplerOf embedding target q fault = .ok e := by
  obtain ⟨a, ha, b, hb, hedge⟩ := hjoined
  have hlo := chainOf_eq_ok.mpr ⟨List.ne_nil_of_mem ha, rfl⟩
  have hhi := chainOf_eq_ok.mpr ⟨List.ne_nil_of_mem hb, rfl⟩
  have hmem : .of a b ∈ couplersBetween target (embedding.chain q.lo) (embedding.chain q.hi) :=
    mem_couplersBetween_iff.mpr
      ⟨⟨a, ha, b, hb, rfl⟩, (htarget.mem_edges_iff.mp (htarget.of_mem_edges_iff.mpr hedge)).2⟩
  unfold couplerOf
  rw [hlo, hhi]
  cases hlowest : lowestCoupler? target (embedding.chain q.lo) (embedding.chain q.hi) with
  | some e => exact ⟨e, by simp [hlowest, Bind.bind, Except.bind, Pure.pure, Except.pure]⟩
  | none =>
    have hnil := List.head?_eq_none_iff.mp hlowest
    have hsorted := mem_sortDistinct.mpr hmem
    rw [hnil] at hsorted
    cases hsorted

/-- Placing a problem succeeds where every term that is not zero finds its place. -/
theorem exists_reconcile {K : Type} [Coefficient K] {logical : Problem K} (htarget : target.Lawful)
    (hweights : ∀ i w, logical.toIsing.weights.get? i = some w → embedding.chain i ≠ [])
    (hpairs : ∀ q, LogicalGraph.Shares logical.toIsing q →
      ∃ a ∈ embedding.chain q.lo, ∃ b ∈ embedding.chain q.hi, target.hasEdge a b = true)
    (chainStrength : K) : ∃ p, reconcile logical embedding target chainStrength = .ok p := by
  obtain ⟨p₁, h₁⟩ : ∃ p₁, logical.toIsing.weights.nonzero.entries.foldlM (placeWeight embedding)
      (empty embedding logical.toIsing.offset) = .ok p₁ := by
    refine exists_foldlM_eq_ok fun term hterm p => ?_
    have hget := Table.get?_eq_some_iff.mpr hterm
    rw [Table.nonzero, Table.get?_filter, Option.filter_eq_some_iff] at hget
    obtain ⟨q, hq⟩ := Option.isSome_iff_exists.mp
      (List.isSome_head?.mpr (hweights term.1 term.2 hget.1))
    exact ⟨_, placeWeight_eq_ok.mpr ⟨q, hq, rfl⟩⟩
  obtain ⟨p₂, h₂⟩ : ∃ p₂, logical.toIsing.strengths.nonzero.entries.foldlM
      (placeStrength embedding target) p₁ = .ok p₂ := by
    refine exists_foldlM_eq_ok fun term hterm p => ?_
    obtain ⟨e, he⟩ := exists_couplerOf htarget (.noCouplerForTerm term.1.lo term.1.hi)
      (hpairs term.1 (.inl (List.mem_map_of_mem hterm)))
    exact ⟨_, placeStrength_eq_ok.mpr ⟨e, he, rfl⟩⟩
  obtain ⟨p₃, h₃⟩ : ∃ p₃, (KeySet.toList logical.toIsing.chains).foldlM
      (placeChain embedding target chainStrength)
      ((embedding.chains.flatMap (couplersInside target)).foldl (addChain chainStrength) p₂) =
        .ok p₃ := by
    refine exists_foldlM_eq_ok fun q hq p => ?_
    obtain ⟨e, he⟩ := exists_couplerOf htarget (.noCouplerForChain q.lo q.hi)
      (hpairs q (.inr (KeySet.mem_toList_iff.mp hq)))
    exact ⟨_, placeChain_eq_ok.mpr ⟨e, he, rfl⟩⟩
  exact ⟨_, reconcile_eq_ok.mpr ⟨p₁, p₂, p₃, h₁, h₂, h₃, rfl⟩⟩

end Total

section Minor

variable {p : Problem ℚ} {n : Nat} {target : Target} {e : Embedding}

/-- In a minor embedding of the graph of a problem, the chains of two variables are joined if the
problem over spins has a term or a chain for them. -/
theorem joined_of_shares (hp : p.Over (· < n))
    (hminor : e.IsMinor (.ofProblem p n) target) {q : Pair}
    (hq : LogicalGraph.Shares p.toIsing q) :
    ∃ a ∈ e.chain q.lo, ∃ b ∈ e.chain q.hi, target.hasEdge a b = true := by
  have hshares : LogicalGraph.Shares p q := by
    rcases hq with hq | hq
    · left
      obtain ⟨j, hj⟩ := Table.mem_keys_iff.mp hq
      obtain ⟨hj, hne⟩ := Table.get?_nonzero.mp hj
      obtain ⟨b, hb⟩ := Problem.get?_toIsing hp hne hj
      exact Table.mem_keys_iff.mpr ⟨b, Table.get?_nonzero.mpr hb⟩
    · right
      rwa [(Problem.toIsing_spec hp).2.chains] at hq
  obtain ⟨hlt, _, _⟩ := hshares.joins hp
  refine hminor.joined q.lo q.hi ((LogicalGraph.mem_neighbors_ofProblem hp).mpr ⟨hlt.ne, ?_⟩)
  rwa [Pair.of_of_lt hlt]

/-- A problem can be placed on every embedding that is valid for its graph. The placed problem keeps
to the edges of the target, its weights are the linear terms on the chains of their variables, and
on every vector that shows an assignment its energy is that of the problem, plus the chain strength
for each edge inside a chain, and times the spins for each chain of the problem. -/
theorem exists_reconcile_of_validate {chains : List (List Nat)} (hp : p.Over (· < n))
    (htarget : target.Lawful)
    (hvalid : (Embedding.ofChains chains).validate (.ofProblem p n) target = .ok ())
    (chainStrength : ℚ) :
    ∃ placed, reconcile p (.ofChains chains) target chainStrength = .ok placed ∧
      placed.OnEdges target ∧
      (∀ q w, placed.weights.get? q = some w ↔
        ∃ i, ((Embedding.ofChains chains).chain i).head? = some q ∧
          p.toIsing.weights.get? i = some w ∧ w ≠ 0) ∧
      ∀ spins vector : Assignment, spins.Covers n →
        (Embedding.ofChains chains).Shows vector spins →
        placed.sampleEnergy vector + placed.offset = p.toIsing.energy spins +
          chainStrength * (((Embedding.ofChains chains).edgesInside target).length +
            p.chains.total fun q _ =>
              Problem.value .ising spins q.lo * Problem.value .ising spins q.hi) := by
  have hnodup : ∀ chain ∈ (Embedding.ofChains chains).chains, chain.Nodup :=
    Embedding.nodup_of_mem_ofChains
  have hminor := (Embedding.validate_eq_ok_iff_of_nodup
    (LogicalGraph.lawful_ofProblem p n) htarget hnodup).mp hvalid
  have hlength : (Embedding.ofChains chains).chains.length = n :=
    hminor.length.trans (LogicalGraph.size_ofProblem hp)
  have hweights : ∀ i w, p.toIsing.weights.get? i = some w →
      (Embedding.ofChains chains).chain i ≠ [] := by
    intro i w hi
    have hlt : i < n := (Problem.toIsing_spec hp).1.weights i w hi
    exact hminor.nonempty _ (Embedding.chain_mem (hlength.symm ▸ hlt))
  obtain ⟨placed, hplaced⟩ := exists_reconcile htarget hweights
    (fun q hq => joined_of_shares hp hminor hq) chainStrength
  have hapart : HeadsApart (.ofChains chains) := fun i j q hi hj =>
    hminor.eq_of_mem_chain (List.mem_of_head? hi) (List.mem_of_head? hj)
  refine ⟨placed, hplaced, onEdges_reconcile htarget hplaced,
    get?_weights_reconcile hapart hplaced, fun spins vector hcovers hshows => ?_⟩
  rw [← length_couplersInside htarget hnodup hminor.disjoint]
  exact sampleEnergy_reconcile_add_offset hp hplaced hshows fun i hi =>
    hcovers i (hlength ▸ hi)

/-- Two variables over bits with a term each and one between them, chained to each other, on a cycle
of four qubits. -/
theorem exists_reconcile_of_validate_cycle :
    ∃ placed : PhysicalProblem ℚ,
      reconcile
        { ((Problem.empty .qubo).addWeight 0 3).addStrength 0 1 (-8) with
          chains := KeySet.insert .empty (.of 0 1) }
        (.ofChains [[1, 0], [2]]) (.ofEdges [(0, 1), (1, 2), (2, 3), (3, 0)]) (-5) = .ok placed ∧
      placed.OnEdges (.ofEdges [(0, 1), (1, 2), (2, 3), (3, 0)]) := by
  have hterms : (((Problem.empty .qubo : Problem ℚ).addWeight 0 3).addStrength 0 1 (-8)).Over
      (· < 2) :=
    ((Problem.over_empty .qubo).addWeight (by decide) 3).addStrength (by decide) (by decide) (-8)
  obtain ⟨placed, hplaced, hedges, _⟩ := exists_reconcile_of_validate
    (hterms.insertChain Nat.zero_ne_one (by decide) (by decide))
    (Target.lawful_ofEdges [(0, 1), (1, 2), (2, 3), (3, 0)])
    (by decide +kernel : (Embedding.ofChains [[1, 0], [2]]).validate _ _ = .ok ()) (-5)
  exact ⟨placed, hplaced, hedges⟩

end Minor

end PhysicalProblem

end SpinGlass

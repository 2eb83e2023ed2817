import SpinGlass.Proofs.Physical.Reconcile

/-!
# The strengths of ties

Terms of different pairs come to different couplers, none of them inside a chain. So a coupler that
ties qubits together has one term at most, and what ties it is added to that. Where the strength of
ties outweighs the terms it meets, no tie is lost.
-/

namespace SpinGlass

namespace Embedding

/-- A qubit of a valid embedding is in one chain. -/
theorem Valid.eq_of_mem_chain {e : Embedding} {size i j q : Nat} (h : e.Valid size)
    (hi : q ∈ e.chain i) (hj : q ∈ e.chain j) : i = j := by
  obtain ⟨owners, howner⟩ := h.owner
  exact Option.some.inj (((howner q i).mpr hi).symm.trans ((howner q j).mpr hj))

end Embedding

namespace PhysicalProblem

variable {target : Target} {embedding : Embedding} {size : Nat}

section Couplers

/-- Different pairs of variables are joined by different couplers. -/
theorem eq_of_couplerOf (hvalid : embedding.Valid size) {q q' e : Pair} (hq : q.lo < q.hi)
    (hq' : q'.lo < q'.hi) {fault fault' : EmbeddingFault}
    (h : couplerOf embedding target q fault = .ok e)
    (h' : couplerOf embedding target q' fault' = .ok e) : q = q' := by
  obtain ⟨⟨a, ha, b, hb, rfl⟩, _⟩ := couplerOf_eq_ok h
  obtain ⟨⟨a', ha', b', hb', heq⟩, _⟩ := couplerOf_eq_ok h'
  rcases Pair.of_eq_of_iff.mp heq with ⟨rfl, rfl⟩ | ⟨rfl, rfl⟩
  · have hlo := hvalid.eq_of_mem_chain ha ha'
    have hhi := hvalid.eq_of_mem_chain hb hb'
    obtain ⟨lo, hi⟩ := q
    obtain ⟨lo', hi'⟩ := q'
    exact congrArg₂ Pair.mk hlo hhi
  · -- the ends cannot change places, as they are in order
    have hlo := hvalid.eq_of_mem_chain ha hb'
    have hhi := hvalid.eq_of_mem_chain hb ha'
    omega

/-- A coupler between two variables is not inside a chain. -/
theorem not_mem_couplersInside_of_couplerOf (hvalid : embedding.Valid size) {q e : Pair}
    (hq : q.lo < q.hi) {fault : EmbeddingFault} (h : couplerOf embedding target q fault = .ok e) :
    e ∉ embedding.chains.flatMap (couplersInside target) := by
  intro he
  obtain ⟨chain, hchain, he⟩ := List.mem_flatMap.mp he
  obtain ⟨i, hi, rfl⟩ := List.mem_iff_getElem.mp hchain
  rw [← Embedding.chain_eq_getElem hi] at he
  obtain ⟨⟨a, ha, b, hb, rfl⟩, _⟩ := couplerOf_eq_ok h
  obtain ⟨a', ha', b', hb', heq⟩ := mem_couplersInside he
  have hends : a ∈ embedding.chain i ∧ b ∈ embedding.chain i := by
    rcases Pair.of_eq_of_iff.mp heq with ⟨rfl, rfl⟩ | ⟨rfl, rfl⟩
    · exact ⟨ha', hb'⟩
    · exact ⟨hb', ha'⟩
  have hlo := hvalid.eq_of_mem_chain ha hends.1
  have hhi := hvalid.eq_of_mem_chain hb hends.2
  omega

/-- The quadratic terms of different pairs come to different couplers. -/
theorem get?_foldlM_placeStrength (hvalid : embedding.Valid size) {terms : List (Pair × ℚ)}
    (hkeys : (terms.map (·.1)).Nodup) (hpairs : ∀ term ∈ terms, term.1.lo < term.1.hi)
    {p p' : PhysicalProblem ℚ} (hfree : p.strengths = .empty)
    (h : terms.foldlM (placeStrength embedding target) p = .ok p') (e : Pair) (j : ℚ) :
    p'.strengths.get? e = some j ↔
      ∃ q, couplerOf embedding target q (.noCouplerForTerm q.lo q.hi) = .ok e ∧
        (q, j) ∈ terms := by
  have hplace : ∀ q e e', couplerOf embedding target q (.noCouplerForTerm q.lo q.hi) = .ok e →
      couplerOf embedding target q (.noCouplerForTerm q.lo q.hi) = .ok e' → e = e' :=
    fun q e e' he he' => Except.ok.inj (he.symm.trans he')
  refine (get?_foldlM_scatter hplace (fun p term p' hok => ?_)
    (fun x hx y hy e => eq_of_couplerOf hvalid (hpairs x hx) (hpairs y hy)) hkeys
    (fun _ _ e _ => by rw [hfree, Table.get?_empty]) h e j).trans ?_
  · obtain ⟨e, he, rfl⟩ := placeStrength_eq_ok.mp hok
    exact ⟨e, he, rfl⟩
  · rw [hfree, Table.get?_empty, or_iff_right (by simp)]

end Couplers

/-- Ties were added to a problem without ties, each to a strength of at most a limit. -/
structure Tied (base : PhysicalProblem ℚ) (limit : ℚ) (p : PhysicalProblem ℚ) : Prop where
  le : ∀ e, (p.strengths.get? e).getD 0 ≤ (base.strengths.get? e).getD 0
  tied : ∀ e, p.chains.contains e = true → ∃ j ≤ limit, p.strengths.get? e = some j

section Ties

variable {base p p' : PhysicalProblem ℚ} {limit strength bound : ℚ}

theorem tied_self (h : base.chains = .empty) : Tied base limit base := by
  refine ⟨fun _ => le_rfl, fun e he => ?_⟩
  rw [h, KeySet.contains_empty] at he
  cases he

/-- Another tie is added to what was there, and its terms are no more than at the start. -/
theorem Tied.addChain (h : Tied base limit p) (hstrength : strength ≤ 0) {e : Pair}
    (he : (base.strengths.get? e).getD 0 + strength ≤ limit) :
    Tied base limit (addChain strength p e) := by
  have hget : ∀ e', (p.addStrength e strength).strengths.get? e' =
      if e' = e then some ((p.strengths.get? e).getD 0 + strength) else p.strengths.get? e' :=
    fun e' => Table.get?_alter ..
  have hold := h.le e
  constructor
  · intro e'
    change ((p.addStrength e strength).strengths.get? e').getD 0 ≤ _
    rw [hget]
    by_cases heq : e' = e
    · rw [if_pos heq, heq, Option.getD_some]
      linarith
    · rw [if_neg heq]
      exact h.le e'
  · intro e' he'
    change ∃ j ≤ limit, (p.addStrength e strength).strengths.get? e' = some j
    rw [hget]
    by_cases heq : e' = e
    · exact ⟨_, by linarith, if_pos heq⟩
    · rw [if_neg heq]
      exact h.tied e' ((KeySet.contains_insert_iff.mp he').resolve_left heq)

/-- Before the ties there are the quadratic terms only, each on its own coupler. -/
theorem placed_terms {problem : Problem ℚ} {live : Nat → Prop} (hover : problem.Over live)
    (hvalid : embedding.Valid size) {p₁ p₂ : PhysicalProblem ℚ}
    (hweights : problem.weights.nonzero.entries.foldlM (placeWeight embedding)
      (empty embedding problem.offset) = .ok p₁)
    (hstrengths : problem.strengths.nonzero.entries.foldlM (placeStrength embedding target) p₁ =
      .ok p₂) :
    p₂.chains = .empty ∧ ∀ e j, p₂.strengths.get? e = some j →
      ∃ q, couplerOf embedding target q (.noCouplerForTerm q.lo q.hi) = .ok e ∧ q.lo < q.hi ∧
        problem.strengths.get? q = some j := by
  have h₁ : p₁.strengths = .empty ∧ p₁.chains = .empty := by
    refine holds_of_foldlM (motive := fun p : PhysicalProblem ℚ =>
      p.strengths = .empty ∧ p.chains = .empty) ⟨rfl, rfl⟩
      (fun q hq term _ next hnext => ?_) hweights
    obtain ⟨_, _, rfl⟩ := placeWeight_eq_ok.mp hnext
    exact hq
  have hget : ∀ term ∈ problem.strengths.nonzero.entries,
      problem.strengths.get? term.1 = some term.2 := fun term hterm =>
    (Table.get?_nonzero.mp (Table.get?_eq_some_iff.mpr hterm)).1
  have hpairs : ∀ term ∈ problem.strengths.nonzero.entries, term.1.lo < term.1.hi :=
    fun term hterm => (hover.strengths _ _ (hget term hterm)).1
  constructor
  · refine holds_of_foldlM (motive := fun p : PhysicalProblem ℚ => p.chains = .empty) h₁.2
      (fun q hq term _ next hnext => ?_) hstrengths
    obtain ⟨_, _, rfl⟩ := placeStrength_eq_ok.mp hnext
    exact hq
  · intro e j hj
    obtain ⟨q, hcoupler, hmem⟩ :=
      (get?_foldlM_placeStrength hvalid (Table.nodup_keys _) hpairs h₁.1 hstrengths e j).mp hj
    exact ⟨q, hcoupler, hpairs _ hmem, hget _ hmem⟩

/-- Where the strength of ties outweighs the terms between tied variables, every tie of a placed
problem keeps a negative strength. -/
theorem exists_of_mem_chains_reconcile {logical : Problem ℚ} {live : Nat → Prop}
    (hlogical : logical.toIsing.Over live) (hvalid : embedding.Valid size)
    (hstrength : strength ≤ 0) (hbound : 0 ≤ bound) (hoverweigh : bound + strength < 0)
    (hterms : ∀ q j, logical.toIsing.chains.contains q = true →
      logical.toIsing.strengths.get? q = some j → j ≤ bound)
    (h : reconcile logical embedding target strength = .ok p) {e : Pair}
    (he : p.chains.contains e = true) :
    ∃ j ≤ bound + strength, p.strengths.get? e = some j := by
  obtain ⟨p₁, p₂, p₃, hweights, hstrengths, hties, rfl⟩ := reconcile_eq_ok.mp h
  obtain ⟨hnone, hplaced⟩ := placed_terms hlogical hvalid hweights hstrengths
  have hinside : ∀ e ∈ embedding.chains.flatMap (couplersInside target),
      p₂.strengths.get? e = none := by
    intro e he
    refine Option.eq_none_iff_forall_ne_some.mpr fun j hj => ?_
    obtain ⟨q, hcoupler, hq, _⟩ := hplaced e j hj
    exact not_mem_couplersInside_of_couplerOf hvalid hq hcoupler he
  have hbetween : ∀ q e, logical.toIsing.chains.contains q = true →
      couplerOf embedding target q (.noCouplerForChain q.lo q.hi) = .ok e →
        (p₂.strengths.get? e).getD 0 ≤ bound := by
    intro q e hq hcoupler
    cases hj : p₂.strengths.get? e with
    | none => exact hbound
    | some j =>
      obtain ⟨q', hcoupler', hq', hget⟩ := hplaced e j hj
      have heq : q' = q :=
        eq_of_couplerOf hvalid hq' (hlogical.chains q hq).1 hcoupler' hcoupler
      subst heq
      exact hterms q' j hq hget
  have htied : Tied p₂ (bound + strength) p₃ := by
    have hfirst := List.foldlRecOn (embedding.chains.flatMap (couplersInside target))
      (addChain strength) (motive := Tied p₂ (bound + strength)) (tied_self hnone) fun q hq e he =>
        hq.addChain hstrength (by rw [hinside e he, Option.getD_none]; linarith)
    refine holds_of_foldlM hfirst (fun q hq pair hpair next hnext => ?_) hties
    obtain ⟨e, hcoupler, rfl⟩ := placeChain_eq_ok.mp hnext
    have hle := hbetween pair e (KeySet.mem_toList_iff.mp hpair) hcoupler
    exact hq.addChain hstrength (by linarith)
  obtain ⟨j, hle, hj⟩ := htied.tied e he
  exact ⟨j, hle, Table.get?_nonzero.mpr ⟨hj, by linarith⟩⟩

end Ties

end PhysicalProblem

end SpinGlass

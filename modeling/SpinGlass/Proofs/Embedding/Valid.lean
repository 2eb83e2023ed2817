import SpinGlass.Embedding.Strategy
import SpinGlass.Proofs.Embedding.Interaction
import SpinGlass.Proofs.Success

/-!
# Valid embeddings

An embedding that is found has a chain for every variable, none of them is empty, and every qubit
has at most one owner. Nothing else is used of the search.
-/

namespace SpinGlass

namespace Embedding

theorem chain_eq_getElem {e : Embedding} {i : Nat} (hi : i < e.chains.length) :
    e.chain i = e.chains[i] := by
  simp [chain, List.getD_eq_getElem?_getD, hi]

theorem chain_mem {e : Embedding} {i : Nat} (hi : i < e.chains.length) : e.chain i ∈ e.chains := by
  rw [chain_eq_getElem hi]
  exact List.getElem_mem hi

theorem chain_eq_nil {e : Embedding} {i : Nat} (hi : ¬ i < e.chains.length) : e.chain i = [] := by
  simp [chain, List.getD_eq_getElem?_getD, Nat.not_lt.mp hi]

/-- Only the variables of an embedding have qubits. -/
theorem lt_length_of_mem_chain {e : Embedding} {i q : Nat} (hq : q ∈ e.chain i) :
    i < e.chains.length := by
  by_contra hi
  rw [chain_eq_nil hi] at hq
  cases hq

/-- Every chain has a qubit, and every qubit has at most one owner. -/
structure Valid (e : Embedding) (size : Nat) : Prop where
  length : e.chains.length = size
  nonempty : ∀ chain ∈ e.chains, chain ≠ []
  owner : ∃ owners : Owners, ∀ q i, owners.get? q = some i ↔ q ∈ e.chain i

section Claim

variable {target : Target} {owners owners' : Owners}

/-- A qubit can be claimed if it is in the target and free; then it gets its owner. -/
theorem claimQubit_eq_ok {v q : Nat} :
    claimQubit target v owners q = .ok owners' ↔
      target.contains q = true ∧ owners.get? q = none ∧ owners.insert q v = owners' := by
  unfold claimQubit
  cases hcontains : target.contains q with
  | false => simp
  | true => cases hfree : owners.get? q <;> simp

/-- A chain that is claimed adds its qubits to those of its variable. -/
theorem get?_foldlM_claimQubit {v : Nat} {chain : List Nat}
    (h : chain.foldlM (claimQubit target v) owners = .ok owners') (q i : Nat) :
    owners'.get? q = some i ↔ owners.get? q = some i ∨ i = v ∧ q ∈ chain := by
  induction chain generalizing owners with
  | nil =>
    cases h
    simp
  | cons a rest ih =>
    obtain ⟨next, hfirst, h⟩ := foldlM_cons_eq_ok.mp h
    obtain ⟨_, hfree, rfl⟩ := claimQubit_eq_ok.mp hfirst
    rw [ih h, Table.get?_insert, List.mem_cons]
    by_cases hqa : q = a
    · simp [hqa, hfree, eq_comm]
      tauto
    · simp [hqa]

/-- A chain can be claimed if it is not empty, its qubits can, and it is connected. -/
theorem claimChain_eq_ok {chain : List Nat} {v : Nat} :
    claimChain target owners (chain, v) = .ok owners' ↔
      chain ≠ [] ∧ chain.foldlM (claimQubit target v) owners = .ok owners' ∧
        isConnected target chain = true := by
  unfold claimChain
  cases chain with
  | nil => simp [throw, throwThe, MonadExceptOf.throw, Bind.bind, Except.bind]
  | cons q rest =>
    cases hclaim : (q :: rest).foldlM (claimQubit target v) owners with
    | error _ => simp [hclaim, Bind.bind, Except.bind]
    | ok found =>
      cases hconnected : isConnected target (q :: rest) <;>
        simp [hclaim, hconnected, throw, throwThe, MonadExceptOf.throw, Bind.bind, Except.bind,
          Pure.pure, Except.pure]

/-- Claiming chains one after the other makes every qubit one of its chain. -/
theorem get?_foldlM_claimChain {chains : List (List Nat)} {start : Nat}
    (h : (chains.zipIdx start).foldlM (claimChain target) owners = .ok owners') :
    (∀ chain ∈ chains, chain ≠ []) ∧ ∀ q i, owners'.get? q = some i ↔
      owners.get? q = some i ∨ start ≤ i ∧ q ∈ chains.getD (i - start) [] := by
  induction chains generalizing owners start with
  | nil =>
    cases h
    simp
  | cons chain rest ih =>
    rw [List.zipIdx_cons] at h
    obtain ⟨next, hfirst, h⟩ := foldlM_cons_eq_ok.mp h
    obtain ⟨hne, hclaim, _⟩ := claimChain_eq_ok.mp hfirst
    obtain ⟨hrest, hget⟩ := ih h
    refine ⟨List.forall_mem_cons.mpr ⟨hne, hrest⟩, fun q i => ?_⟩
    rw [hget, get?_foldlM_claimQubit hclaim, or_assoc]
    refine or_congr Iff.rfl ?_
    rcases Nat.lt_trichotomy i start with hlt | rfl | hgt
    · simp [Nat.not_le.mpr hlt, Nat.ne_of_lt hlt, show ¬ start + 1 ≤ i by omega]
    · simp
    · have hsub : i - start = i - (start + 1) + 1 := by omega
      simp [hsub, Nat.ne_of_gt hgt, show start + 1 ≤ i by omega, hgt.le]

end Claim

/-- A validated embedding is valid. -/
theorem valid_of_validate {e : Embedding} {logical : LogicalGraph} {target : Target}
    (h : e.validate logical target = .ok ()) : e.Valid logical.size := by
  unfold validate at h
  split at h
  · cases h
  · next hsize =>
    obtain ⟨owners, howners, _⟩ := bind_eq_ok.mp h
    obtain ⟨hne, hget⟩ := get?_foldlM_claimChain howners
    refine ⟨by simpa [Embedding.size] using hsize, hne, owners, fun q i => ?_⟩
    rw [hget]
    simp [Embedding.chain]

/-- The chain of a variable of a valid embedding is not empty. -/
theorem Valid.chain_ne_nil {e : Embedding} {size i : Nat} (h : e.Valid size) (hi : i < size) :
    e.chain i ≠ [] := by
  rw [← h.length] at hi
  exact h.nonempty _ (chain_mem hi)

end Embedding

/-- An embedding that is found is valid. -/
theorem Strategy.valid_of_embed {K : Type} [Coefficient K] {strategy : Strategy K}
    {logical : LogicalGraph} {target : Target} {cancelled : Bool} {e : Embedding}
    (h : strategy.embed logical target cancelled = .ok e) : e.Valid logical.size := by
  unfold Strategy.embed at h
  dsimp only at h
  split at h
  · next hzero =>
    cases h
    exact ⟨hzero.symm, by simp, .empty, by simp [Embedding.chain]⟩
  · split at h
    · cases h
    · split at h
      · cases h
      · obtain ⟨found, _, h⟩ := bind_eq_ok.mp h
        obtain ⟨_, hvalid, h⟩ := bind_eq_ok.mp h
        cases h
        exact Embedding.valid_of_validate hvalid

end SpinGlass

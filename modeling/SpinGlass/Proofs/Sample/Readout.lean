import SpinGlass.Proofs.Physical.Placement
import SpinGlass.Sample.Decode
import Mathlib.Algebra.Order.BigOperators.Group.List

/-!
# Reading a vector through the chains

A variable has the spin that all qubits of its chain have. A vector whose chains are intact shows
the assignment that is read from it.
-/

namespace SpinGlass

namespace Embedding

/-- In every chain all qubits have one spin. -/
def Intact (e : Embedding) (vector : Assignment) : Prop :=
  ∀ chain ∈ e.chains, ∃ spin, ∀ q ∈ chain, vector q = some spin

/-- The spins of the variables, read through their chains. -/
def readout (e : Embedding) (vector : Assignment) : Assignment := fun i =>
  ((e.chain i).mapM vector).bind Decoder.consensus?

end Embedding

/-- A vector assigns a spin to a qubit exactly if that is its entry. -/
theorem SampleSet.assignment_eq_some_iff {vector : Array Int} {q : Nat} {spin : Spin} :
    assignment vector q = some spin ↔ vector[q]? = some spin.toInt := by
  have hread : ∀ n : Int, Spin.ofInt? n = some spin ↔ n = spin.toInt := by
    intro n
    unfold Spin.ofInt?
    cases spin <;> (split <;> simp_all [Spin.toInt]; try omega)
  unfold assignment
  simp [Option.bind_eq_some_iff, hread]

/-- Members that all have one spin agree on it. -/
theorem Decoder.consensus?_eq_some {chain : List Spin} {spin : Spin} (hne : chain ≠ [])
    (h : ∀ s ∈ chain, s = spin) : consensus? chain = some spin := by
  cases chain with
  | nil => exact absurd rfl hne
  | cons s rest =>
    obtain rfl := h s List.mem_cons_self
    simpa [consensus?] using fun x hx => h x (List.mem_cons_of_mem _ hx)

/-- Where there is a consensus, all members have it. -/
theorem Decoder.eq_of_consensus? {chain : List Spin} {spin : Spin}
    (h : consensus? chain = some spin) : ∀ s ∈ chain, s = spin := by
  cases chain with
  | nil => cases h
  | cons first rest =>
    obtain ⟨hall, rfl⟩ : rest.all (· == first) = true ∧ first = spin := by
      simpa [consensus?] using h
    simpa using hall

namespace Embedding

variable {e : Embedding} {vector : Assignment}

/-- Qubits that all have one spin are read as a chain of that spin. -/
theorem mapM_eq_replicate {chain : List Nat} {spin : Spin}
    (h : ∀ q ∈ chain, vector q = some spin) :
    chain.mapM vector = some (List.replicate chain.length spin) := by
  induction chain with
  | nil => rfl
  | cons q rest ih =>
    rw [List.mapM_cons, h q List.mem_cons_self, ih fun q hq => h q (List.mem_cons_of_mem _ hq)]
    rfl

/-- A chain whose qubits have one spin is read as that spin. -/
theorem readout_eq_some {i : Nat} {spin : Spin} (hne : e.chain i ≠ [])
    (h : ∀ q ∈ e.chain i, vector q = some spin) : e.readout vector i = some spin := by
  have hmap := mapM_eq_replicate h
  unfold readout
  rw [hmap, Option.bind_some]
  refine Decoder.consensus?_eq_some ?_ fun s hs => List.eq_of_mem_replicate hs
  rw [Ne, List.replicate_eq_nil_iff, List.length_eq_zero_iff]
  exact hne

/-- Where a chain is read as a spin, all its qubits have it. -/
theorem eq_some_of_mapM {chain : List Nat} {spins : List Spin} {spin : Spin}
    (hmap : chain.mapM vector = some spins) (h : ∀ s ∈ spins, s = spin) :
    ∀ q ∈ chain, vector q = some spin := by
  induction chain generalizing spins with
  | nil => simp
  | cons q rest ih =>
    rw [List.mapM_cons] at hmap
    obtain ⟨first, hfirst, hmap⟩ := Option.bind_eq_some_iff.mp hmap
    obtain ⟨others, hothers, hmap⟩ := Option.bind_eq_some_iff.mp hmap
    cases hmap
    obtain ⟨rfl, hrest⟩ := List.forall_mem_cons.mp h
    exact List.forall_mem_cons.mpr ⟨hfirst, ih hothers hrest⟩

/-- The chains are intact if all variables of a valid embedding are read. -/
theorem Valid.intact_of_covers {size : Nat} (hvalid : e.Valid size)
    (h : (e.readout vector).Covers size) : e.Intact vector := by
  intro chain hchain
  obtain ⟨i, hi, rfl⟩ := List.getElem_of_mem hchain
  obtain ⟨spin, hspin⟩ := h i (hvalid.length ▸ hi)
  obtain ⟨spins, hmap, hconsensus⟩ := Option.bind_eq_some_iff.mp hspin
  rw [chain_eq_getElem hi] at hmap
  exact ⟨spin, eq_some_of_mapM hmap (Decoder.eq_of_consensus? hconsensus)⟩

/-- Where the chains are intact, every variable has a spin. -/
theorem Intact.readout (h : e.Intact vector) (hne : ∀ chain ∈ e.chains, chain ≠ []) {i : Nat}
    (hi : i < e.chains.length) :
    ∃ spin, e.readout vector i = some spin ∧ ∀ q ∈ e.chain i, vector q = some spin := by
  obtain ⟨spin, hspin⟩ := h _ (chain_mem hi)
  exact ⟨spin, readout_eq_some (hne _ (chain_mem hi)) hspin, hspin⟩

/-- Where the chains are intact, all variables of a valid embedding are read. -/
theorem Intact.covers_readout {size : Nat} (h : e.Intact vector) (hvalid : e.Valid size) :
    (e.readout vector).Covers size := by
  intro i hi
  rw [← hvalid.length] at hi
  obtain ⟨spin, hspin, _⟩ := h.readout hvalid.nonempty hi
  exact ⟨spin, hspin⟩

/-- A vector whose chains are intact shows what is read from it. -/
theorem Intact.shows (h : e.Intact vector) (hne : ∀ chain ∈ e.chains, chain ≠ []) :
    e.Shows vector (e.readout vector) := by
  intro i q hq
  obtain ⟨spin, hread, hspin⟩ := h.readout hne (lt_length_of_mem_chain hq)
  rw [hread, hspin q hq]

/-- An assignment of the variables that a vector shows is read from it. -/
theorem Valid.readout_eq {size : Nat} (hvalid : e.Valid size) {t : Assignment} (ht : t.IsOver size)
    (hshows : e.Shows vector t) : e.readout vector = t := by
  funext i
  by_cases hi : i < size
  · obtain ⟨spin, hspin⟩ := ht.covers i hi
    rw [hspin]
    exact readout_eq_some (hvalid.chain_ne_nil hi) fun q hq => (hshows i q hq).trans hspin
  · have hempty : e.chain i = [] := chain_eq_nil (by rwa [hvalid.length])
    unfold readout
    rw [hempty, ht.eq_none (Nat.not_lt.mp hi)]
    rfl

/-- No qubit is in two chains, so that spins of the variables are spins of the qubits. -/
theorem Valid.exists_spins {size : Nat} (hvalid : e.Valid size) {t : Assignment}
    (ht : t.Covers size) : ∃ spins : Nat → Spin, ∀ i, ∀ q ∈ e.chain i, t i = some (spins q) := by
  obtain ⟨owners, howners⟩ := hvalid.owner
  refine ⟨fun q => ((owners.get? q).bind t).getD .up, fun i q hq => ?_⟩
  obtain ⟨spin, hspin⟩ := ht i (hvalid.length ▸ lt_length_of_mem_chain hq)
  simp [(howners q i).mpr hq, hspin]

/-- A vector with the given spins of the variables in their chains, and up elsewhere. -/
def lift (e : Embedding) (size : Nat) (t : Nat → Spin) : Array Int :=
  .ofFn fun q : Fin (e.chains.flatten.sum + 1) =>
    (((List.range size).find? fun i => decide (q.val ∈ e.chain i)).elim .up t).toInt

/-- Where no qubit is in two chains, the qubits of a chain are given the spin of its variable. -/
theorem getElem?_lift {size : Nat}
    (hdisjoint : ∀ i < size, ∀ k < size, i ≠ k → ∀ q ∈ e.chain i, q ∉ e.chain k)
    (t : Nat → Spin) {i q : Nat} (hi : i < size) (hq : q ∈ e.chain i) :
    (e.lift size t)[q]? = some (t i).toInt := by
  have hmem : q ∈ e.chains.flatten :=
    List.mem_flatten.mpr ⟨_, chain_mem (lt_length_of_mem_chain hq), hq⟩
  have hlt : q < e.chains.flatten.sum + 1 := Nat.lt_succ_of_le (List.le_sum_of_mem hmem)
  have hfind : ((List.range size).find? fun i => decide (q ∈ e.chain i)) = some i := by
    cases hfound : (List.range size).find? fun i => decide (q ∈ e.chain i) with
    | none => simpa [hq] using List.find?_eq_none.mp hfound i (List.mem_range.mpr hi)
    | some k =>
      have hk := List.mem_range.mp (List.mem_of_find?_eq_some hfound)
      have hqk : q ∈ e.chain k := by simpa using List.find?_some hfound
      by_contra hne
      exact hdisjoint i hi k hk (fun heq => hne (congrArg some heq.symm)) q hq hqk
  unfold lift
  rw [Array.getElem?_ofFn, dif_pos hlt, hfind]
  rfl

/-- Every assignment of the variables is shown by a vector. -/
theorem Valid.exists_vector {size : Nat} (hvalid : e.Valid size) {t : Assignment}
    (ht : t.Covers size) : ∃ vector, e.Shows (SampleSet.assignment vector) t := by
  obtain ⟨owners, howners⟩ := hvalid.owner
  refine ⟨e.lift size fun i => (t i).getD .up, fun i q hq => ?_⟩
  have hi : i < size := hvalid.length ▸ lt_length_of_mem_chain hq
  have hlift := getElem?_lift (fun i _ k _ hne q hi hk => hne ?_) (fun i => (t i).getD .up) hi hq
  · obtain ⟨spin, hspin⟩ := ht i hi
    rw [SampleSet.assignment_eq_some_iff.mpr hlift, hspin]
    rfl
  · exact Option.some.inj (((howners q i).mpr hi).symm.trans ((howners q k).mpr hk))

end Embedding

end SpinGlass

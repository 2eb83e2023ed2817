import SpinGlass.Proofs.Embedding.Valid
import SpinGlass.Sample.Exhaustive
import Mathlib.Data.Nat.Bitwise

/-!
# What an exhaustive search goes through

The masks below a power of two are the assignments of the qubits: every mask gives a spin to each
qubit, and every choice of spins is given by a mask. A search that is asked for enough samples
returns them all.
-/

namespace SpinGlass

namespace PhysicalProblem

variable {K : Type} {p : PhysicalProblem K}

theorem nodup_qubits (p : PhysicalProblem K) : p.qubits.Nodup := nodup_sortDistinct _

/-- The qubits of the chains are qubits of the problem. -/
theorem mem_qubits_of_chain {i q : Nat} (hq : q ∈ p.embedding.chain i) : q ∈ p.qubits := by
  have hflatten : q ∈ p.embedding.chains.flatten :=
    List.mem_flatten.mpr ⟨_, Embedding.chain_mem (Embedding.lt_length_of_mem_chain hq), hq⟩
  exact mem_sortDistinct.mpr (List.mem_append_left _ (List.mem_append_left _ hflatten))

/-- A vector has a place for every qubit. -/
theorem lt_width {q : Nat} (hq : q ∈ p.qubits) : q < p.width := by
  have hsorted : p.qubits.Pairwise fun a b => compare a b = .lt := pairwise_sortDistinct _
  unfold width
  cases hlast : p.qubits.getLast? with
  | none =>
    rw [List.getLast?_eq_none_iff.mp hlast] at hq
    cases hq
  | some last =>
    obtain ⟨front, hfront⟩ := List.getLast?_eq_some_iff.mp hlast
    rw [hfront] at hq hsorted
    rcases List.mem_append.mp hq with hq | hq
    · have hlt := (List.pairwise_append.mp hsorted).2.2 q hq last (List.mem_singleton_self last)
      exact Nat.lt_succ_of_lt (Nat.compare_eq_lt.mp hlt)
    · rw [List.mem_singleton.mp hq]
      exact Nat.lt_succ_self last

end PhysicalProblem

namespace Exhaustive

section Vectors

variable {qubits : List Nat} {mask width : Nat}

/-- Setting the places of some qubits leaves the others. -/
theorem getElem?_foldl_of_not_mem {q : Nat} (hq : q ∉ qubits) (start : Nat) (v : Array Int) :
    ((qubits.zipIdx start).foldl
      (fun v (q, k) => v.setIfInBounds q (Spin.ofBool (mask.testBit k)).toInt) v)[q]? = v[q]? := by
  induction qubits generalizing start v with
  | nil => rfl
  | cons first rest ih =>
    obtain ⟨hne, hrest⟩ := not_or.mp (mt List.mem_cons.mpr hq)
    rw [List.zipIdx_cons, List.foldl_cons, ih hrest]
    exact Array.getElem?_setIfInBounds_ne (Ne.symm hne)

/-- The place of a qubit is set by its binary digit. -/
theorem getElem?_foldl {k q : Nat} (hnodup : qubits.Nodup) (hget : qubits[k]? = some q)
    (start : Nat) {v : Array Int} (hq : q < v.size) :
    ((qubits.zipIdx start).foldl
      (fun v (q, k) => v.setIfInBounds q (Spin.ofBool (mask.testBit k)).toInt) v)[q]? =
      some (Spin.ofBool (mask.testBit (start + k))).toInt := by
  induction qubits generalizing start k v with
  | nil => cases hget
  | cons first rest ih =>
    obtain ⟨hfirst, hrest⟩ := List.nodup_cons.mp hnodup
    rw [List.zipIdx_cons, List.foldl_cons]
    cases k with
    | zero =>
      cases hget
      rw [getElem?_foldl_of_not_mem hfirst]
      exact Array.getElem?_setIfInBounds_self_of_lt hq
    | succ k =>
      rw [ih hrest hget (start + 1) (by rwa [Array.size_setIfInBounds])]
      congr 4
      omega

/-- A mask gives the spin of its digit to a qubit. -/
theorem assignment_vector {k q : Nat} (hnodup : qubits.Nodup) (hget : qubits[k]? = some q)
    (hq : q < width) :
    SampleSet.assignment (vector qubits width mask) q = some (.ofBool (mask.testBit k)) := by
  unfold SampleSet.assignment vector
  rw [getElem?_foldl hnodup hget 0 (by rwa [Array.size_replicate]), Option.bind_some,
    Spin.ofInt?_toInt, Nat.zero_add]

/-- A mask gives a spin to every qubit. -/
theorem exists_assignment_vector {q : Nat} (hnodup : qubits.Nodup) (hq : q ∈ qubits)
    (hlt : q < width) :
    ∃ spin, SampleSet.assignment (vector qubits width mask) q = some spin := by
  obtain ⟨k, hget⟩ := List.getElem?_of_mem hq
  exact ⟨_, assignment_vector hnodup hget hlt⟩

/-- All choices of spins for the qubits are given by masks. -/
theorem exists_mask (hnodup : qubits.Nodup) (hwidth : ∀ q ∈ qubits, q < width)
    (spins : Nat → Spin) :
    ∃ mask < 2 ^ qubits.length, ∀ q ∈ qubits,
      SampleSet.assignment (vector qubits width mask) q = some (spins q) := by
  refine ⟨Nat.ofBits fun k : Fin qubits.length => (spins qubits[k]).toBool,
    Nat.ofBits_lt_two_pow _, fun q hq => ?_⟩
  obtain ⟨k, hk, rfl⟩ := List.getElem_of_mem hq
  rw [assignment_vector hnodup (List.getElem?_eq_getElem hk) (hwidth _ hq),
    Nat.testBit_ofBits_lt _ _ hk, Spin.ofBool_toBool]
  rfl

end Vectors

section Search

variable {K : Type} [Coefficient K] {p : PhysicalProblem K} {params : SolveParams K}

/-- The masks that are ranked are those of all assignments, each with its energy. -/
theorem mem_ranking {e : K × Nat} :
    e ∈ ranking p ↔ e.2 < 2 ^ p.qubits.length ∧
      e.1 = p.sampleEnergy (SampleSet.assignment (vector p.qubits p.width e.2)) := by
  obtain ⟨energy, mask⟩ := e
  simp only [ranking, List.mem_mergeSort, List.mem_map, List.mem_range, Prod.mk.injEq,
    Nat.one_shiftLeft]
  constructor
  · rintro ⟨_, hmask, henergy, rfl⟩
    exact ⟨hmask, henergy.symm⟩
  · rintro ⟨hmask, henergy⟩
    exact ⟨mask, hmask, henergy.symm, rfl⟩

theorem length_ranking : (ranking p).length = 2 ^ p.qubits.length := by
  simp [ranking, Nat.one_shiftLeft]

/-- A search that is asked for enough samples returns all assignments. -/
theorem solve_eq_ok (hsize : p.qubits.length ≤ maxQubits)
    (hcount : 2 ^ p.qubits.length ≤ params.sampleCount) :
    solve p params = .ok {
      vectors := (ranking p).map fun s => vector p.qubits p.width s.2
      energies := (ranking p).map (·.1)
      counts := (ranking p).map fun _ => 1
      brokenCount := 0 } := by
  have hall : (ranking p).take params.sampleCount = ranking p :=
    List.take_of_length_le (length_ranking.trans_le hcount)
  unfold solve
  rw [if_neg (Nat.not_lt.mpr hsize), hall]

end Search

end Exhaustive

end SpinGlass

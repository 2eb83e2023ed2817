import SpinGlass.Proofs.Sample.Exhaustive
import SpinGlass.Proofs.Sample.Readout
import SpinGlass.Sample.Anneal
import Mathlib.Algebra.BigOperators.Ring.Finset

/-!
# What annealing reports

Whatever chance does, a sample has a spin for every qubit and is up elsewhere. Its energy is added
up site by site, so that every coupler is met from both of its ends and counts half from each.
Samples with one vector are counted together, so that the counts add up to what was asked for.
-/

namespace SpinGlass

/-- A sum of totals is the total of the sums. -/
theorem Table.sum_map_total {ι α β : Type} [Ord α] (xs : List ι) (t : Table α β)
    (f : ι → α → β → ℚ) :
    (xs.map fun x => t.total (f x)).sum = t.total fun a b => (xs.map fun x => f x a b).sum := by
  induction xs with
  | nil => simp [total]
  | cons x rest ih => simp only [List.map_cons, List.sum_cons, ih, total_add]

namespace PhysicalProblem

variable {p : PhysicalProblem ℚ}

theorem mem_qubits_of_weights {q : Nat} {w : ℚ} (h : p.weights.get? q = some w) : q ∈ p.qubits := by
  have hkey : q ∈ p.weights.keys := Table.mem_keys_iff.mpr ⟨w, h⟩
  exact mem_sortDistinct.mpr (List.mem_append_left _ (List.mem_append_right _ hkey))

theorem mem_qubits_of_strengths {e : Pair} {j : ℚ} (h : p.strengths.get? e = some j) :
    e.lo ∈ p.qubits ∧ e.hi ∈ p.qubits := by
  have hkey : e ∈ p.strengths.keys := Table.mem_keys_iff.mpr ⟨j, h⟩
  have hends : ∀ q ∈ [e.lo, e.hi], q ∈ p.qubits := fun q hq =>
    mem_sortDistinct.mpr (List.mem_append_right _ (List.mem_flatMap.mpr ⟨e, hkey, hq⟩))
  exact ⟨hends _ (by simp), hends _ (by simp)⟩

/-- A sum over the qubits picks out the summand of one of them. -/
theorem sum_qubits_ite {k : Nat} (hk : k ∈ p.qubits) (f : Nat → ℚ) :
    (p.qubits.map fun q => if q = k then f q else 0).sum = f k := by
  rw [List.sum_map_ite_eq, List.count_eq_one_of_mem (nodup_qubits p) hk]
  simp

/-- The terms of a qubit are those of the couplers that begin there, and of those that end there. -/
theorem sum_terms (p : PhysicalProblem ℚ) (q : Nat) (f : Nat → ℚ → ℚ) :
    ((p.terms q).map fun t => f t.1 t.2).sum = p.strengths.total fun e j =>
      (if q = e.lo then f e.hi j else 0) + (if q = e.hi then f e.lo j else 0) := by
  unfold terms Table.total
  induction p.strengths.entries with
  | nil => rfl
  | cons entry rest ih =>
    have hends : ∀ {a b : Nat} {j : ℚ},
        ((if a = q then [(b, j)] else []).map fun t => f t.1 t.2).sum =
          if q = a then f b j else 0 := by
      intro a b j
      by_cases h : a = q
      · simp [h]
      · simp [h, Ne.symm h]
    rw [List.flatMap_cons, List.map_append, List.sum_append, ih, List.map_append, List.sum_append,
      hends, hends, List.map_cons, List.sum_cons]

/-- The energy, added up qubit by qubit with half of every coupler at each of its ends. -/
theorem sum_qubits_energy (p : PhysicalProblem ℚ) (v : Nat → ℚ) :
    (p.qubits.map fun q => (p.weights.get? q).getD 0 * v q +
      ((p.terms q).map fun t => t.2 * v q * v t.1).sum / 2).sum =
        p.weights.total (fun q w => w * v q) +
          p.strengths.total fun e j => j * v e.lo * v e.hi := by
  have hweight : ∀ q, (p.weights.get? q).getD 0 * v q =
      p.weights.total fun k w => if q = k then w * v q else 0 := by
    intro q
    rw [Table.total_eq_elim q fun k w _ hne => if_neg (Ne.symm hne)]
    cases p.weights.get? q <;> simp
  have hweights : (p.qubits.map fun q => (p.weights.get? q).getD 0 * v q).sum =
      p.weights.total fun q w => w * v q := by
    simp only [hweight, Table.sum_map_total]
    exact Table.total_congr fun k w hget =>
      sum_qubits_ite (mem_qubits_of_weights hget) fun q => w * v q
  have hstrengths : (p.qubits.map fun q =>
      ((p.terms q).map fun t => t.2 * v q * v t.1).sum).sum =
        2 * p.strengths.total fun e j => j * v e.lo * v e.hi := by
    have hterms : ∀ q, ((p.terms q).map fun t => t.2 * v q * v t.1).sum = _ :=
      fun q => sum_terms p q fun r j => j * v q * v r
    simp only [hterms, Table.sum_map_total, List.sum_map_add]
    rw [← Table.total_mul_left]
    refine Table.total_congr fun e j hget => ?_
    obtain ⟨hlo, hhi⟩ := mem_qubits_of_strengths hget
    rw [sum_qubits_ite hlo fun q => j * v q * v e.hi, sum_qubits_ite hhi fun q => j * v q * v e.lo]
    ring
  simp only [div_eq_mul_inv, List.sum_map_add, List.sum_map_mul_right]
  rw [hweights, hstrengths]
  ring

end PhysicalProblem

namespace Anneal

section Samples

variable {K σ : Type} {p : PhysicalProblem K} {s : Spins}

/-- Spins of a problem: a place for each of its qubits, and up where it has none. -/
structure Fits (p : PhysicalProblem K) (s : Spins) : Prop where
  size_eq : s.size = p.width
  up : ∀ q ∉ p.qubits, s.getD q .up = .up

/-- Changing the spin of a qubit leaves the other places as they are. -/
theorem Fits.setIfInBounds (h : Fits p s) {q : Nat} (hq : q ∈ p.qubits) (spin : Spin) :
    Fits p (s.setIfInBounds q spin) := by
  refine ⟨Array.size_setIfInBounds.trans h.size_eq, fun r hr => ?_⟩
  have hne : q ≠ r := fun heq => hr (heq ▸ hq)
  rw [Array.getD_eq_getD_getElem?, Array.getElem?_setIfInBounds_ne hne,
    ← Array.getD_eq_getD_getElem?]
  exact h.up r hr

theorem Fits.modify (h : Fits p s) {q : Nat} (hq : q ∈ p.qubits) (f : Spin → Spin) :
    Fits p (s.modify q f) := by
  refine ⟨Array.size_modify.trans h.size_eq, fun r hr => ?_⟩
  have hne : q ≠ r := fun heq => hr (heq ▸ hq)
  rw [Array.getD_eq_getD_getElem?, Array.getElem?_modify, if_neg hne,
    ← Array.getD_eq_getD_getElem?]
  exact h.up r hr

theorem fits_replicate (p : PhysicalProblem K) : Fits p (Array.replicate p.width .up) := by
  refine ⟨Array.size_replicate, fun q _ => ?_⟩
  rw [Array.getD_eq_getD_getElem?, Array.getElem?_replicate]
  split <;> rfl

variable [Coefficient K]

theorem mem_qubits_of_mem_sites {site : Site K} (h : site ∈ sites p) : site.qubit ∈ p.qubits := by
  obtain ⟨q, hq, rfl⟩ := List.mem_map.mp h
  exact hq

variable (chance : Chance K σ)

theorem fits_start (seed : σ) : Fits p (start chance p.width (sites p) seed).1 := by
  unfold start
  refine List.foldlRecOn (motive := fun state : Spins × σ => Fits p state.1) (sites p) _
    (fits_replicate p) ?_
  intro state h site hsite
  exact h.setIfInBounds (mem_qubits_of_mem_sites hsite) _

/-- Whether a flip is made or not, the spins still fit. -/
theorem fits_visit (beta : K) {state : Spins × σ} (h : Fits p state.1) {site : Site K}
    (hsite : site ∈ sites p) : Fits p (visit chance beta state site).1 := by
  have hflip := h.modify (mem_qubits_of_mem_sites hsite) (-·)
  unfold visit
  dsimp only
  split
  · exact hflip
  · split
    · exact hflip
    · exact h

theorem fits_sample (sweeps : Nat) (seed : σ) :
    Fits p (sample chance p.width sweeps (sites p) seed).1 := by
  unfold sample
  refine List.foldlRecOn (motive := fun state : Spins × σ => Fits p state.1) (List.range sweeps) _
    (fits_start chance seed) ?_
  intro state h sweep _
  exact List.foldlRecOn (motive := fun state : Spins × σ => Fits p state.1) (sites p) _ h
    fun state h site hsite => fits_visit chance _ h hsite

end Samples

section Vectors

variable {p : PhysicalProblem ℚ} {s : Spins}

/-- A qubit of the problem has a spin in the vector, and the same value. -/
theorem Fits.value_eq (h : Fits p s) {q : Nat} (hq : q ∈ p.qubits) :
    Problem.value .ising (SampleSet.assignment (s.map Spin.toInt)) q = (valueAt s q : ℚ) := by
  have hlt : q < s.size := h.size_eq ▸ PhysicalProblem.lt_width hq
  have hspin : SampleSet.assignment (s.map Spin.toInt) q = some s[q] :=
    SampleSet.assignment_eq_some_iff.mpr (by simp [hlt])
  simp [Problem.value, valueAt, hspin, hlt, Coefficient.ofSpinIn]

/-- What is added up over the sites is the energy of the vector. -/
theorem Fits.energy_eq (h : Fits p s) :
    energy (sites p) s = p.sampleEnergy (SampleSet.assignment (s.map Spin.toInt)) := by
  have hsites : energy (sites p) s = (p.qubits.map fun q =>
      (p.weights.get? q).getD 0 * (valueAt s q : ℚ) +
        ((p.terms q).map fun t => t.2 * (valueAt s q : ℚ) * valueAt s t.1).sum / 2).sum := by
    simp [energy, sites, Coefficient.sum_eq, Function.comp_def]
  rw [hsites, PhysicalProblem.sum_qubits_energy, PhysicalProblem.sampleEnergy_eq]
  congr 1
  · exact Table.total_congr fun q w hget => by
      rw [h.value_eq (PhysicalProblem.mem_qubits_of_weights hget)]
  · refine Table.total_congr fun e j hget => ?_
    obtain ⟨hlo, hhi⟩ := PhysicalProblem.mem_qubits_of_strengths hget
    rw [h.value_eq hlo, h.value_eq hhi]

/-- What a vector shows: a spin for every qubit of the problem, and up in all other places. -/
theorem Fits.getElem?_map (h : Fits p s) {q : Nat} (hq : q < p.width) :
    (q ∈ p.qubits → (s.map Spin.toInt)[q]? = some 1 ∨ (s.map Spin.toInt)[q]? = some (-1)) ∧
      (q ∉ p.qubits → (s.map Spin.toInt)[q]? = some 1) := by
  have hlt : q < s.size := h.size_eq ▸ hq
  have hget : (s.map Spin.toInt)[q]? = some s[q].toInt := by simp [hlt]
  rw [hget]
  constructor
  · intro _
    cases s[q] with
    | up => exact .inl rfl
    | down => exact .inr rfl
  · intro hnot
    have hup := h.up q hnot
    simp only [Array.getD_eq_getD_getElem?, Array.getElem?_eq_getElem hlt, Option.getD_some] at hup
    rw [hup]
    rfl

end Vectors

section Counts

variable {σ : Type} {p : PhysicalProblem ℚ}

/-- What has been found after `n` samples: vectors of spins that fit, with their energies, and
counts that add up to `n`. -/
structure Noted (p : PhysicalProblem ℚ) (n : Nat) (found : Found ℚ) : Prop where
  exists_spins : ∀ v e, found.get? v = some e →
    0 < e.2 ∧ ∃ s, Fits p s ∧ s.map Spin.toInt = v ∧ energy (sites p) s = e.1
  total_eq : (found.total fun _ e => (e.2 : ℚ)) = n

theorem noted_empty (p : PhysicalProblem ℚ) : Noted p 0 .empty :=
  ⟨fun v e h => by simp at h, by simp⟩

/-- A sample is counted under its vector. -/
theorem Noted.note {n : Nat} {found : Found ℚ} (h : Noted p n found) {s : Spins} (hs : Fits p s) :
    Noted p (n + 1) (note (sites p) found s) := by
  refine ⟨fun v e hget => ?_, ?_⟩
  · rw [Anneal.note, Table.get?_alter] at hget
    split at hget
    · next hv =>
      subst hv
      cases hold : found.get? (s.map Spin.toInt) with
      | none =>
        rw [hold] at hget
        cases hget
        exact ⟨Nat.one_pos, s, hs, rfl, rfl⟩
      | some old =>
        rw [hold] at hget
        cases hget
        exact ⟨Nat.succ_pos _, (h.exists_spins _ old hold).2⟩
    · exact h.exists_spins v e hget
  · rw [Anneal.note, Table.total_alter, h.total_eq]
    cases found.get? (s.map Spin.toInt) with
    | none => simp
    | some old =>
      simp only [Option.elim_some]
      push_cast
      ring

theorem Noted.collect (chance : Chance ℚ σ) (sweeps : Nat) {n : Nat} {found : Found ℚ}
    (h : Noted p n found) (more : Nat) (seed : σ) :
    Noted p (n + more) (collect chance p.width sweeps (sites p) more found seed) := by
  induction more generalizing n found seed with
  | zero => exact h
  | succ more ih =>
    rw [← Nat.add_assoc, Nat.add_right_comm]
    exact ih (h.note (fits_sample chance sweeps seed)) _

/-- Whatever chance does, the annealer reports every vector once. It has a spin for each qubit of
the problem and is up in all other places, and it comes with its energy and with the number of
samples that had it, out of as many as were asked for. -/
theorem solve_reports (chance : Chance ℚ σ) (seed : σ) (sweeps : Nat) (p : PhysicalProblem ℚ)
    (params : SolveParams ℚ) : ∃ samples, solve chance seed sweeps p params = .ok samples ∧
      samples.vectors.Nodup ∧
      (∀ v ∈ samples.vectors, v.size = p.width ∧ ∀ q < p.width,
        (q ∈ p.qubits → v[q]? = some 1 ∨ v[q]? = some (-1)) ∧ (q ∉ p.qubits → v[q]? = some 1)) ∧
      samples.energies = samples.vectors.map (fun v => p.sampleEnergy (SampleSet.assignment v)) ∧
      (∀ n ∈ samples.counts, 0 < n) ∧ samples.counts.sum = params.sampleCount ∧
      samples.check = .ok () := by
  have hnoted := (noted_empty p).collect chance sweeps params.sampleCount seed
  rw [Nat.zero_add] at hnoted
  unfold solve
  generalize collect chance p.width sweeps (sites p) params.sampleCount .empty seed = found
    at hnoted
  have hentry : ∀ x ∈ found.entries, 0 < x.2.2 ∧
      ∃ s, Fits p s ∧ s.map Spin.toInt = x.1 ∧ energy (sites p) s = x.2.1 := fun x hx =>
    hnoted.exists_spins x.1 x.2 (Table.get?_eq_some_iff.mpr hx)
  refine ⟨_, rfl, Table.nodup_keys found, fun v hv => ?_, ?_, fun n hn => ?_, ?_, ?_⟩
  · obtain ⟨x, hx, rfl⟩ := List.mem_map.mp hv
    obtain ⟨_, s, hs, hmap, _⟩ := hentry x hx
    rw [← hmap]
    exact ⟨Array.size_map.trans hs.size_eq, fun q hq => hs.getElem?_map hq⟩
  · simp only [Table.values, Table.keys, List.map_map]
    refine List.map_congr_left fun x hx => ?_
    obtain ⟨_, s, hs, hmap, henergy⟩ := hentry x hx
    simp only [Function.comp_apply]
    rw [← henergy, ← hmap, hs.energy_eq]
  · obtain ⟨e, he, rfl⟩ := List.mem_map.mp hn
    obtain ⟨x, hx, rfl⟩ := List.mem_map.mp he
    exact (hentry x hx).1
  · have htotal := hnoted.total_eq
    simp only [Table.total] at htotal
    rw [← Nat.cast_inj (R := ℚ), ← htotal, Nat.cast_list_sum]
    simp [Table.values, Function.comp_def]
  · simp [SampleSet.check, Table.keys, Table.values]

end Counts

end Anneal

end SpinGlass

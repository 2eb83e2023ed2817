import SpinGlass.Proofs.Sample.Decode

/-!
# The best solution of a report

Solutions are ranked by energy before they are filtered, and putting those together that say the
same keeps the first of them at the head. So the best solution is a valid one of least energy, and
there is none exactly if no solution is valid.
-/

namespace SpinGlass

namespace Solution

/-- Putting solutions together keeps the first, up to its number of occurrences. -/
theorem exists_distinct_cons {K : Type} (s : Solution K) (rest : List (Solution K)) :
    ∃ n others, distinct (s :: rest) = { s with occurrences := n } :: others := by
  refine List.foldlRecOn rest (fun done t => absorb t done)
    (motive := fun done => ∃ n others, done = { s with occurrences := n } :: others)
    ⟨s.occurrences, [], rfl⟩ ?_
  rintro _ ⟨n, others, rfl⟩ t _
  unfold absorb
  split
  · exact ⟨n + t.occurrences, others, rfl⟩
  · exact ⟨n, _, rfl⟩

/-- Ranked solutions stand in the order of their energies. -/
theorem pairwise_rank (solutions : List (Solution ℚ)) :
    (rank solutions).Pairwise fun s t => s.energy ≤ t.energy := by
  have hsorted : (rank solutions).Pairwise fun s t =>
      (Coefficient.totalCompare s.energy t.energy).isLE = true := by
    refine List.pairwise_mergeSort (fun s t u hst htu => ?_) (fun s t => ?_) solutions
    · rw [Coefficient.isLE_totalCompare] at hst htu ⊢
      exact hst.trans htu
    · rw [Bool.or_eq_true, Coefficient.isLE_totalCompare, Coefficient.isLE_totalCompare]
      exact le_total _ _
  exact hsorted.imp Coefficient.isLE_totalCompare.mp

/-- The first of some solutions is the first of those of lowest energy. -/
theorem exists_lowest_cons {tolerance : ℚ} (h : 0 ≤ tolerance) (s : Solution ℚ)
    (rest : List (Solution ℚ)) : ∃ others, lowest tolerance (s :: rest) = s :: others := by
  simp only [lowest]
  exact ⟨_, List.filter_cons_of_pos (decide_eq_true ((sub_self s.energy).le.trans h))⟩

end Solution

namespace Decoder

variable {d : Decoder ℚ} {raw : SampleSet ℚ} {options : DecodeOptions ℚ}
  {report : DecodeReport ℚ} {solutions : List (Solution ℚ)}

/-- Unless all solutions are asked for, the first that is selected is the first valid one. -/
theorem head?_select (hall : options.allSolutions = false)
    (htolerance : 0 ≤ options.energyTolerance) (ranked : List (Solution ℚ)) :
    (select options ranked).head? = (ranked.filter Solution.isValid).head? := by
  unfold select
  simp only [hall, Bool.false_eq_true, if_false]
  split
  · cases ranked.filter Solution.isValid with
    | nil => rfl
    | cons s rest =>
      obtain ⟨others, hlowest⟩ := Solution.exists_lowest_cons htolerance s rest
      rw [hlowest]
      rfl
  · rfl

/-- The best solution is a valid one of least energy, and there is none exactly if none is valid. -/
theorem best_of_decode (hall : options.allSolutions = false)
    (htolerance : 0 ≤ options.energyTolerance) (hsamples : d.decodeSamples raw = .ok solutions)
    (h : d.decode raw options = .ok report) :
    (report.solutions = [] ↔ ∀ s ∈ solutions, s.isValid = false) ∧
      ∀ best, report.best? = some best → ∃ s ∈ solutions, s.isValid = true ∧
        (∃ n, best = { s with occurrences := n }) ∧
        ∀ other ∈ solutions, other.isValid = true → s.energy ≤ other.energy := by
  unfold decode at h
  rw [hsamples] at h
  cases h
  have hhead := head?_select hall htolerance (Solution.rank solutions)
  have hmem : ∀ s, s ∈ (Solution.rank solutions).filter Solution.isValid ↔
      s ∈ solutions ∧ s.isValid = true := by
    intro s
    rw [List.mem_filter, Solution.rank, List.mem_mergeSort]
  have hsorted := (Solution.pairwise_rank solutions).filter Solution.isValid
  generalize (Solution.rank solutions).filter Solution.isValid = valid at hhead hmem hsorted
  unfold DecodeReport.best?
  simp only
  cases hselect : select options (Solution.rank solutions) with
  | nil =>
    rw [hselect] at hhead
    cases valid with
    | cons s rest => cases hhead
    | nil =>
      refine ⟨iff_of_true rfl fun s hs => ?_, fun best hbest => by cases hbest⟩
      rw [Bool.eq_false_iff]
      exact fun hs' => List.not_mem_nil ((hmem s).mpr ⟨hs, hs'⟩)
  | cons first rest =>
    rw [hselect] at hhead
    cases valid with
    | nil => cases hhead
    | cons s others =>
      cases hhead
      obtain ⟨n, more, hdistinct⟩ := Solution.exists_distinct_cons first rest
      obtain ⟨hfirst, hisValid⟩ := (hmem first).mp List.mem_cons_self
      rw [hdistinct]
      refine ⟨iff_of_false (by simp) fun hnone => ?_, fun best hbest => ?_⟩
      · rw [hnone first hfirst] at hisValid
        cases hisValid
      · refine ⟨first, hfirst, hisValid, ⟨n, (Option.some.inj hbest).symm⟩,
          fun other hother hv => ?_⟩
        rcases List.mem_cons.mp ((hmem other).mpr ⟨hother, hv⟩) with rfl | hother
        · exact le_rfl
        · exact List.rel_of_pairwise_cons hsorted hother

end Decoder

end SpinGlass

import SpinGlass.Proofs.Compile.Optimum

/-!
# The tier of lowest energy

The decoder compares its tolerance with the energies that the machine reports, and those are scaled
into the limits of the machine. So the solutions of the lowest tier are within the tolerance of the
least objective once the tolerance is divided by the factor of the scaling, and not before.
-/

namespace SpinGlass

/-- Where solutions stand in the order of their energies, none is below the lowest tier by more
than the tolerance. -/
theorem Solution.le_of_mem_lowest {tolerance : ℚ} {solutions : List (Solution ℚ)}
    (hsorted : solutions.Pairwise fun s t => s.energy ≤ t.energy) {s t : Solution ℚ}
    (hs : s ∈ lowest tolerance solutions) (ht : t ∈ solutions) :
    s.energy ≤ t.energy + tolerance := by
  cases solutions with
  | nil => cases ht
  | cons first rest =>
    have hwithin : s.energy - first.energy ≤ tolerance :=
      of_decide_eq_true (List.mem_filter.mp hs).2
    have hfirst : first.energy ≤ t.energy := by
      rcases List.mem_cons.mp ht with rfl | ht
      · exact le_rfl
      · exact List.rel_of_pairwise_cons hsorted ht
    linarith

/-- What stands in the order of its energies is ranked already. -/
theorem Solution.rank_of_pairwise {solutions : List (Solution ℚ)}
    (h : solutions.Pairwise fun s t => s.energy ≤ t.energy) : rank solutions = solutions :=
  List.mergeSort_of_pairwise (h.imp Coefficient.isLE_totalCompare.mpr)

/-- With only the lowest tier asked for, every reported solution is one of the samples, up to its
number of occurrences. It is valid, and no valid sample is below it by more than the tolerance. -/
theorem Decoder.lowest_of_decode {d : Decoder ℚ} {raw : SampleSet ℚ} {options : DecodeOptions ℚ}
    {report : DecodeReport ℚ} {samples : List (Solution ℚ)} (hall : options.allSolutions = false)
    (hlowest : options.lowestOnly = true) (hsamples : d.decodeSamples raw = .ok samples)
    (h : d.decode raw options = .ok report) :
    ∀ sol ∈ report.solutions, (∃ s ∈ samples, ∃ n, { sol with occurrences := n } = s) ∧
      sol.isValid = true ∧
      ∀ other ∈ samples, other.isValid = true →
        sol.energy ≤ other.energy + options.energyTolerance := by
  unfold decode at h
  rw [hsamples] at h
  cases h
  refine forall_mem_distinct (fun sol _ hsol => hsol) fun sol hsol => ?_
  obtain ⟨hmem, hvalid⟩ := isValid_of_mem_select hall hsol
  refine ⟨⟨sol, List.mem_mergeSort.mp hmem, sol.occurrences, rfl⟩, hvalid,
    fun other hother hother' => ?_⟩
  simp only [select, hall, hlowest, Bool.false_eq_true, if_false, if_true] at hsol
  have hsorted := (Solution.pairwise_rank samples).filter Solution.isValid
  refine Solution.le_of_mem_lowest hsorted hsol (List.mem_filter.mpr ⟨?_, hother'⟩)
  exact List.mem_mergeSort.mpr hother

namespace Decoder

variable {d : Decoder ℚ} {vector : Array Int} {energy : ℚ} {n : Nat} {sol : Solution ℚ}

/-- A sample that is decoded keeps its number of occurrences. -/
theorem occurrences_of_ok (h : d.decodeSample vector energy n = .ok sol) : sol.occurrences = n := by
  unfold decodeSample at h
  obtain ⟨_, _, h⟩ := bind_eq_ok.mp h
  cases h
  rfl

/-- How often a vector was found changes nothing else in what is read from it. -/
theorem decodeSample_withOccurrences (h : d.decodeSample vector energy n = .ok sol) (m : Nat) :
    d.decodeSample vector energy m = .ok { sol with occurrences := m } := by
  unfold decodeSample at h ⊢
  obtain ⟨chains, hchains, h⟩ := bind_eq_ok.mp h
  cases h
  exact bind_eq_ok.mpr ⟨chains, hchains, rfl⟩

end Decoder

namespace Compiled

/-- A solution is what is read from a vector with the energy that the machine gives it. -/
def Reads (c : Compiled ℚ) (vector : Array Int) (sol : Solution ℚ) : Prop :=
  c.decoder.decodeSample vector (c.physical.sampleEnergy (SampleSet.assignment vector))
    sol.occurrences = .ok sol

variable {c : Compiled ℚ} {vector : Array Int} {sol other : Solution ℚ}

theorem Reads.withOccurrences (h : c.Reads vector sol) (n : Nat) :
    c.Reads vector { sol with occurrences := n } :=
  Decoder.decodeSample_withOccurrences h n

/-- What is read from a vector is determined up to the number of occurrences. -/
theorem Reads.eq_withOccurrences (h : c.Reads vector sol) (hother : c.Reads vector other) :
    other = { sol with occurrences := other.occurrences } :=
  Except.ok.inj (hother.symm.trans (h.withOccurrences other.occurrences))

/-- Samples with the energies of the machine are read from the vectors, and of every vector there
is one. -/
theorem reads_of_decodeSamples {raw : SampleSet ℚ} {samples : List (Solution ℚ)}
    (henergies : raw.energies =
      raw.vectors.map fun v => c.physical.sampleEnergy (SampleSet.assignment v))
    (h : c.decoder.decodeSamples raw = .ok samples) :
    (∀ s ∈ samples, ∃ v ∈ raw.vectors, c.Reads v s) ∧
      ∀ v ∈ raw.vectors, ∃ s ∈ samples, c.Reads v s := by
  unfold Decoder.decodeSamples at h
  obtain ⟨_, hcheck, h⟩ := bind_eq_ok.mp h
  have hcounts : raw.counts.length = raw.vectors.length := by
    simp only [SampleSet.check] at hcheck
    split at hcheck
    · next hlengths => exact hlengths.2
    · cases hcheck
  rw [henergies] at h
  constructor
  · intro s hs
    obtain ⟨x, hx, hok⟩ := exists_of_mapM_eq_ok h hs
    obtain ⟨i, hi, rfl⟩ := List.getElem_of_mem hx
    simp only [List.getElem_zip, List.getElem_map] at hok
    simp only [List.length_zip, List.length_map] at hi
    refine ⟨raw.vectors[i], List.getElem_mem (by omega), ?_⟩
    unfold Reads
    rw [Decoder.occurrences_of_ok hok]
    exact hok
  · intro v hv
    obtain ⟨i, hi, rfl⟩ := List.getElem_of_mem hv
    have hzip : i < (raw.vectors.zip ((raw.vectors.map fun v =>
        c.physical.sampleEnergy (SampleSet.assignment v)).zip raw.counts)).length := by
      simp only [List.length_zip, List.length_map]
      omega
    obtain ⟨s, hs, hok⟩ := exists_mem_of_mapM_eq_ok h (List.getElem_mem hzip)
    simp only [List.getElem_zip, List.getElem_map] at hok
    refine ⟨s, hs, ?_⟩
    unfold Reads
    rw [Decoder.occurrences_of_ok hok]
    exact hok

/-- The samples of a machine that finds each of some vectors once. -/
def samples (c : Compiled ℚ) (vectors : List (Array Int)) : SampleSet ℚ where
  vectors := vectors
  energies := vectors.map fun v => c.physical.sampleEnergy (SampleSet.assignment v)
  counts := vectors.map fun _ => 1
  brokenCount := 0

end Compiled

/-- A valid solution that is read with simplification comes from a vector that counts, and its
energy is the objective of the program, up to a constant and the factor of the scaling. -/
theorem Passes.exists_energy_eq {o : CompileOptions ℚ} {program : Program ℚ} {target : Target}
    {cancelled : Bool} {built helped : Model ℚ} {c : Compiled ℚ}
    (h : Passes o program target cancelled built helped c) (hoptimize : o.optimize = true)
    (hweight : 0 < o.limits.weight) (hstrength : 0 < o.limits.strength) :
    ∃ constant : ℚ, ∀ vector sol, c.Reads vector sol → sol.isValid = true →
      sol.energy = c.physical.scaleFactor *
        program.objective o.mode (c.spinOf (SampleSet.assignment vector)) + constant := by
  obtain ⟨constant, hconstant⟩ := h.exists_constant hweight hstrength
  refine ⟨c.physical.scaleFactor * constant + c.model.problem.offset,
    fun vector sol hreads hvalid => ?_⟩
  have hcounts := h.counts_of_isValid hoptimize (Decoder.decodes_of_ok h.sound hreads) hvalid
  have henergy : sol.energy = _ + c.model.problem.offset := Decoder.energy_of_ok hreads
  rw [henergy, hconstant _ hcounts, mul_add, add_assoc]

/-- The lowest tier is within the tolerance of the least objective among the valid samples, with
the tolerance divided by the factor of the scaling. -/
theorem objective_le_of_reported {o : CompileOptions ℚ} {program : Program ℚ} {target : Target}
    {cancelled : Bool} {c : Compiled ℚ} {raw : SampleSet ℚ} {report : DecodeReport ℚ}
    (hoptimize : o.optimize = true) (hweight : 0 < o.limits.weight)
    (hstrength : 0 < o.limits.strength) (hall : o.decode.allSolutions = false)
    (hlowest : o.decode.lowestOnly = true) (hcompile : compile o program target cancelled = .ok c)
    (henergies : raw.energies =
      raw.vectors.map fun v => c.physical.sampleEnergy (SampleSet.assignment v))
    (hdecode : c.decode raw = .ok report) :
    0 < c.physical.scaleFactor ∧ ∀ sol ∈ report.solutions, sol.isValid = true ∧
      ∃ v ∈ raw.vectors, c.Reads v sol ∧
        (∀ name, isInternalName name = false →
          sol.value name = c.spinOf (SampleSet.assignment v) name) ∧
        ∀ w ∈ raw.vectors, ∀ other, c.Reads w other → other.isValid = true →
          program.objective o.mode (c.spinOf (SampleSet.assignment v)) ≤
            program.objective o.mode (c.spinOf (SampleSet.assignment w)) +
              o.decode.energyTolerance / c.physical.scaleFactor := by
  obtain ⟨built, helped, hpasses⟩ := passes_of_compile hcompile
  obtain ⟨hfactor, _⟩ := hpasses.scaled hweight hstrength
  refine ⟨hfactor, fun sol hsol => ?_⟩
  have hdecode := mapError_eq_ok.mp hdecode
  rw [hpasses.options] at hdecode
  obtain ⟨samples, hsamples, _⟩ := bind_eq_ok.mp hdecode
  obtain ⟨hfrom, hto⟩ := Compiled.reads_of_decodeSamples henergies hsamples
  obtain ⟨⟨s, hs, n, hsame⟩, hvalid, hleast⟩ :=
    Decoder.lowest_of_decode hall hlowest hsamples hdecode sol hsol
  obtain ⟨v, hv, hreads⟩ := hfrom s hs
  rw [← hsame] at hreads
  have hreads := hreads.withOccurrences sol.occurrences
  refine ⟨hvalid, v, hv, hreads, fun name hname => ?_, fun w hw other hother hother' => ?_⟩
  · rw [(Decoder.decodes_of_ok hpasses.sound hreads).values]
    unfold Decoder.shown
    rw [hname]
    rfl
  · -- the sample of the other vector is the other solution up to the number of occurrences
    obtain ⟨t, ht, htreads⟩ := hto w hw
    rw [hother.eq_withOccurrences htreads] at ht
    have hle := hleast _ ht hother'
    obtain ⟨constant, hconstant⟩ := hpasses.exists_energy_eq hoptimize hweight hstrength
    rw [hconstant v sol hreads hvalid, hconstant w _ (hother.withOccurrences _) hother'] at hle
    refine le_of_mul_le_mul_left ?_ hfactor
    rw [mul_add, mul_div_cancel₀ _ hfactor.ne']
    linarith

/-- A program whose coefficients are divided by 64 on the machine. -/
def scaledDown : Program ℚ := [.weight "A" (1 / 64), .strength "A" "B" 64]

/-- With a vector for each spin of A, both solutions are in the lowest tier. -/
theorem exists_scaledDown :
    ∃ c s t report,
      compile { CompileOptions.default with embed := .dense 1 0 1 } scaledDown
        (.ofEdges [(0, 1)]) false = .ok c ∧
      c.physical.scaleFactor = 1 / 64 ∧ (∃ v ∈ [#[1, -1], #[-1, 1]], c.Reads v s) ∧
      s.isValid = true ∧ scaledDown.objective .ising s.value = -4097 / 64 ∧
      scaledDown.objective .ising t.value = -4095 / 64 ∧
      c.decode (c.samples [#[1, -1], #[-1, 1]]) = .ok report ∧ report.solutions = [s, t] := by
  have hvalues : (compile { CompileOptions.default with embed := .dense 1 0 1 } scaledDown
      (.ofEdges [(0, 1)]) false).toOption.bind (fun c =>
        (c.decoder.decodeSamples (c.samples [#[1, -1], #[-1, 1]])).toOption.map fun samples =>
          (c.physical.scaleFactor,
            samples.map fun s => (s.energy, scaledDown.objective .ising s.value),
            samples.all Solution.isValid && decide (samples.Pairwise fun s t => ¬ s.agrees t))) =
      some (1 / 64, [(-4097 / 4096, -4097 / 64), (-4095 / 4096, -4095 / 64)], true) := by
    decide +kernel
  generalize hcompile : compile (K := ℚ) _ _ _ _ = compiled at hvalues
  cases compiled with
  | error e => cases hvalues
  | ok c =>
    obtain ⟨samples, hsamples, hvalues⟩ := Option.map_eq_some_iff.mp hvalues
    have hsamples := toOption_eq_some_iff.mp hsamples
    obtain ⟨s, t, rfl⟩ : ∃ s t, samples = [s, t] := by
      rw [← List.length_eq_two]
      simpa using congrArg (fun found => found.2.1.length) hvalues
    simp only [List.map_cons, List.map_nil, List.all_cons, List.all_nil, Bool.and_true,
      Bool.and_eq_true, decide_eq_true_eq, List.pairwise_pair, Prod.mk.injEq, List.cons.injEq,
      and_true] at hvalues
    obtain ⟨hfactor, ⟨⟨hs, hsobjective⟩, ht, htobjective⟩, ⟨hsvalid, htvalid⟩, hagrees⟩ := hvalues
    obtain ⟨built, helped, hpasses⟩ := passes_of_compile hcompile
    obtain ⟨report, hdecode⟩ := Decoder.exists_decode hsamples .default
    refine ⟨c, s, t, report, rfl, hfactor,
      (Compiled.reads_of_decodeSamples rfl hsamples).1 s List.mem_cons_self, hsvalid, hsobjective,
      htobjective, ?_, ?_⟩
    · unfold Compiled.decode
      rw [hpasses.options]
      exact mapError_eq_ok.mpr hdecode
    · have hsorted : [s, t].Pairwise fun s t => s.energy ≤ t.energy := by
        rw [List.pairwise_pair, hs, ht]
        norm_num
      have hwithin : ∀ u ∈ [s, t],
          u.energy - s.energy ≤ (DecodeOptions.default : DecodeOptions ℚ).energyTolerance := by
        rw [List.forall_mem_cons, List.forall_mem_singleton, hs, ht]
        decide +kernel
      unfold Decoder.decode at hdecode
      rw [hsamples] at hdecode
      cases hdecode
      have hvalid : [s, t].filter Solution.isValid = [s, t] := by simp [hsvalid, htvalid]
      have hselect : Decoder.select .default [s, t] = [s, t] := by
        unfold Decoder.select
        rw [hvalid]
        exact List.filter_eq_self.mpr fun u hu => decide_eq_true (hwithin u hu)
      simp [Solution.rank_of_pairwise hsorted, hselect, Solution.distinct, Solution.absorb, hagrees]

/-- Two solutions of a program that is scaled down, both reported and within the tolerance of each
other once it is divided by the factor. -/
theorem objective_le_of_reported_scaledDown :
    ∃ c report,
      compile { CompileOptions.default with embed := .dense 1 0 1 } scaledDown
        (.ofEdges [(0, 1)]) false = .ok c ∧
      c.decode (c.samples [#[1, -1], #[-1, 1]]) = .ok report ∧ report.solutions.length = 2 ∧
      ∀ sol ∈ report.solutions, ∃ v ∈ [#[1, -1], #[-1, 1]], c.Reads v sol ∧
        ∀ w ∈ [#[1, -1], #[-1, 1]], ∀ other, c.Reads w other → other.isValid = true →
          scaledDown.objective .ising (c.spinOf (SampleSet.assignment v)) ≤
            scaledDown.objective .ising (c.spinOf (SampleSet.assignment w)) +
              1 / 200 / (1 / 64) := by
  obtain ⟨c, s, t, report, hcompile, hfactor, _, _, _, _, hdecode, hsolutions⟩ := exists_scaledDown
  obtain ⟨_, hreported⟩ := objective_le_of_reported rfl (by decide +kernel) (by decide +kernel)
    rfl rfl hcompile rfl hdecode
  refine ⟨c, report, hcompile, hdecode, by rw [hsolutions]; rfl, fun sol hsol => ?_⟩
  obtain ⟨_, v, hv, hreads, _, hleast⟩ := hreported sol hsol
  rw [hfactor] at hleast
  exact ⟨v, hv, hreads, hleast⟩

/-- The tolerance is not one on the objective: a solution may be reported whose objective is above
that of a valid sample by more. -/
theorem exists_reported_beyond_tolerance :
    ¬ ∀ (o : CompileOptions ℚ) (program : Program ℚ) (target : Target) (c : Compiled ℚ)
      (raw : SampleSet ℚ) (report : DecodeReport ℚ), o.optimize = true → 0 < o.limits.weight →
      0 < o.limits.strength → o.decode.allSolutions = false → o.decode.lowestOnly = true →
      compile o program target false = .ok c →
      raw.energies = raw.vectors.map (fun v =>
        c.physical.sampleEnergy (SampleSet.assignment v)) → c.decode raw = .ok report →
      ∀ sol ∈ report.solutions, ∀ w ∈ raw.vectors, ∀ other, c.Reads w other →
        other.isValid = true → program.objective o.mode sol.value ≤
          program.objective o.mode other.value + o.decode.energyTolerance := by
  intro hall
  obtain ⟨c, s, t, report, hcompile, _, ⟨w, hw, hreads⟩, hvalid, hs, ht, hdecode, hsolutions⟩ :=
    exists_scaledDown
  have hle := hall _ _ _ c _ report rfl (by decide +kernel) (by decide +kernel) rfl rfl hcompile
    rfl hdecode t (by rw [hsolutions]; simp) w hw s hreads hvalid
  change scaledDown.objective .ising t.value ≤ scaledDown.objective .ising s.value + _ at hle
  rw [hs, ht] at hle
  exact absurd hle (by decide +kernel)

end SpinGlass

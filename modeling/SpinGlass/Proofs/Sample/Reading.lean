import SpinGlass.Proofs.Sample.Decode

/-!
# Reading one sample

A sample is read through the chains of the variables, and through nothing else. It can be read if
every qubit of a chain has an entry, and the entry is `+1` or `-1`. A variable has the spin that all
qubits of its chain have; a chain with both spins is broken. Where no qubit is in two chains, every
choice of spins can be written into the qubits, and what is read then is what was written.
-/

namespace SpinGlass

/-- Exactly the chains with both spins are split. -/
theorem Decoder.isSplit_iff {chain : List Spin} :
    isSplit chain = true ↔ .up ∈ chain ∧ .down ∈ chain := by
  cases chain with
  | nil => simp [isSplit]
  | cons first rest =>
    have hsplit : isSplit (first :: rest) = true ↔ ∃ s ∈ rest, s ≠ first := by
      simp [isSplit, consensus?]
    rw [hsplit]
    constructor
    · rintro ⟨s, hs, hne⟩
      cases first <;> cases s <;> simp_all
    · rintro ⟨hup, hdown⟩
      cases first with
      | up => exact ⟨.down, by simpa using hdown, by simp⟩
      | down => exact ⟨.up, by simpa using hup, by simp⟩

namespace SampleSet

variable {K : Type} {raw : SampleSet K}

/-- The vectors with their energies and counts. -/
def samples (raw : SampleSet K) : List (Array Int × K × Nat) :=
  raw.vectors.zip (raw.energies.zip raw.counts)

/-- The lists have one length. -/
def Matched (raw : SampleSet K) : Prop :=
  raw.energies.length = raw.vectors.length ∧ raw.counts.length = raw.vectors.length

theorem check_eq_ok_iff : raw.check = .ok () ↔ raw.Matched := by
  unfold check Matched
  dsimp only
  split <;> simp_all

theorem Matched.map_samples (h : raw.Matched) : raw.samples.map Prod.fst = raw.vectors :=
  List.map_fst_zip (by simp [h.1, h.2])

end SampleSet

namespace Decoder

variable {K : Type} {d : Decoder K} {vector vector' : Array Int} {i q : Nat} {spin : Spin}

/-- Every qubit of the chains of the variables has an entry, and it is `+1` or `-1`. -/
def Legible (d : Decoder K) (vector : Array Int) : Prop :=
  ∀ i < d.model.symbols.size, ∀ q ∈ d.embedding.chain i,
    vector[q]? = some 1 ∨ vector[q]? = some (-1)

/-- The spins of the qubits in the chain of a variable; up where there is no entry. -/
def chainSpins (d : Decoder K) (vector : Array Int) (i : Nat) : List Spin :=
  (d.embedding.chain i).map fun q => (SampleSet.assignment vector q).getD .up

/-- The spins of the variables. -/
def reading (d : Decoder K) (vector : Array Int) : Assignment := fun i =>
  if i < d.model.symbols.size then consensus? (d.chainSpins vector i) else none

/-- The variables whose chains are split, increasing. -/
def splitVars (d : Decoder K) (vector : Array Int) : List Nat :=
  (List.range d.model.symbols.size).filter fun i => isSplit (d.chainSpins vector i)

section Legible

theorem Legible.exists_assignment (h : d.Legible vector) (hi : i < d.model.symbols.size)
    (hq : q ∈ d.embedding.chain i) : ∃ spin, SampleSet.assignment vector q = some spin := by
  rcases h i hi q hq with hup | hdown
  · exact ⟨.up, SampleSet.assignment_eq_some_iff.mpr hup⟩
  · exact ⟨.down, SampleSet.assignment_eq_some_iff.mpr hdown⟩

theorem mem_chainSpins (h : d.Legible vector) (hi : i < d.model.symbols.size) :
    spin ∈ d.chainSpins vector i ↔ ∃ q ∈ d.embedding.chain i, vector[q]? = some spin.toInt := by
  unfold chainSpins
  rw [List.mem_map]
  refine exists_congr fun q => and_congr_right fun hq => ?_
  obtain ⟨found, hfound⟩ := h.exists_assignment hi hq
  rw [← SampleSet.assignment_eq_some_iff, hfound, Option.getD_some, Option.some.injEq]

theorem forall_mem_chainSpins (h : d.Legible vector) (hi : i < d.model.symbols.size) :
    (∀ s ∈ d.chainSpins vector i, s = spin) ↔
      ∀ q ∈ d.embedding.chain i, vector[q]? = some spin.toInt := by
  unfold chainSpins
  rw [List.forall_mem_map]
  refine forall₂_congr fun q hq => ?_
  obtain ⟨found, hfound⟩ := h.exists_assignment hi hq
  rw [← SampleSet.assignment_eq_some_iff, hfound, Option.getD_some, Option.some.injEq]

/-- A variable is read as a spin exactly if it has a chain and all qubits of the chain have the
spin. -/
theorem reading_eq_some_iff (h : d.Legible vector) :
    d.reading vector i = some spin ↔ i < d.model.symbols.size ∧ d.embedding.chain i ≠ [] ∧
      ∀ q ∈ d.embedding.chain i, vector[q]? = some spin.toInt := by
  unfold reading
  split
  · next hi =>
    rw [← forall_mem_chainSpins h hi, and_iff_right hi]
    have hne : d.chainSpins vector i ≠ [] ↔ d.embedding.chain i ≠ [] := by simp [chainSpins]
    rw [← hne]
    constructor
    · intro hread
      refine ⟨?_, eq_of_consensus? hread⟩
      rintro hnil
      rw [hnil] at hread
      cases hread
    · exact fun hread => consensus?_eq_some hread.1 hread.2
  · next hi => simp [hi]

/-- The split variables are those whose chain has both spins. -/
theorem mem_splitVars (h : d.Legible vector) :
    i ∈ d.splitVars vector ↔ i < d.model.symbols.size ∧
      (∃ q ∈ d.embedding.chain i, vector[q]? = some 1) ∧
        ∃ q ∈ d.embedding.chain i, vector[q]? = some (-1) := by
  unfold splitVars
  rw [List.mem_filter, List.mem_range]
  refine and_congr_right fun hi => ?_
  rw [isSplit_iff, mem_chainSpins h hi, mem_chainSpins h hi]
  rfl

theorem pairwise_splitVars (d : Decoder K) (vector : Array Int) :
    (d.splitVars vector).Pairwise (· < ·) :=
  List.pairwise_lt_range.filter _

end Legible

section ReadChains

/-- The chains of a legible vector are read. -/
theorem Legible.readChains (h : d.Legible vector) : d.readChains vector =
    .ok ((List.range d.model.symbols.size).map (d.chainSpins vector)) := by
  refine mapM_eq_ok_map fun i hi => mapM_eq_ok_map fun q hq => ?_
  obtain ⟨spin, hspin⟩ := h.exists_assignment (List.mem_range.mp hi) hq
  rw [spinAt_eq_ok_iff, hspin]
  rfl

/-- Only the chains of a legible vector are read. -/
theorem legible_of_readChains {chains : List (List Spin)} (h : d.readChains vector = .ok chains) :
    d.Legible vector := by
  intro i hi q hq
  obtain ⟨chain, _, hchain⟩ := exists_mem_of_mapM_eq_ok h (List.mem_range.mpr hi)
  obtain ⟨spin, _, hspin⟩ := exists_mem_of_mapM_eq_ok hchain hq
  have hentry := SampleSet.assignment_eq_some_iff.mp (spinAt_eq_ok_iff.mp hspin)
  cases spin with
  | up => exact .inl hentry
  | down => exact .inr hentry

/-- A vector that is not read has no spin for some qubit. -/
theorem noSpin_of_readChains {e : SolverError} (h : d.readChains vector = .error e) :
    ∃ q, e = .malformed (.noSpin q) := by
  obtain ⟨i, _, hi⟩ := exists_of_mapM_eq_error h
  obtain ⟨q, _, hq⟩ := exists_of_mapM_eq_error hi
  unfold spinAt at hq
  split at hq
  · cases hq
  · cases hq
    exact ⟨q, rfl⟩

/-- Only the entries of qubits in the chains are read. -/
theorem readChains_congr (h : ∀ i < d.model.symbols.size, ∀ q ∈ d.embedding.chain i,
    vector[q]? = vector'[q]?) : d.readChains vector = d.readChains vector' := by
  refine mapM_congr (List.forall₂_same.mpr fun i hi => ?_)
  refine mapM_congr (List.forall₂_same.mpr fun q hq => ?_)
  unfold spinAt SampleSet.assignment
  rw [h i (List.mem_range.mp hi) q hq]

/-- The broken chains are those of the split variables. -/
theorem brokenChains_eq (d : Decoder K) (vector : Array Int) :
    d.brokenChains ((List.range d.model.symbols.size).map (d.chainSpins vector)) =
      (d.splitVars vector).map d.displayName := by
  have hzip : ((List.range d.model.symbols.size).map (d.chainSpins vector)).zipIdx =
      (List.range d.model.symbols.size).map fun i => (d.chainSpins vector i, i) := by
    refine List.ext_getElem (by simp) fun k hk hk' => ?_
    simp
  unfold brokenChains splitVars
  rw [hzip, List.filter_map, List.map_map]
  rfl

/-- The spins that are put together from the chains are those of the variables. -/
theorem spins_eq_reading (d : Decoder K) (vector : Array Int) :
    (fun i => ((((List.range d.model.symbols.size).map (d.chainSpins vector)).map
      consensus?).toArray[i]?).join) = d.reading vector := by
  funext i
  unfold reading
  split
  · next hi => simp [hi]
  · next hi => simp [hi]

end ReadChains

/-- What a solution says of the vector that it was read from, given the spins of the variables and
the variables whose chains are broken. A variable without a chain has no spin, and its chain is not
broken. -/
structure Reads (d : Decoder K) (vector : Array Int) (spins : Assignment) (broken : List Nat)
    (s : Solution K) : Prop where
  legible : d.Legible vector
  spins_iff : ∀ i spin, spins i = some spin ↔ i < d.model.symbols.size ∧ d.embedding.chain i ≠ [] ∧
    ∀ q ∈ d.embedding.chain i, vector[q]? = some spin.toInt
  increasing : broken.Pairwise (· < ·)
  broken_iff : ∀ i, i ∈ broken ↔ i < d.model.symbols.size ∧
    (∃ q ∈ d.embedding.chain i, vector[q]? = some 1) ∧
      ∃ q ∈ d.embedding.chain i, vector[q]? = some (-1)
  brokenChains : s.brokenChains = broken.map d.displayName
  sorted : s.brokenPins.Pairwise fun a b => compare a b = .lt
  brokenPins : ∀ name, name ∈ s.brokenPins ↔ ∃ i pin,
    d.model.problem.pinned.get? i = some pin ∧ spins i = some (-pin) ∧
      d.displayName ((d.model.problem.pinHelpers.get? i).getD i) = name
  values : ∀ name, s.values.get? name =
    if isInternalName name then none
    else ((d.model.problem.knownValues.get? name).map some).or
      ((d.model.symbols.lookup? name).map spins)
  id : s.id = .ofBits (d.bits spins)
  assertions : s.assertions =
    d.model.problem.assertions.map (Expr.check fun name => (s.value name).map Spin.toBool)

/-- The names of the broken pins are those of the pinned variables with the other spin. -/
theorem mem_brokenPins {spins : Assignment} {name : String} :
    name ∈ d.brokenPins spins ↔ ∃ i pin, d.model.problem.pinned.get? i = some pin ∧
      spins i = some (-pin) ∧
        d.displayName ((d.model.problem.pinHelpers.get? i).getD i) = name := by
  unfold brokenPins
  simp only [mem_sortDistinct, List.mem_map, List.mem_filter, Table.get?_eq_some_iff, beq_iff_eq,
    Prod.exists]
  exact exists₂_congr fun i pin => and_assoc

section Samples

variable [Coefficient K] {energy : K} {occurrences : Nat} {s : Solution K} {raw : SampleSet K}

/-- What a legible vector is decoded to. -/
def decoded (d : Decoder K) (vector : Array Int) (energy : K) (occurrences : Nat) : Solution K where
  id := .ofBits (d.bits (d.reading vector))
  energy := energy + d.model.problem.offset
  occurrences
  values := d.values (d.reading vector)
  brokenChains := (d.splitVars vector).map d.displayName
  brokenPins := d.brokenPins (d.reading vector)
  assertions := d.model.problem.assertions.map (Expr.check fun name =>
    ((d.values (d.reading vector)).get? name).join.map Spin.toBool)

/-- What is decoded says what the vector says. -/
theorem reads_decoded (h : d.Legible vector) (energy : K) (occurrences : Nat) :
    d.Reads vector (d.reading vector) (d.splitVars vector)
      (d.decoded vector energy occurrences) where
  legible := h
  spins_iff _ _ := reading_eq_some_iff h
  increasing := d.pairwise_splitVars vector
  broken_iff _ := mem_splitVars h
  brokenChains := rfl
  sorted := pairwise_sortDistinct _
  brokenPins _ := mem_brokenPins
  values := d.get?_values (d.reading vector)
  id := rfl
  assertions := rfl

/-- Exactly the legible vectors are decoded. -/
theorem decodeSample_eq_ok_iff : d.decodeSample vector energy occurrences = .ok s ↔
    d.Legible vector ∧ s = d.decoded vector energy occurrences := by
  have hdecoded : d.Legible vector →
      d.decodeSample vector energy occurrences = .ok (d.decoded vector energy occurrences) := by
    intro h
    unfold decodeSample
    rw [h.readChains]
    simp only [Bind.bind, Except.bind, Pure.pure, Except.pure, spins_eq_reading, brokenChains_eq]
    rfl
  constructor
  · intro h
    have hlegible : d.Legible vector := by
      unfold decodeSample at h
      obtain ⟨chains, hchains, _⟩ := bind_eq_ok.mp h
      exact legible_of_readChains hchains
    rw [hdecoded hlegible] at h
    exact ⟨hlegible, (Except.ok.inj h).symm⟩
  · rintro ⟨h, rfl⟩
    exact hdecoded h

/-- A vector that is not decoded has no spin for some qubit. -/
theorem noSpin_of_decodeSample {e : SolverError}
    (h : d.decodeSample vector energy occurrences = .error e) :
    ∃ q, e = .malformed (.noSpin q) := by
  unfold decodeSample at h
  rcases bind_eq_error.mp h with h | ⟨_, _, h⟩
  · exact noSpin_of_readChains h
  · cases h

/-- Only the entries of qubits in the chains are decoded. -/
theorem decodeSample_congr (h : ∀ i < d.model.symbols.size, ∀ q ∈ d.embedding.chain i,
    vector[q]? = vector'[q]?) :
    d.decodeSample vector energy occurrences = d.decodeSample vector' energy occurrences := by
  unfold decodeSample
  rw [readChains_congr h]

/-- A set of samples is decoded exactly if its lists have one length and all vectors are legible, and
then sample by sample. -/
theorem decodeSamples_eq_ok_iff {solutions : List (Solution K)} :
    d.decodeSamples raw = .ok solutions ↔ raw.Matched ∧
      (∀ vector ∈ raw.vectors, d.Legible vector) ∧
        solutions = raw.samples.map fun x => d.decoded x.1 x.2.1 x.2.2 := by
  have hdecode : d.decodeSamples raw = raw.check >>= fun _ =>
      raw.samples.mapM fun x => d.decodeSample x.1 x.2.1 x.2.2 := rfl
  have hall : (∀ vector ∈ raw.vectors, d.Legible vector) → raw.samples.mapM (fun x =>
      d.decodeSample x.1 x.2.1 x.2.2) =
        .ok (raw.samples.map fun x => d.decoded x.1 x.2.1 x.2.2) := fun h =>
    mapM_eq_ok_map fun x hx => decodeSample_eq_ok_iff.mpr ⟨h _ (List.of_mem_zip hx).1, rfl⟩
  rw [hdecode, bind_eq_ok]
  constructor
  · rintro ⟨_, hcheck, hmap⟩
    have hmatched := SampleSet.check_eq_ok_iff.mp hcheck
    have hlegible : ∀ vector ∈ raw.vectors, d.Legible vector := by
      intro vector hvector
      rw [← hmatched.map_samples] at hvector
      obtain ⟨x, hx, rfl⟩ := List.mem_map.mp hvector
      obtain ⟨_, _, hs⟩ := exists_mem_of_mapM_eq_ok hmap hx
      exact (decodeSample_eq_ok_iff.mp hs).1
    rw [hall hlegible] at hmap
    exact ⟨hmatched, hlegible, (Except.ok.inj hmap).symm⟩
  · rintro ⟨hmatched, hlegible, rfl⟩
    exact ⟨(), SampleSet.check_eq_ok_iff.mpr hmatched, hall hlegible⟩

/-- A set of samples that is not decoded is malformed. -/
theorem malformed_of_decodeSamples {e : SolverError} (h : d.decodeSamples raw = .error e) :
    ∃ fault, e = .malformed fault := by
  unfold decodeSamples at h
  rcases bind_eq_error.mp h with h | ⟨_, _, h⟩
  · unfold SampleSet.check at h
    dsimp only at h
    split at h
    · cases h
    · cases h
      exact ⟨_, rfl⟩
  · obtain ⟨_, _, h⟩ := exists_of_mapM_eq_error h
    obtain ⟨q, hq⟩ := noSpin_of_decodeSample h
    exact ⟨_, hq⟩

/-- Only the entries of qubits in the chains are decoded, whatever the samples are. -/
theorem decodeSamples_congr {vectors : List (Array Int)}
    (h : List.Forall₂ (fun vector vector' => ∀ i < d.model.symbols.size,
      ∀ q ∈ d.embedding.chain i, vector[q]? = vector'[q]?) vectors raw.vectors) :
    d.decodeSamples { raw with vectors } = d.decodeSamples raw := by
  have hzip : ∀ {xs ys : List (Array Int)} (rest : List (K × Nat)),
      List.Forall₂ (fun vector vector' => ∀ i < d.model.symbols.size,
        ∀ q ∈ d.embedding.chain i, vector[q]? = vector'[q]?) xs ys →
      List.Forall₂ (fun x y : Array Int × K × Nat => d.decodeSample x.1 x.2.1 x.2.2 =
        d.decodeSample y.1 y.2.1 y.2.2) (xs.zip rest) (ys.zip rest) := by
    intro xs ys rest hall
    induction hall generalizing rest with
    | nil => exact .nil
    | cons hfirst _ ih =>
      cases rest with
      | nil => exact .nil
      | cons x rest => exact .cons (decodeSample_congr hfirst) (ih rest)
  have hcheck : ({ raw with vectors } : SampleSet K).check = raw.check := by
    simp only [SampleSet.check, h.length_eq]
  exact bind_congr_ok hcheck fun _ _ => mapM_congr (hzip _ h)

/-- Where no qubit is in two chains, spins that are written into the chains are read. -/
theorem reads_lift (hchains : ∀ i < d.model.symbols.size, d.embedding.chain i ≠ [])
    (hdisjoint : ∀ i < d.model.symbols.size, ∀ k < d.model.symbols.size, i ≠ k →
      ∀ q ∈ d.embedding.chain i, q ∉ d.embedding.chain k)
    (t : Nat → Spin) (energy : K) (occurrences : Nat) :
    ∃ s spins, d.decodeSample (d.embedding.lift d.model.symbols.size t) energy occurrences = .ok s ∧
      d.Reads (d.embedding.lift d.model.symbols.size t) spins [] s ∧
        ∀ i < d.model.symbols.size, spins i = some (t i) := by
  have hentry : ∀ i < d.model.symbols.size, ∀ q ∈ d.embedding.chain i,
      (d.embedding.lift d.model.symbols.size t)[q]? = some (t i).toInt :=
    fun i hi q hq => Embedding.getElem?_lift hdisjoint t hi hq
  have hlegible : d.Legible (d.embedding.lift d.model.symbols.size t) := by
    intro i hi q hq
    rw [hentry i hi q hq]
    cases t i with
    | up => exact .inl rfl
    | down => exact .inr rfl
  have hsplit : d.splitVars (d.embedding.lift d.model.symbols.size t) = [] := by
    refine List.eq_nil_iff_forall_not_mem.mpr fun i hmem => ?_
    obtain ⟨hi, ⟨q, hq, hup⟩, k, hk, hdown⟩ := (mem_splitVars hlegible).mp hmem
    rw [hentry i hi q hq] at hup
    rw [hentry i hi k hk, hup] at hdown
    cases hdown
  have hreads := d.reads_decoded hlegible energy occurrences
  rw [hsplit] at hreads
  refine ⟨_, _, decodeSample_eq_ok_iff.mpr ⟨hlegible, rfl⟩, hreads, fun i hi => ?_⟩
  exact (reading_eq_some_iff hlegible).mpr ⟨hi, hchains i hi, hentry i hi⟩

/-- Decoding fails exactly if the samples are not decoded. -/
theorem decode_eq_error_iff {options : DecodeOptions K} {e : SolverError} :
    d.decode raw options = .error e ↔ d.decodeSamples raw = .error e := by
  unfold decode
  rw [bind_eq_error]
  simp [Pure.pure, Except.pure]

/-- Decoding fails exactly if the lists differ in length or some vector is not legible. -/
theorem exists_fault_iff {options : DecodeOptions K} :
    (∃ fault, d.decode raw options = .error (.malformed fault)) ↔
      ¬ (raw.Matched ∧ ∀ vector ∈ raw.vectors, d.Legible vector) := by
  simp only [decode_eq_error_iff]
  cases hsamples : d.decodeSamples raw with
  | ok samples =>
    obtain ⟨hmatched, hlegible, _⟩ := decodeSamples_eq_ok_iff.mp hsamples
    exact iff_of_false (by simp) fun h => h ⟨hmatched, hlegible⟩
  | error e =>
    obtain ⟨fault, rfl⟩ := malformed_of_decodeSamples hsamples
    refine iff_of_true ⟨fault, rfl⟩ fun ⟨hmatched, hlegible⟩ => ?_
    rw [decodeSamples_eq_ok_iff.mpr ⟨hmatched, hlegible, rfl⟩] at hsamples
    cases hsamples

/-- What is reported is decoded from one of the samples, but for the number of occurrences. -/
theorem exists_sample_of_mem_report {options : DecodeOptions K} {samples : List (Solution K)}
    {report : DecodeReport K} (hsamples : d.decodeSamples raw = .ok samples)
    (h : d.decode raw options = .ok report) :
    ∀ s ∈ report.solutions, ∃ sample ∈ samples, ∃ n, s = { sample with occurrences := n } := by
  have hselect : ∀ s ∈ select options (Solution.rank samples), s ∈ samples := by
    intro s hs
    cases hall : options.allSolutions with
    | false => exact List.mem_mergeSort.mp (isValid_of_mem_select hall hs).1
    | true =>
      simp only [select, hall, if_true] at hs
      exact List.mem_mergeSort.mp hs
  unfold decode at h
  rw [hsamples] at h
  cases h
  refine forall_mem_distinct (fun s n hs => ?_) fun s hs => ⟨s, hselect s hs, s.occurrences, rfl⟩
  obtain ⟨sample, hmem, _, rfl⟩ := hs
  exact ⟨sample, hmem, n, rfl⟩

/-- A set of samples is malformed exactly if its lists differ in length or if the entry of a qubit in
some chain is missing or no spin. Otherwise every sample is decoded to a solution that says what the
chains say, and these are reported. No other entry is looked at. Where no qubit is in two chains, the
spins that are written into the chains are read. -/
theorem decode_reads (d : Decoder K) (raw : SampleSet K) (options : DecodeOptions K) :
    ((∃ fault, d.decode raw options = .error (.malformed fault)) ↔
      raw.energies.length ≠ raw.vectors.length ∨ raw.counts.length ≠ raw.vectors.length ∨
        ∃ vector ∈ raw.vectors, ∃ i < d.model.symbols.size, ∃ q ∈ d.embedding.chain i,
          vector[q]? ≠ some 1 ∧ vector[q]? ≠ some (-1)) ∧
    ((∃ fault, d.decode raw options = .error (.malformed fault)) ∨ ∃ samples report,
      d.decodeSamples raw = .ok samples ∧ d.decode raw options = .ok report ∧
      List.Forall₂ (fun x s => (∃ spins broken, d.Reads x.1 spins broken s) ∧
        s.energy = x.2.1 + d.model.problem.offset ∧ s.occurrences = x.2.2) raw.samples samples ∧
      ∀ s ∈ report.solutions, ∃ sample ∈ samples, ∃ n, s = { sample with occurrences := n }) ∧
    (∀ vectors, List.Forall₂ (fun vector vector' => ∀ i < d.model.symbols.size,
        ∀ q ∈ d.embedding.chain i, vector[q]? = vector'[q]?) vectors raw.vectors →
      d.decode { raw with vectors } options = d.decode raw options) ∧
    ((∀ i < d.model.symbols.size, d.embedding.chain i ≠ []) →
      (∀ i < d.model.symbols.size, ∀ k < d.model.symbols.size, i ≠ k →
        ∀ q ∈ d.embedding.chain i, q ∉ d.embedding.chain k) →
      ∀ (t : Nat → Spin) (energy : K) (occurrences : Nat), ∃ s spins,
        d.decodeSample (d.embedding.lift d.model.symbols.size t) energy occurrences = .ok s ∧
        d.Reads (d.embedding.lift d.model.symbols.size t) spins [] s ∧
        ∀ i < d.model.symbols.size, spins i = some (t i)) := by
  refine ⟨?_, ?_, fun vectors h => ?_, fun hchains hdisjoint => reads_lift hchains hdisjoint⟩
  · rw [exists_fault_iff, not_and_or, SampleSet.Matched, not_and_or, or_assoc]
    refine or_congr_right (or_congr_right ?_)
    simp [Legible]
  · rw [exists_fault_iff, or_iff_not_imp_left, not_not]
    rintro ⟨hmatched, hlegible⟩
    have hsamples := decodeSamples_eq_ok_iff.mpr
      ⟨hmatched, hlegible, rfl⟩
    obtain ⟨report, hreport⟩ := exists_decode hsamples options
    refine ⟨_, report, hsamples, hreport, ?_, exists_sample_of_mem_report hsamples hreport⟩
    rw [List.forall₂_map_right_iff, List.forall₂_same]
    intro x hx
    exact ⟨⟨_, _, d.reads_decoded (hlegible _ (List.of_mem_zip hx).1) _ _⟩, rfl, rfl⟩
  · unfold decode
    rw [decodeSamples_congr h]

/-- A variable `A` on two qubits and a pinned variable `B` on one, which is coupled to the helper of
its pin. -/
def pinnedPair : Decoder ℚ where
  model.problem :=
    { ((Problem.empty .ising).addStrength 0 1 1).addStrength 1 2 (-4) with
      pinned := .ofList [(1, .up), (2, .up)]
      pinHelpers := .ofList [(2, 1)]
      assertions := [.binary .ne (.var "A") (.var "B")]
      knownValues := .ofList [("K", .up)]
      offset := 1 / 2 }
  model.symbols := (((Symbols.empty.intern "A").2.intern "B").2.fresh "pin").2
  embedding := ⟨[[0, 1], [2], [3]]⟩
  mode := .ising

/-- A vector that is too short is malformed, and spins that are written into the chains are read. -/
theorem decode_reads_pinnedPair :
    (∃ fault, pinnedPair.decode ⟨[#[1, 1]], [0], [1], 0⟩ .default = .error (.malformed fault)) ∧
    ∃ s, pinnedPair.decodeSample (pinnedPair.embedding.lift pinnedPair.model.symbols.size
        fun i => if i = 0 then .down else .up) (-5) 1 = .ok s ∧
      s.brokenChains = [] ∧ s.value "A" = some .down ∧ s.value "B" = some .up := by
  obtain ⟨hfault, _, _, hlift⟩ :=
    decode_reads pinnedPair ⟨[#[1, 1]], [0], [1], 0⟩ DecodeOptions.default
  have hdisjoint : ∀ i k : Fin pinnedPair.model.symbols.size, i.val ≠ k.val →
      ∀ q ∈ pinnedPair.embedding.chain i, q ∉ pinnedPair.embedding.chain k := by decide +kernel
  obtain ⟨s, spins, hs, hreads, hspins⟩ := hlift (by decide +kernel)
    (fun i hi k hk => hdisjoint ⟨i, hi⟩ ⟨k, hk⟩) (fun i => if i = 0 then .down else .up) (-5) 1
  refine ⟨hfault.mpr (.inr (.inr ⟨#[1, 1], by decide, 1, by decide +kernel, 2, by decide,
    by decide, by decide⟩)), s, hs, hreads.brokenChains, ?_, ?_⟩
  · have hindex : pinnedPair.model.symbols.lookup? "A" = some 0 := by decide +kernel
    have hknown : pinnedPair.model.problem.knownValues.get? "A" = none := by decide +kernel
    have huser : isInternalName "A" = false := by decide +kernel
    unfold Solution.value
    rw [hreads.values, huser, hknown, hindex]
    exact hspins 0 (by decide +kernel)
  · have hindex : pinnedPair.model.symbols.lookup? "B" = some 1 := by decide +kernel
    have hknown : pinnedPair.model.problem.knownValues.get? "B" = none := by decide +kernel
    have huser : isInternalName "B" = false := by decide +kernel
    unfold Solution.value
    rw [hreads.values, huser, hknown, hindex]
    exact hspins 1 (by decide +kernel)

end Samples

end Decoder

end SpinGlass

import SpinGlass.Proofs.Sample.Readout
import SpinGlass.Proofs.Simplify.Names

/-!
# What a decoder reports

A decoder reads a solution from a vector through the chains. A solution is valid exactly if its
vector gives a spin to every variable, the pins are met and the assertions pass. Unless all
solutions are asked for, only valid ones are reported.
-/

namespace SpinGlass

/-- A solution is valid exactly if no chain and no pin is broken and all assertions pass. -/
theorem Solution.isValid_iff {K : Type} {s : Solution K} : s.isValid = true ↔
    (s.brokenChains = [] ∧ s.brokenPins = []) ∧ s.passesAssertions = true := by
  simp [isValid, isBroken]

namespace Decoder

variable {K : Type} {d : Decoder K} {vector : Array Int}

section Chains

theorem spinAt_eq_ok_iff {q : Nat} {spin : Spin} :
    spinAt vector q = .ok spin ↔ SampleSet.assignment vector q = some spin := by
  unfold spinAt
  cases SampleSet.assignment vector q <;> simp

/-- A chain is read as the spins that its qubits are assigned. -/
theorem mapM_assignment {chain : List Nat} {spins : List Spin}
    (h : chain.mapM (spinAt vector) = .ok spins) :
    chain.mapM (SampleSet.assignment vector) = some spins := by
  have hall := forall₂_of_mapM_eq_ok h
  clear h
  induction hall with
  | nil => rfl
  | cons hfirst _ ih =>
    rw [List.mapM_cons, spinAt_eq_ok_iff.mp hfirst, ih]
    rfl

/-- The chains that are read are those of the variables, in order. -/
theorem readChains_eq_ok {chains : List (List Spin)} (h : d.readChains vector = .ok chains) :
    chains.length = d.model.symbols.size ∧ ∀ i chain, chains[i]? = some chain →
      (d.embedding.chain i).mapM (spinAt vector) = .ok chain := by
  have hall := forall₂_of_mapM_eq_ok h
  have hlength := hall.length_eq
  rw [List.length_range] at hlength
  refine ⟨hlength.symm, fun i chain hchain => ?_⟩
  obtain ⟨hi, rfl⟩ := List.getElem?_eq_some_iff.mp hchain
  have hget := hall.get (by simpa [hlength] using hi) hi
  rwa [List.get_eq_getElem, List.getElem_range] at hget

/-- A variable has the spin on which the qubits of its chain agree. -/
theorem readout_eq_consensus? {i : Nat} {chain : List Spin}
    (h : (d.embedding.chain i).mapM (spinAt vector) = .ok chain) :
    d.embedding.readout (SampleSet.assignment vector) i = consensus? chain := by
  unfold Embedding.readout
  rw [mapM_assignment h]
  rfl

/-- The spins that are put together from the chains are read through the embedding. -/
theorem spins_eq_readout (hlength : d.embedding.chains.length = d.model.symbols.size)
    {chains : List (List Spin)} (h : d.readChains vector = .ok chains) (i : Nat) :
    ((chains.map consensus?).toArray[i]?).join =
      d.embedding.readout (SampleSet.assignment vector) i := by
  obtain ⟨hsize, hread⟩ := readChains_eq_ok h
  rw [List.getElem?_toArray, List.getElem?_map]
  cases hchain : chains[i]? with
  | some chain => exact (readout_eq_consensus? (hread i chain hchain)).symm
  | none =>
    have hi : ¬ i < d.embedding.chains.length := by
      rw [hlength, ← hsize, Nat.not_lt]
      exact List.getElem?_eq_none_iff.mp hchain
    have hempty : (d.embedding.chain i).mapM (spinAt vector) = .ok [] := by
      rw [Embedding.chain_eq_nil hi]
      rfl
    exact (readout_eq_consensus? hempty).symm

/-- A chain with a qubit is split unless its qubits agree. -/
theorem isSplit_eq_false_iff {chain : List Spin} (hne : chain ≠ []) :
    isSplit chain = false ↔ ∃ spin, consensus? chain = some spin := by
  unfold isSplit
  rw [← Option.isSome_iff_exists]
  simp [hne]

/-- No chain is broken exactly if every variable has a spin. -/
theorem brokenChains_eq_nil_iff (hvalid : d.embedding.Valid d.model.symbols.size)
    {chains : List (List Spin)} (h : d.readChains vector = .ok chains) :
    d.brokenChains chains = [] ↔
      (d.embedding.readout (SampleSet.assignment vector)).Covers d.model.symbols.size := by
  obtain ⟨hsize, hread⟩ := readChains_eq_ok h
  have hsplit : ∀ (i : Nat) (chain : List Spin), chains[i]? = some chain → (isSplit chain = false ↔
      ∃ spin, d.embedding.readout (SampleSet.assignment vector) i = some spin) := by
    intro i chain hchain
    have hi : i < d.model.symbols.size := hsize ▸ (List.getElem?_eq_some_iff.mp hchain).1
    have hlength := (forall₂_of_mapM_eq_ok (hread i chain hchain)).length_eq
    have hne : chain ≠ [] := by
      rintro rfl
      exact hvalid.chain_ne_nil hi (List.length_eq_zero_iff.mp hlength)
    rw [isSplit_eq_false_iff hne, readout_eq_consensus? (hread i chain hchain)]
  have hnil : d.brokenChains chains = [] ↔
      ∀ (i : Nat) (chain : List Spin), chains[i]? = some chain → isSplit chain = false := by
    unfold brokenChains
    rw [List.map_eq_nil_iff, List.filter_eq_nil_iff]
    constructor
    · intro hall i chain hchain
      simpa using hall (chain, i) (List.mem_zipIdx_iff_getElem?.mpr hchain)
    · intro hall e he
      simpa using hall e.2 e.1 (List.mem_zipIdx_iff_getElem?.mp he)
  rw [hnil]
  constructor
  · intro hall i hi
    rw [← hsize] at hi
    have hchain : chains[i]? = some chains[i] := List.getElem?_eq_getElem hi
    exact (hsplit i _ hchain).mp (hall i _ hchain)
  · intro hcovers i chain hchain
    exact (hsplit i chain hchain).mpr (hcovers i (hsize ▸ (List.getElem?_eq_some_iff.mp hchain).1))

/-- A vector that gives a spin to all qubits of the chains can be read. -/
theorem exists_readChains (h : ∀ i < d.model.symbols.size, ∀ q ∈ d.embedding.chain i,
    ∃ spin, SampleSet.assignment vector q = some spin) :
    ∃ chains, d.readChains vector = .ok chains := by
  refine exists_mapM_eq_ok fun i hi => exists_mapM_eq_ok fun q hq => ?_
  obtain ⟨spin, hspin⟩ := h i (List.mem_range.mp hi) q hq
  exact ⟨spin, spinAt_eq_ok_iff.mpr hspin⟩

end Chains

section Pins

variable {t : Assignment}

/-- Every spin but the opposite one is the spin itself. -/
theorem beq_neg_eq_false_iff {found : Option Spin} (h : ∃ spin, found = some spin) (pin : Spin) :
    (found == some (-pin)) = false ↔ found = some pin := by
  obtain ⟨spin, rfl⟩ := h
  cases spin <;> cases pin <;> decide

/-- No pin is broken exactly if all are met. -/
theorem brokenPins_eq_nil_iff (ht : t.Covers d.model.symbols.size)
    (hpinned : ∀ i pin, d.model.problem.pinned.get? i = some pin → i < d.model.symbols.size) :
    d.brokenPins t = [] ↔ d.model.problem.MeetsPins t := by
  have hnil : d.brokenPins t = [] ↔
      ∀ e ∈ d.model.problem.pinned.entries, (t e.1 == some (-e.2)) = false := by
    unfold brokenPins
    rw [List.eq_nil_iff_forall_not_mem]
    simp only [mem_sortDistinct, List.mem_map, List.mem_filter]
    constructor
    · intro hnone e he
      rw [Bool.eq_false_iff]
      exact fun hbroken => hnone _ ⟨e, ⟨he, hbroken⟩, rfl⟩
    · rintro hall _ ⟨e, ⟨he, hbroken⟩, _⟩
      exact absurd hbroken (Bool.eq_false_iff.mp (hall e he))
  rw [hnil]
  constructor
  · intro hall i pin hpin
    have hmem := Table.get?_eq_some_iff.mp hpin
    exact (beq_neg_eq_false_iff (ht i (hpinned i pin hpin)) pin).mp (hall (i, pin) hmem)
  · intro hmeets e he
    have hpin := Table.get?_eq_some_iff.mpr he
    exact (beq_neg_eq_false_iff (ht _ (hpinned _ _ hpin)) e.2).mpr (hmeets _ _ hpin)

end Pins

section Values

variable {t : Assignment}

/-- The spin that a solution shows for a name: none for a generated one. -/
def shown (d : Decoder K) (t : Assignment) (name : String) : Option Spin :=
  if isInternalName name then none else d.model.spinOf t name

/-- A name that is not generated has its known value, or else the spin of its index. -/
theorem get?_values (d : Decoder K) (t : Assignment) (name : String) :
    (d.values t).get? name =
      if isInternalName name then none
      else ((d.model.problem.knownValues.get? name).map some).or
        ((d.model.symbols.lookup? name).map t) := by
  let known := d.knownValues.map fun e => (e.1, some e.2)
  let named := (d.model.symbols.entries.filter fun e => !isInternalName e.1).map
    fun e => (e.1, t e.2)
  have hknown : (Table.ofList known).get? name =
      if isInternalName name then none
      else (d.model.problem.knownValues.get? name).map some := by
    refine Table.get?_ofList fun value => ?_
    cases hname : isInternalName name <;>
      simp [known, knownValues, Table.get?_eq_some_iff, hname]
  have hnamed : (Table.ofList named).get? name =
      if isInternalName name then none else (d.model.symbols.lookup? name).map t := by
    refine Table.get?_ofList fun value => ?_
    cases hname : isInternalName name <;> simp [named, Symbols.mem_entries, hname]
  have hvalues : (d.values t).get? name =
      ((Table.ofList known).get? name).or ((Table.ofList named).get? name) :=
    Table.get?_ofList_append named known name
  rw [hvalues, hknown, hnamed]
  split <;> rfl

/-- Where no name has both an index and a known value, the values of a solution are the spins of the
names that are not generated. -/
theorem join_get?_values (hplain : d.model.symbols.Plain) (hapart : d.model.KnownApart)
    (t : Assignment) (name : String) : ((d.values t).get? name).join = d.shown t name := by
  rw [get?_values]
  unfold shown Model.spinOf
  split
  · rfl
  · cases hi : d.model.symbols.lookup? name with
    | none => cases d.model.problem.knownValues.get? name <;> rfl
    | some i =>
      rw [hapart name i ((hplain.lookup? name).symm.trans hi)]
      rfl

end Values

section Solutions

variable {s : Solution K}

/-- What a solution says about the vector it was read from. -/
structure Decodes (d : Decoder K) (vector : Array Int) (s : Solution K) : Prop where
  values : ∀ name,
    s.value name = d.shown (d.embedding.readout (SampleSet.assignment vector)) name
  brokenChains : s.brokenChains = [] ↔
    (d.embedding.readout (SampleSet.assignment vector)).Covers d.model.symbols.size
  brokenPins : s.brokenPins = d.brokenPins (d.embedding.readout (SampleSet.assignment vector))
  assertions : s.assertions =
    d.model.problem.assertions.map (Expr.check fun name => (s.value name).map Spin.toBool)

/-- The number of occurrences says nothing about the vector. -/
theorem Decodes.withOccurrences (h : d.Decodes vector s) (n : Nat) :
    d.Decodes vector { s with occurrences := n } :=
  ⟨h.values, h.brokenChains, h.brokenPins, h.assertions⟩

/-- A decoder whose names, indices and chains fit together. -/
structure Sound (d : Decoder K) : Prop where
  plain : d.model.symbols.Plain
  knownApart : d.model.KnownApart
  pinned : ∀ i pin, d.model.problem.pinned.get? i = some pin → i < d.model.symbols.size
  embedding : d.embedding.Valid d.model.symbols.size

/-- A solution is valid exactly if its vector gives a spin to every variable, the pins are met and
the assertions pass. -/
theorem Decodes.isValid_iff (h : d.Decodes vector s) (hd : d.Sound) :
    s.isValid = true ↔
      (d.embedding.readout (SampleSet.assignment vector)).Covers d.model.symbols.size ∧
        d.model.problem.MeetsPins (d.embedding.readout (SampleSet.assignment vector)) ∧
        ∀ e ∈ d.model.problem.assertions,
          (e.check fun name => (s.value name).map Spin.toBool).passed = true := by
  have hpasses : s.passesAssertions = true ↔ ∀ e ∈ d.model.problem.assertions,
      (e.check fun name => (s.value name).map Spin.toBool).passed = true := by
    unfold Solution.passesAssertions
    rw [h.assertions, List.all_map, List.all_eq_true]
    rfl
  rw [Solution.isValid_iff, hpasses, h.brokenChains, h.brokenPins, and_assoc]
  refine and_congr_right fun hcovers => ?_
  rw [brokenPins_eq_nil_iff hcovers hd.pinned]

variable [Coefficient K]

/-- A sample that is decoded says what its vector shows. -/
theorem decodes_of_ok (hd : d.Sound) {energy : K} {occurrences : Nat}
    (h : d.decodeSample vector energy occurrences = .ok s) : d.Decodes vector s := by
  unfold decodeSample at h
  obtain ⟨chains, hchains, h⟩ := bind_eq_ok.mp h
  have hspins : (fun i => ((chains.map consensus?).toArray[i]?).join) =
      d.embedding.readout (SampleSet.assignment vector) :=
    funext fun i => spins_eq_readout hd.embedding.length hchains i
  simp only [hspins] at h
  cases h
  exact ⟨fun name => join_get?_values hd.plain hd.knownApart _ name,
    brokenChains_eq_nil_iff hd.embedding hchains, rfl, rfl⟩

/-- The energy of a solution is the one that was reported, with the constant term. -/
theorem energy_of_ok {energy : K} {occurrences : Nat}
    (h : d.decodeSample vector energy occurrences = .ok s) :
    s.energy = energy + d.model.problem.offset := by
  unfold decodeSample at h
  obtain ⟨_, _, h⟩ := bind_eq_ok.mp h
  cases h
  rfl

/-- A vector that gives a spin to all qubits of the chains is decoded. -/
theorem exists_decodeSample (h : ∀ i < d.model.symbols.size, ∀ q ∈ d.embedding.chain i,
    ∃ spin, SampleSet.assignment vector q = some spin) (energy : K) (occurrences : Nat) :
    ∃ s, d.decodeSample vector energy occurrences = .ok s := by
  obtain ⟨chains, hchains⟩ := exists_readChains h
  unfold decodeSample
  rw [hchains]
  exact ⟨_, rfl⟩

/-- Samples that can all be decoded are decoded, each to a solution of its own. -/
theorem exists_decodeSamples {α : Type} {samples : List α} {vector : α → Array Int} {energy : α → K}
    {count : α → Nat} (brokenCount : Nat)
    (h : ∀ x ∈ samples, ∃ s, d.decodeSample (vector x) (energy x) (count x) = .ok s) :
    ∃ solutions, d.decodeSamples
        ⟨samples.map vector, samples.map energy, samples.map count, brokenCount⟩ = .ok solutions ∧
      (∀ s ∈ solutions, ∃ x ∈ samples, d.decodeSample (vector x) (energy x) (count x) = .ok s) ∧
      ∀ x ∈ samples, ∃ s ∈ solutions,
        d.decodeSample (vector x) (energy x) (count x) = .ok s := by
  obtain ⟨solutions, hsolutions⟩ := exists_mapM_eq_ok h
  refine ⟨solutions, ?_, fun s hs => exists_of_mapM_eq_ok hsolutions hs,
    fun x hx => exists_mem_of_mapM_eq_ok hsolutions hx⟩
  unfold decodeSamples
  simp only [SampleSet.check, List.length_map, and_self, if_true, List.zip_map', List.mapM_map]
  exact hsolutions

/-- Every solution of a set of samples is decoded from a sample. -/
theorem exists_of_mem_decodeSamples {raw : SampleSet K} {solutions : List (Solution K)}
    (h : d.decodeSamples raw = .ok solutions) (hs : s ∈ solutions) :
    ∃ vector energy count, d.decodeSample vector energy count = .ok s := by
  unfold decodeSamples at h
  obtain ⟨_, _, h⟩ := bind_eq_ok.mp h
  obtain ⟨⟨vector, energy, count⟩, _, hok⟩ := exists_of_mapM_eq_ok h hs
  exact ⟨vector, energy, count, hok⟩

theorem decodes_of_mem (hd : d.Sound) {raw : SampleSet K} {solutions : List (Solution K)}
    (h : d.decodeSamples raw = .ok solutions) (hs : s ∈ solutions) :
    ∃ vector, d.Decodes vector s := by
  obtain ⟨vector, _, _, hok⟩ := exists_of_mem_decodeSamples h hs
  exact ⟨vector, decodes_of_ok hd hok⟩

/-- Samples that are decoded make a report. -/
theorem exists_decode {raw : SampleSet K} {solutions : List (Solution K)}
    (h : d.decodeSamples raw = .ok solutions) (options : DecodeOptions K) :
    ∃ report, d.decode raw options = .ok report := by
  unfold decode
  rw [h]
  exact ⟨_, rfl⟩

omit [Coefficient K] in
/-- What does not depend on the number of occurrences is kept by putting solutions together. -/
theorem forall_mem_distinct {P : Solution K → Prop} {solutions : List (Solution K)}
    (hoccurrences : ∀ s n, P s → P { s with occurrences := n }) (h : ∀ s ∈ solutions, P s) :
    ∀ s ∈ Solution.distinct solutions, P s := by
  have habsorb : ∀ s, P s → ∀ done : List (Solution K), (∀ t ∈ done, P t) →
      ∀ t ∈ Solution.absorb s done, P t := by
    intro s hs done hdone
    induction done with
    | nil => simpa [Solution.absorb] using hs
    | cons t rest ih =>
      obtain ⟨ht, hrest⟩ := List.forall_mem_cons.mp hdone
      unfold Solution.absorb
      split
      · exact List.forall_mem_cons.mpr ⟨hoccurrences t _ ht, hrest⟩
      · exact List.forall_mem_cons.mpr ⟨ht, ih hrest⟩
  exact List.foldlRecOn solutions (fun done s => Solution.absorb s done)
    (motive := fun done => ∀ t ∈ done, P t) (by simp)
    fun done hdone s hs => habsorb s (h s hs) done hdone

/-- Unless all solutions are asked for, those that are selected are valid. -/
theorem isValid_of_mem_select {options : DecodeOptions K} (hall : options.allSolutions = false)
    {ranked : List (Solution K)} (hs : s ∈ select options ranked) :
    s ∈ ranked ∧ s.isValid = true := by
  unfold select at hs
  simp only [hall, Bool.false_eq_true, if_false] at hs
  have hmem : s ∈ ranked.filter Solution.isValid := by
    split at hs
    · unfold Solution.lowest at hs
      split at hs
      · cases hs
      · exact List.mem_of_mem_filter hs
    · exact hs
  exact List.mem_filter.mp hmem

/-- What is selected is one of the solutions. -/
theorem mem_of_mem_select {options : DecodeOptions K} {ranked : List (Solution K)}
    (hs : s ∈ select options ranked) : s ∈ ranked := by
  cases hall : options.allSolutions with
  | true =>
    unfold select at hs
    rwa [hall, if_pos rfl] at hs
  | false => exact (isValid_of_mem_select hall hs).1

/-- What does not depend on the number of occurrences holds of every solution of a report if it
holds of every sample. -/
theorem forall_mem_report {P : Solution K → Prop}
    (hoccurrences : ∀ s n, P s → P { s with occurrences := n })
    (h : ∀ vector energy count s, d.decodeSample vector energy count = .ok s → P s)
    {raw : SampleSet K} {options : DecodeOptions K} {report : DecodeReport K}
    (hreport : d.decode raw options = .ok report) : ∀ s ∈ report.solutions, P s := by
  obtain ⟨solutions, hsamples, hreport⟩ := bind_eq_ok.mp hreport
  cases hreport
  refine forall_mem_distinct hoccurrences fun s hs => ?_
  have hmem : s ∈ solutions := List.mem_mergeSort.mp (mem_of_mem_select hs)
  obtain ⟨vector, energy, count, hs⟩ := exists_of_mem_decodeSamples hsamples hmem
  exact h vector energy count s hs

/-- Unless all solutions are asked for, those that are reported are valid, and each is read from a
vector. -/
theorem reported (hd : d.Sound) {raw : SampleSet K} {options : DecodeOptions K}
    {report : DecodeReport K} (hall : options.allSolutions = false)
    (h : d.decode raw options = .ok report) :
    ∀ s ∈ report.solutions, s.isValid = true ∧ ∃ vector, d.Decodes vector s := by
  unfold decode at h
  obtain ⟨solutions, hsamples, h⟩ := bind_eq_ok.mp h
  cases h
  refine forall_mem_distinct (fun s n hs => ?_) fun s hs => ?_
  · obtain ⟨hvalid, vector, hdecodes⟩ := hs
    exact ⟨hvalid, vector, hdecodes.withOccurrences n⟩
  · obtain ⟨hmem, hvalid⟩ := isValid_of_mem_select hall hs
    exact ⟨hvalid, decodes_of_mem hd hsamples (List.mem_mergeSort.mp hmem)⟩

/-- A valid solution that is alone is reported. -/
theorem reported_alone {energy : K} {occurrences : Nat} {options : DecodeOptions K}
    (hall : options.allSolutions = false) (hlowest : options.lowestOnly = false)
    (h : d.decodeSample vector energy occurrences = .ok s) (hvalid : s.isValid = true) :
    ∃ report, d.decode ⟨[vector], [energy], [occurrences], 0⟩ options = .ok report ∧
      report.solutions = [s] := by
  have hsamples : d.decodeSamples ⟨[vector], [energy], [occurrences], 0⟩ = .ok [s] := by
    unfold decodeSamples
    simp [SampleSet.check, Bind.bind, Except.bind, h, Pure.pure, Except.pure]
  unfold decode
  rw [hsamples]
  refine ⟨_, rfl, ?_⟩
  simp [Solution.rank, select, hall, hlowest, hvalid, Solution.distinct, Solution.absorb]

/-- A solution is reported for some samples when not all solutions are asked for. -/
def Reports (d : Decoder K) (s : Solution K) : Prop :=
  ∃ raw options report, options.allSolutions = false ∧ d.decode raw options = .ok report ∧
    s ∈ report.solutions

/-- An assignment that meets the pins and passes the assertions is reported for some samples. -/
theorem exists_reports (hd : d.Sound) {t : Assignment} (ht : t.IsOver d.model.symbols.size)
    (hpins : d.model.problem.MeetsPins t)
    (hpasses : ∀ e ∈ d.model.problem.assertions,
      (e.check fun name => (d.shown t name).map Spin.toBool).passed = true) :
    ∃ s, d.Reports s ∧ ∀ name, s.value name = d.shown t name := by
  obtain ⟨vector, hshows⟩ := hd.embedding.exists_vector ht.covers
  obtain ⟨s, hs⟩ := exists_decodeSample (d := d)
    (fun i hi q hq => (ht.covers i hi).imp fun spin hspin => (hshows i q hq).trans hspin) (0 : K) 1
  have hdecodes := decodes_of_ok hd hs
  have hread := hd.embedding.readout_eq ht hshows
  have hvalues : ∀ name, s.value name = d.shown t name := by
    intro name
    rw [hdecodes.values, hread]
  have hvalid : s.isValid = true := by
    rw [hdecodes.isValid_iff hd, hread, funext hvalues]
    exact ⟨ht.covers, hpins, hpasses⟩
  let options : DecodeOptions K := ⟨false, false, 0⟩
  obtain ⟨report, hreport, hsolutions⟩ :=
    reported_alone (show options.allSolutions = false from rfl) rfl hs hvalid
  refine ⟨s, ⟨_, _, report, rfl, hreport, ?_⟩, hvalues⟩
  rw [hsolutions]
  exact List.mem_singleton_self s

end Solutions

end Decoder

end SpinGlass

import SpinGlass.Proofs.Problem.Emitted
import SpinGlass.Proofs.Sample.Grouping
import SpinGlass.Proofs.Sample.Reading
import SpinGlass.Proofs.Sample.SolutionId
import SpinGlass.Proofs.Symbols.Reachable

/-!
# Solution numbers and values

The number of a solution spells the spins of the variables that have a name of the user, a broken
chain as a zero. Its values are the spins of the names of the user. So where the broken chains are
the same and can be told from their names, the numbers are the same exactly if the values are.
-/

namespace SpinGlass

/-- A variable is shown exactly if it has a name that is not generated. -/
theorem Symbols.isInternal_eq_false_iff {s : Symbols} {i : Nat} :
    s.isInternal i = false ↔ ∃ name, s.lookup? name = some i ∧ isInternalName name = false := by
  simp [isInternal, ← mem_namesOf]

namespace Decoder

variable {K : Type} {d : Decoder K} {vector vector' : Array Int} {spins spins' : Assignment}
  {broken broken' : List Nat} {s s' : Solution K} {i : Nat}

/-- No two variables are shown under one name. -/
def ShowsApart (d : Decoder K) : Prop :=
  ∀ i < d.model.symbols.size, ∀ k < d.model.symbols.size,
    d.displayName i = d.displayName k → i = k

/-- Where nothing is pending in a reachable table, no two variables are shown under one name. -/
theorem showsApart_of_reachable (h : d.model.symbols.Reachable)
    (hpending : d.model.symbols.pending = .empty) : d.ShowsApart := by
  have hshown : ∀ i < d.model.symbols.size,
      d.model.symbols.lookup? (d.displayName i) = some i := by
    intro i hi
    obtain ⟨hname, hlookup⟩ := Symbols.nameOf_eq_shown (h.exists_name hpending hi)
    unfold displayName
    rwa [hname]
  intro i hi k hk heq
  have hk := hshown k hk
  rw [← heq, hshown i hi] at hk
  exact Option.some.inj hk

/-- Two assignments have the same spins for the variables with a name of the user. -/
def AgreeShown (d : Decoder K) (spins spins' : Assignment) : Prop :=
  ∀ i < d.model.symbols.size, d.model.symbols.isInternal i = false → spins i = spins' i

section Broken

/-- A variable has no spin exactly if it has no chain or its chain is broken. -/
theorem Reads.eq_none_iff (h : d.Reads vector spins broken s) (hi : i < d.model.symbols.size) :
    spins i = none ↔ d.embedding.chain i = [] ∨ i ∈ broken := by
  constructor
  · intro hnone
    by_contra hneither
    obtain ⟨hchain, hbroken⟩ := not_or.mp hneither
    rw [h.broken_iff, and_iff_right hi, not_and_or, not_exists, not_exists] at hbroken
    have hread : ∃ spin : Spin, ∀ q ∈ d.embedding.chain i, vector[q]? = some spin.toInt := by
      rcases hbroken with hup | hdown
      · exact ⟨.down, fun q hq => (h.legible i hi q hq).resolve_left fun heq => hup q ⟨hq, heq⟩⟩
      · exact ⟨.up, fun q hq => (h.legible i hi q hq).resolve_right fun heq => hdown q ⟨hq, heq⟩⟩
    obtain ⟨spin, hspin⟩ := hread
    rw [(h.spins_iff i spin).mpr ⟨hi, hchain, hspin⟩] at hnone
    cases hnone
  · intro hnone
    by_contra hsome
    obtain ⟨spin, hspin⟩ := Option.ne_none_iff_exists'.mp hsome
    obtain ⟨_, hchain, hall⟩ := (h.spins_iff i spin).mp hspin
    rcases hnone with hnil | hbroken
    · exact hchain hnil
    · obtain ⟨_, ⟨q, hq, hup⟩, k, hk, hdown⟩ := (h.broken_iff i).mp hbroken
      rw [hall q hq] at hup
      rw [hall k hk, hup] at hdown
      cases hdown

/-- Solutions with the same broken chains have them for the same variables, where broken chains can
be told from their names or there are none. -/
theorem Reads.mem_broken_iff (h : d.Reads vector spins broken s)
    (h' : d.Reads vector' spins' broken' s') (hapart : d.ShowsApart ∨ s.brokenChains = [])
    (hbroken : s.brokenChains = s'.brokenChains) (hi : i < d.model.symbols.size) :
    i ∈ broken ↔ i ∈ broken' := by
  have hnames : broken.map d.displayName = broken'.map d.displayName := by
    rw [← h.brokenChains, ← h'.brokenChains, hbroken]
  rcases hapart with hapart | hnil
  · have hmem : ∀ {xs ys : List Nat}, xs.map d.displayName = ys.map d.displayName →
        (∀ k ∈ ys, k < d.model.symbols.size) → i ∈ xs → i ∈ ys := by
      intro xs ys hnames hys hmem
      have hname : d.displayName i ∈ ys.map d.displayName := hnames ▸ List.mem_map_of_mem hmem
      obtain ⟨k, hk, heq⟩ := List.mem_map.mp hname
      rwa [← hapart k (hys k hk) i hi heq]
    exact ⟨hmem hnames fun k hk => ((h'.broken_iff k).mp hk).1,
      hmem hnames.symm fun k hk => ((h.broken_iff k).mp hk).1⟩
  · rw [← h.brokenChains, hnil] at hnames
    rw [h.brokenChains, List.map_eq_nil_iff] at hnil
    rw [hnil, List.map_eq_nil_iff.mp hnames.symm]

/-- The same variables have no spin in solutions with the same broken chains. -/
theorem Reads.eq_none_iff_of_brokenChains (h : d.Reads vector spins broken s)
    (h' : d.Reads vector' spins' broken' s') (hapart : d.ShowsApart ∨ s.brokenChains = [])
    (hbroken : s.brokenChains = s'.brokenChains) (hi : i < d.model.symbols.size) :
    spins i = none ↔ spins' i = none := by
  rw [h.eq_none_iff hi, h'.eq_none_iff hi]
  exact or_congr_right (h.mem_broken_iff h' hapart hbroken hi)

end Broken

section Numbers

/-- The bits of two assignments are the same if the shown variables are up in the same. -/
theorem bits_eq_iff : d.bits spins = d.bits spins' ↔ ∀ i < d.model.symbols.size,
    d.model.symbols.isInternal i = false → (spins i = some .up ↔ spins' i = some .up) := by
  unfold bits
  simp only
  rw [List.append_left_inj, List.map_inj_left]
  simp only [List.mem_filter, List.mem_range, Bool.not_eq_true', and_imp]
  refine forall₃_congr fun i _ _ => ?_
  rw [Bool.eq_iff_iff, beq_iff_eq, beq_iff_eq]

/-- Solutions in which the same variables have no spin have one number exactly if they agree on the
shown variables. -/
theorem Reads.id_eq_iff (h : d.Reads vector spins broken s)
    (h' : d.Reads vector' spins' broken' s')
    (hnone : ∀ i < d.model.symbols.size, spins i = none ↔ spins' i = none) :
    s.id = s'.id ↔ d.AgreeShown spins spins' := by
  have hlength : (d.bits spins).length = (d.bits spins').length := by simp [bits]
  rw [h.id, h'.id, SolutionId.ofBits_inj hlength, bits_eq_iff]
  refine forall₃_congr fun i hi _ => ⟨fun hup => ?_, fun heq => by rw [heq]⟩
  have hnone := hnone i hi
  cases hspin : spins i with
  | none => exact (hnone.mp hspin).symm
  | some spin =>
    cases hspin' : spins' i with
    | none => simp [hnone.mpr hspin'] at hspin
    | some spin' => cases spin <;> cases spin' <;> simp_all

/-- Solutions that agree on the shown variables have the same values. -/
theorem Reads.values_eq (h : d.Reads vector spins broken s)
    (h' : d.Reads vector' spins' broken' s') (hagree : d.AgreeShown spins spins') :
    s.values = s'.values := by
  refine Table.ext_get? fun name => ?_
  rw [h.values, h'.values]
  split
  · rfl
  next huser =>
  cases hname : d.model.symbols.lookup? name with
  | none => rfl
  | some i =>
    have heq : spins i = spins' i := by
      by_cases hi : i < d.model.symbols.size
      · exact hagree i hi (Symbols.isInternal_eq_false_iff.mpr ⟨name, hname, by simpa using huser⟩)
      · have hnone : ∀ {vector spins broken s}, d.Reads vector spins broken s → spins i = none :=
          fun h => Option.eq_none_iff_forall_ne_some.mpr fun spin hspin =>
            hi ((h.spins_iff i spin).mp hspin).1
        rw [hnone h, hnone h']
    rw [Option.map_some, Option.map_some, heq]

/-- Where no name has both an index and a known value, solutions with the same values agree on the
shown variables. -/
theorem Reads.agreeShown_of_values (h : d.Reads vector spins broken s)
    (h' : d.Reads vector' spins' broken' s') (hapart : d.model.KnownApart)
    (hvalues : s.values = s'.values) : d.AgreeShown spins spins' := by
  intro i _ hinternal
  obtain ⟨name, hname, huser⟩ := Symbols.isInternal_eq_false_iff.mp hinternal
  obtain ⟨k, hk, _⟩ := Option.bind_eq_some_iff.mp hname
  have hknown := hapart name k hk
  have hget := h.values name
  rw [hvalues, h'.values name, hknown, hname] at hget
  simpa [huser] using hget.symm

end Numbers

section Reported

variable [Coefficient K] {raw : SampleSet K} {options : DecodeOptions K}
  {samples : List (Solution K)} {report : DecodeReport K}

omit [Coefficient K] in
/-- How often a vector was found is not read from it. -/
theorem Reads.withOccurrences (h : d.Reads vector spins broken s) (n : Nat) :
    d.Reads vector spins broken { s with occurrences := n } :=
  ⟨h.legible, h.spins_iff, h.increasing, h.broken_iff, h.brokenChains, h.sorted, h.brokenPins,
    h.values, h.id, h.assertions⟩

/-- Every sample that is decoded is read from a vector. -/
theorem exists_reads (h : d.decodeSamples raw = .ok samples) (hs : s ∈ samples) :
    ∃ vector spins broken, d.Reads vector spins broken s := by
  obtain ⟨_, hlegible, rfl⟩ := decodeSamples_eq_ok_iff.mp h
  obtain ⟨x, hx, rfl⟩ := List.mem_map.mp hs
  exact ⟨_, _, _, d.reads_decoded (hlegible _ (List.of_mem_zip hx).1) _ _⟩

/-- The solutions of a report are those that are selected, put together. -/
theorem solutions_of_decode (hsamples : d.decodeSamples raw = .ok samples)
    (h : d.decode raw options = .ok report) :
    report.solutions = Solution.distinct (select options (Solution.rank samples)) := by
  unfold decode at h
  rw [hsamples] at h
  cases h
  rfl

omit [Coefficient K] in
/-- Solutions with the same broken chains have one number exactly if they have the same values. -/
theorem Reads.sameId_iff (h : d.Reads vector spins broken s)
    (h' : d.Reads vector' spins' broken' s') (hshown : d.ShowsApart ∨ s.brokenChains = [])
    (hknown : d.model.KnownApart) (hbroken : s.brokenChains = s'.brokenChains) :
    s.id = s'.id ↔ s.values = s'.values := by
  rw [h.id_eq_iff h' fun i hi => h.eq_none_iff_of_brokenChains h' hshown hbroken hi]
  exact ⟨h.values_eq h', h.agreeShown_of_values h' hknown⟩

omit [Coefficient K] in
/-- Valid solutions have one key exactly if they have the same values. -/
theorem Reads.sameKey_iff (h : d.Reads vector spins broken s)
    (h' : d.Reads vector' spins' broken' s') (hknown : d.model.KnownApart)
    (hvalid : s.isValid = true) (hvalid' : s'.isValid = true) :
    s.key = s'.key ↔ s.values = s'.values := by
  obtain ⟨⟨hchains, hpins⟩, _⟩ := Solution.isValid_iff.mp hvalid
  obtain ⟨⟨hchains', hpins'⟩, _⟩ := Solution.isValid_iff.mp hvalid'
  rw [← h.sameId_iff h' (.inr hchains) hknown (hchains.trans hchains'.symm)]
  simp [Solution.key, hchains, hpins, hchains', hpins']

/-- Two samples with the same broken chains have one number exactly if they have the same values. So
unless all solutions are asked for, no two that are reported have the same values, and the
occurrences of each are those of the selected samples with its values. -/
theorem id_eq_iff_values_eq (hreachable : d.model.symbols.Reachable)
    (hpending : d.model.symbols.pending = .empty) (hknown : d.model.KnownApart) :
    (∀ (vector vector' : Array Int) (energy energy' : K) (n n' : Nat) (s s' : Solution K),
      d.decodeSample vector energy n = .ok s → d.decodeSample vector' energy' n' = .ok s' →
      s.brokenChains = s'.brokenChains → (s.id = s'.id ↔ s.values = s'.values)) ∧
    ∀ (raw : SampleSet K) (options : DecodeOptions K) (samples : List (Solution K))
      (report : DecodeReport K), options.allSolutions = false →
      d.decodeSamples raw = .ok samples → d.decode raw options = .ok report →
      (report.solutions.Pairwise fun s s' => s.values ≠ s'.values) ∧
      ∀ sol ∈ report.solutions, sol.occurrences = Solution.found
        ((select options (Solution.rank samples)).filter fun s => s.values = sol.values) := by
  constructor
  · intro vector vector' energy energy' n n' s s' hs hs'
    obtain ⟨hlegible, rfl⟩ := decodeSample_eq_ok_iff.mp hs
    obtain ⟨hlegible', rfl⟩ := decodeSample_eq_ok_iff.mp hs'
    exact (d.reads_decoded hlegible energy n).sameId_iff
      (d.reads_decoded hlegible' energy' n')
      (.inl (showsApart_of_reachable hreachable hpending)) hknown
  · intro raw options samples report hall hsamples h
    have hselected : ∀ s ∈ select options (Solution.rank samples), s.isValid = true ∧
        ∃ vector spins broken, d.Reads vector spins broken s := by
      intro s hs
      obtain ⟨hmem, hvalid⟩ := isValid_of_mem_select hall hs
      exact ⟨hvalid, exists_reads hsamples (List.mem_mergeSort.mp hmem)⟩
    have hgroups := Solution.groups_distinct (select options (Solution.rank samples))
    rw [← solutions_of_decode hsamples h] at hgroups
    have hreported : ∀ s ∈ report.solutions, s.isValid = true ∧
        ∃ vector spins broken, d.Reads vector spins broken s := by
      intro s hs
      obtain ⟨sample, hmem, heq⟩ := hgroups.sampled s hs
      obtain ⟨hvalid, vector, spins, broken, hreads⟩ := hselected sample hmem
      rw [heq]
      exact ⟨hvalid, vector, spins, broken, hreads.withOccurrences _⟩
    have hkey : ∀ s s' : Solution K, (s.isValid = true ∧
        ∃ vector spins broken, d.Reads vector spins broken s) → (s'.isValid = true ∧
        ∃ vector spins broken, d.Reads vector spins broken s') →
        (s.key = s'.key ↔ s.values = s'.values) := by
      rintro s s' ⟨hvalid, _, _, _, hreads⟩ ⟨hvalid', _, _, _, hreads'⟩
      exact hreads.sameKey_iff hreads' hknown hvalid hvalid'
    refine ⟨?_, fun sol hsol => ?_⟩
    · exact (List.pairwise_map.mp hgroups.nodup).imp_of_mem fun hs hs' hne hvalues =>
        hne ((hkey _ _ (hreported _ hs) (hreported _ hs')).mpr hvalues)
    · rw [hgroups.occurrences sol hsol]
      refine congrArg Solution.found (List.filter_congr fun s hs => ?_)
      rw [decide_eq_decide]
      exact hkey s sol (hselected s hs) (hreported sol hsol)

theorem reachable_pinnedPair : pinnedPair.model.symbols.Reachable := by
  have hA : (Symbols.empty.call (.intern "A")).Reachable := .call .empty trivial
  have hB : ((Symbols.empty.call (.intern "A")).call (.intern "B")).Reachable := .call hA trivial
  have hpin : (((Symbols.empty.call (.intern "A")).call (.intern "B")).call
    (.fresh "pin")).Reachable := .call hB trivial
  unfold pinnedPair
  simpa only [Symbols.call] using hpin

theorem pending_pinnedPair : pinnedPair.model.symbols.pending = .empty := by decide +kernel

/-- Two samples of `pinnedPair` that differ in the spin of `A` have different numbers, and so they
have different values. -/
theorem id_eq_iff_values_eq_pinnedPair :
    pinnedPair.model.symbols.Reachable ∧ pinnedPair.model.symbols.pending = .empty ∧
      pinnedPair.model.KnownApart ∧
      ∃ s s', pinnedPair.decodeSample #[-1, -1, 1, 1] (-5) 1 = .ok s ∧
        pinnedPair.decodeSample #[1, 1, 1, 1] (-2) 1 = .ok s' ∧
        s.brokenChains = s'.brokenChains ∧ s.id ≠ s'.id ∧ s.values ≠ s'.values := by
  have hknown : pinnedPair.model.KnownApart := by
    have hnone : ∀ e ∈ pinnedPair.model.symbols.byName.entries,
        pinnedPair.model.problem.knownValues.get? e.1 = none := by decide +kernel
    exact fun name i hi => hnone (name, i) (Table.get?_eq_some_iff.mp hi)
  have hlegible : ∀ vector ∈ [#[-1, -1, 1, 1], #[1, 1, 1, 1]], pinnedPair.Legible vector := by
    unfold Legible
    decide +kernel
  have hs := decodeSample_eq_ok_iff.mpr ⟨hlegible _ List.mem_cons_self,
    (rfl : pinnedPair.decoded #[-1, -1, 1, 1] (-5) 1 = _)⟩
  have hs' := decodeSample_eq_ok_iff.mpr ⟨hlegible _ (List.mem_cons_of_mem _ List.mem_cons_self),
    (rfl : pinnedPair.decoded #[1, 1, 1, 1] (-2) 1 = _)⟩
  have hbroken : (pinnedPair.decoded #[-1, -1, 1, 1] (-5) 1).brokenChains =
      (pinnedPair.decoded #[1, 1, 1, 1] (-2) 1).brokenChains := by decide +kernel
  have hid : (pinnedPair.decoded #[-1, -1, 1, 1] (-5) 1).id ≠
      (pinnedPair.decoded #[1, 1, 1, 1] (-2) 1).id := by decide +kernel
  have hiff := (id_eq_iff_values_eq reachable_pinnedPair pending_pinnedPair hknown).1
    _ _ _ _ _ _ _ _ hs hs' hbroken
  exact ⟨reachable_pinnedPair, pending_pinnedPair, hknown, _, _, hs, hs', hbroken, hid,
    mt hiff.mpr hid⟩

end Reported

end Decoder

end SpinGlass

import SpinGlass.Proofs.Problem.Emitted
import SpinGlass.Proofs.Simplify.Tethered

/-!
# Building an emitted program

The program of a problem binds the names of the variables that are no helpers and the known values
that are written. It asks of their values what the problem asks, and its objective is the energy of
the problem without the helpers, but for the constant term.
-/

namespace SpinGlass.Model

/-- A problem over spins with a name for every index, in which every variable is coupled or chained
to another, and the indices from `n` on are those of helpers. -/
structure Emittable (n : Nat) (m : Model ℚ) : Prop where
  indexed : m.Indexed
  knownApart : m.KnownApart
  mode : m.problem.mode = .ising
  helpers : m.HelpersFrom n
  named : m.symbols.Named
  alone : ∀ a b i, n ≤ i → m.symbols.byName.get? a = some i → m.symbols.byName.get? b = some i →
    a = b
  connected : m.disconnected = []

/-- The names that an emitted program binds: those of variables that are no helpers, and those of
known values that are not generated. -/
def Writes (n : Nat) (m : Model ℚ) (name : String) : Prop :=
  (∃ i < n, m.symbols.byName.get? name = some i) ∨
    (∃ spin, m.problem.knownValues.get? name = some spin) ∧ isInternalName name = false

/-- Values of the names that give all names of one index one value, and that meet the chains, the
pins of variables that are no helpers, and the known values whose names are not generated. -/
structure NamesMeet {K : Type} (m : Model K) (values : String → Spin) : Prop where
  agree : m.symbols.Agree values
  chains : m.problem.MeetsChains (m.symbols.spins values)
  pins : ∀ i spin, m.problem.pinned.get? i = some spin → m.problem.pinHelpers.get? i = none →
    m.symbols.spins values i = some spin
  known : ∀ name spin, m.problem.knownValues.get? name = some spin →
    isInternalName name = false → values name = spin

namespace Emittable

variable {n : Nat} {m : Model ℚ} (h : m.Emittable n)

include h

/-- A pair touches a helper exactly if its upper end is one. -/
theorem touches_eq_false_iff {q : Pair} (hq : q.Joins (· < m.symbols.size)) :
    (m.problem.pinHelpers.contains q.lo || m.problem.pinHelpers.contains q.hi) = false ↔
      q.hi < n := by
  rw [Bool.or_eq_false_iff, Table.contains_eq_false_iff, Table.contains_eq_false_iff,
    h.helpers.pinHelpers_eq_none_iff hq.2.1, h.helpers.pinHelpers_eq_none_iff hq.2.2]
  exact ⟨fun hlt => hlt.2, fun hlt => ⟨hq.1.trans hlt, hlt⟩⟩

theorem get?_strengths_withoutHelpers {q : Pair} {j : ℚ} :
    m.problem.withoutHelpers.strengths.get? q = some j ↔
      m.problem.strengths.get? q = some j ∧ q.hi < n := by
  simp only [Problem.withoutHelpers, Table.get?_filter, Option.filter_eq_some_iff,
    Bool.not_eq_true']
  exact and_congr_right fun hq => h.touches_eq_false_iff (h.indexed.isOver.strengths q j hq)

theorem get?_pinned_withoutHelpers {i : Nat} {spin : Spin} :
    m.problem.withoutHelpers.pinned.get? i = some spin ↔
      m.problem.pinned.get? i = some spin ∧ i < n := by
  simp only [Problem.withoutHelpers, Table.get?_filter, Option.filter_eq_some_iff,
    Bool.not_eq_true', Table.contains_eq_false_iff]
  exact and_congr_right fun hi =>
    h.helpers.pinHelpers_eq_none_iff (h.indexed.isOver.pinned i spin hi)

/-- No chain touches a helper, so none is left out. -/
theorem contains_chains_withoutHelpers {q : Pair} :
    m.problem.withoutHelpers.chains.contains q = true ↔ m.problem.chains.contains q = true := by
  simp only [Problem.withoutHelpers, KeySet.filter, Table.contains_iff, Table.get?_filter,
    Option.filter_eq_some_iff, Bool.not_eq_true']
  refine ⟨fun ⟨u, hu, _⟩ => ⟨u, hu⟩, fun ⟨u, hu⟩ => ⟨u, hu, ?_⟩⟩
  have hq := Table.contains_iff.mpr ⟨u, hu⟩
  exact (h.touches_eq_false_iff (h.indexed.isOver.chains q hq)).mpr (h.helpers.problem.chains q hq)

/-- The problem without helpers mentions allocated indices. -/
theorem over_withoutHelpers : m.problem.withoutHelpers.Over (· < m.symbols.size) where
  weights i w hi := by
    simp only [Problem.withoutHelpers, Table.get?_filter, Option.filter_eq_some_iff] at hi
    exact h.indexed.isOver.weights i w hi.1
  strengths q j hq := h.indexed.isOver.strengths q j (h.get?_strengths_withoutHelpers.mp hq).1
  chains q hq := h.indexed.isOver.chains q (h.contains_chains_withoutHelpers.mp hq)
  pinned i spin hi := h.indexed.isOver.pinned i spin (h.get?_pinned_withoutHelpers.mp hi).1
  helpers := h.indexed.isOver.helpers

/-- The terms that are left are those of variables that are no helpers. -/
theorem termsOver_withoutHelpers : m.problem.withoutHelpers.TermsOver (· < n) where
  weights i w hi := by
    simp only [Problem.withoutHelpers, Table.get?_filter, Option.filter_eq_some_iff,
      Bool.not_eq_true', Table.contains_eq_false_iff] at hi
    exact (h.helpers.pinHelpers_eq_none_iff (h.indexed.isOver.weights i w hi.1)).mp hi.2
  strengths q j hq := by
    obtain ⟨hget, hlt⟩ := h.get?_strengths_withoutHelpers.mp hq
    have hlo := (h.indexed.isOver.strengths q j hget).1
    exact ⟨hlo, hlo.trans hlt, hlt⟩

theorem lookup? (name : String) : m.symbols.lookup? name = m.symbols.byName.get? name :=
  h.indexed.plain.lookup? name

/-- An index is shown by one of its names. -/
theorem lookup?_shown {i : Nat} (hi : i < m.symbols.size) :
    m.symbols.lookup? (m.symbols.shown i) = some i := by
  obtain ⟨name, hname⟩ := h.named i hi
  exact (Symbols.nameOf_eq_shown ⟨name, (h.lookup? name).trans hname⟩).2

theorem writes_shown {i : Nat} (hi : i < n) (hsize : i < m.symbols.size) :
    m.Writes n (m.symbols.shown i) :=
  .inl ⟨i, hi, (h.lookup? _).symm.trans (h.lookup?_shown hsize)⟩

/-- The problem that is written has the constraints of the problem without helpers, whatever the
mode. -/
theorem sameConstraints_toMode (mode : Mode) : (m.problem.withoutHelpers.withoutTerms
    mode).SameConstraints (m.problem.withoutHelpers.toMode mode) :=
  (Problem.toMode_spec h.over_withoutHelpers mode).2

/-- The statements of a problem mention names that it writes. -/
theorem writes_of_mem_names {mode : Mode} {s : Statement ℚ} (hs : s ∈ m.emitted mode)
    {name : String} (hname : name ∈ s.names) : m.Writes n name := by
  have hsame := h.sameConstraints_toMode mode
  have hover := (Problem.toMode_spec h.over_withoutHelpers mode).1
  have hterms := h.termsOver_withoutHelpers.toMode h.mode mode
  cases mem_emitted.mp hs with
  | weight i w hi =>
    obtain rfl := List.mem_singleton.mp hname
    have hget := (Table.get?_nonzero.mp hi).1
    exact h.writes_shown (hterms.weights i w hget) (hover.weights i w hget)
  | strength q j hq =>
    have hget := (Table.get?_nonzero.mp hq).1
    obtain ⟨_, hlo, hhi⟩ := hterms.strengths q j hget
    obtain ⟨_, hlo', hhi'⟩ := hover.strengths q j hget
    rcases List.mem_pair.mp hname with rfl | rfl
    · exact h.writes_shown hlo hlo'
    · exact h.writes_shown hhi hhi'
  | chain q hq =>
    have hchain := h.contains_chains_withoutHelpers.mp (hsame.chains ▸ hq)
    have hhi := h.helpers.problem.chains q hchain
    obtain ⟨hlt, hlo', hhi'⟩ := h.indexed.isOver.chains q hchain
    rcases List.mem_pair.mp hname with rfl | rfl
    · exact h.writes_shown (hlt.trans hhi) hlo'
    · exact h.writes_shown hhi hhi'
  | otherName i other hi huser hother _ =>
    have hlt := (h.helpers.pinHelpers_eq_none_iff hi).mp (hsame.pinHelpers ▸ huser)
    rcases List.mem_pair.mp hname with rfl | rfl
    · exact h.writes_shown hlt hi
    · exact .inl ⟨i, hlt, (h.lookup? _).symm.trans hother⟩
  | pin i spin hi =>
    obtain rfl := List.mem_singleton.mp hname
    obtain ⟨hpin, hlt⟩ := h.get?_pinned_withoutHelpers.mp (hsame.pinned ▸ hi)
    exact h.writes_shown hlt (h.indexed.isOver.pinned i spin hpin)
  | known var spin hvar hword =>
    obtain rfl := List.mem_singleton.mp hname
    exact .inr ⟨⟨spin, hsame.knownValues ▸ hvar⟩, hword⟩
  | assert => cases hname

/-- Every variable is coupled or chained to another. -/
theorem exists_pair {i : Nat} (hi : i < m.symbols.size) : ∃ q : Pair, (i = q.lo ∨ i = q.hi) ∧
    ((∃ j, m.problem.strengths.get? q = some j ∧ j ≠ 0) ∨ m.problem.chains.contains q = true) := by
  by_contra hnone
  obtain ⟨name, hname⟩ := h.named i hi
  have hloose : name ∈ m.disconnected := by
    unfold disconnected
    rw [KeySet.mem_toList_iff, KeySet.contains_ofList_iff, List.mem_flatMap]
    refine ⟨i, List.mem_filter.mpr ⟨List.mem_range.mpr hi, ?_⟩,
      Symbols.mem_namesOf.mpr ((h.lookup? name).trans hname)⟩
    rw [Bool.not_eq_true', List.any_eq_false]
    intro q hq hcontains
    refine hnone ⟨q, ?_, ?_⟩
    · simp only [Pair.contains, Bool.or_eq_true, beq_iff_eq] at hcontains
      exact hcontains.imp Eq.symm Eq.symm
    · simpa only [List.mem_append, Table.mem_keys_iff, Table.get?_nonzero, KeySet.mem_toList_iff]
        using hq
  rw [h.connected] at hloose
  cases hloose

/-- The name that is shown for a variable occurs in its couplings and chains. If the variable is
coupled to helpers only, it is their user, and the name occurs in its pin. -/
theorem exists_mem_names_shown (mode : Mode) {i : Nat} (hi : i < n) (hsize : i < m.symbols.size) :
    ∃ s ∈ m.emitted mode, m.symbols.shown i ∈ s.names := by
  have hsame := h.sameConstraints_toMode mode
  obtain ⟨q, hends, ⟨j, hj, hne⟩ | hchain⟩ := h.exists_pair hsize
  · by_cases hhi : q.hi < n
    · obtain ⟨k, hk, hkne⟩ := Problem.exists_get?_toMode h.over_withoutHelpers h.mode
        (h.get?_strengths_withoutHelpers.mpr ⟨hj, hhi⟩) hne mode
      refine ⟨_, mem_emitted.mpr (.strength q k (Table.get?_nonzero.mpr ⟨hk, hkne⟩)),
        List.mem_pair.mpr ?_⟩
      exact hends.imp (congrArg _) (congrArg _)
    · -- the coupling is left out, but the pin of the user is not
      have hlo := h.helpers.problem.lo_of_le hj (Nat.not_lt.mp hhi)
      obtain ⟨_, _, spin, hspin⟩ := h.helpers.problem.helpers _ _ hlo.2
      obtain rfl : i = q.lo := hends.resolve_right (by omega)
      have hpin := h.get?_pinned_withoutHelpers.mpr ⟨hspin, hi⟩
      exact ⟨_, mem_emitted.mpr (.pin q.lo spin (hsame.pinned ▸ hpin)), List.mem_singleton_self _⟩
  · have hchain := h.contains_chains_withoutHelpers.mpr hchain
    refine ⟨_, mem_emitted.mpr (.chain q (hsame.chains ▸ hchain)), List.mem_pair.mpr ?_⟩
    exact hends.imp (congrArg _) (congrArg _)

/-- Every name that a problem writes occurs in its statements. -/
theorem exists_mem_names (mode : Mode) {name : String} (hname : m.Writes n name) :
    ∃ s ∈ m.emitted mode, name ∈ s.names := by
  have hsame := h.sameConstraints_toMode mode
  rcases hname with ⟨i, hi, hname⟩ | ⟨⟨spin, hspin⟩, hword⟩
  · have hsize := h.indexed.plain.lt_size name i hname
    by_cases hshown : name = m.symbols.shown i
    · rw [hshown]
      exact h.exists_mem_names_shown mode hi hsize
    · have huser := (h.helpers.pinHelpers_eq_none_iff hsize).mpr hi
      exact ⟨_, mem_emitted.mpr (.otherName i name hsize (hsame.pinHelpers ▸ huser)
        ((h.lookup? name).trans hname) hshown), List.mem_pair.mpr (.inr rfl)⟩
  · exact ⟨_, mem_emitted.mpr (.known name spin (hsame.knownValues ▸ hspin) hword),
      List.mem_singleton_self _⟩

/-- A shown name has the value of its index. -/
theorem spins_eq_shown {values : String → Spin} (hagree : m.symbols.Agree values) {i : Nat}
    (hi : i < m.symbols.size) :
    m.symbols.spins values i = some (values (m.symbols.shown i)) :=
  hagree.reads _ i (h.lookup?_shown hi)

/-- What the pins of the statements ask of the values of the names. -/
theorem forall_meetsPin_iff (mode : Mode) (values : String → Spin) :
    (∀ s ∈ m.emitted mode, s.MeetsPin fun name => some (values name)) ↔
      (∀ i spin, i < n → m.problem.pinned.get? i = some spin →
        values (m.symbols.shown i) = spin) ∧
      ∀ name spin, m.problem.knownValues.get? name = some spin →
        isInternalName name = false → values name = spin := by
  have hsame := h.sameConstraints_toMode mode
  have hmeets : ∀ var spin, (Statement.pin var spin.toBool : Statement ℚ).MeetsPin
      (fun name => some (values name)) ↔ values var = spin := by
    intro var spin
    cases spin <;> simp [Statement.MeetsPin, Spin.toBool, Spin.ofBool]
  constructor
  · intro hall
    refine ⟨fun i spin hi hpin => (hmeets _ _).mp (hall _ (mem_emitted.mpr ?_)),
      fun name spin hspin hword => (hmeets _ _).mp (hall _ (mem_emitted.mpr ?_))⟩
    · have hpin := h.get?_pinned_withoutHelpers.mpr ⟨hpin, hi⟩
      exact .pin i spin (hsame.pinned ▸ hpin)
    · exact .known name spin (hsame.knownValues ▸ hspin) hword
  · rintro ⟨hpins, hknown⟩ s hs
    cases mem_emitted.mp hs with
    | weight | strength | chain | otherName | assert => trivial
    | pin i spin hi =>
      obtain ⟨hpin, hlt⟩ := h.get?_pinned_withoutHelpers.mp (hsame.pinned ▸ hi)
      exact (hmeets _ _).mpr (hpins i spin hlt hpin)
    | known var spin hvar hword =>
      exact (hmeets _ _).mpr (hknown var spin (hsame.knownValues ▸ hvar) hword)

/-- What the chains of the statements ask of the values of the names. -/
theorem forall_meetsChain_iff (mode : Mode) (values : String → Spin) :
    (∀ s ∈ m.emitted mode, s.MeetsChain fun name => some (values name)) ↔
      (∀ q, m.problem.chains.contains q = true →
        values (m.symbols.shown q.lo) = values (m.symbols.shown q.hi)) ∧
      ∀ name i, i < n → m.symbols.lookup? name = some i →
        values (m.symbols.shown i) = values name := by
  have hsame := h.sameConstraints_toMode mode
  have hmeets : ∀ a b, (Statement.chain a b : Statement ℚ).MeetsChain
      (fun name => some (values name)) ↔ values a = values b := fun a b => Option.some_inj
  constructor
  · intro hall
    refine ⟨fun q hq => (hmeets _ _).mp (hall _ (mem_emitted.mpr ?_)),
      fun name i hi hname => ?_⟩
    · have hq := h.contains_chains_withoutHelpers.mpr hq
      exact .chain q (hsame.chains ▸ hq)
    · by_cases hshown : name = m.symbols.shown i
      · rw [← hshown]
      · have hsize := h.indexed.plain.lt_size name i ((h.lookup? name).symm.trans hname)
        have huser := (h.helpers.pinHelpers_eq_none_iff hsize).mpr hi
        exact (hmeets _ _).mp (hall _ (mem_emitted.mpr
          (.otherName i name hsize (hsame.pinHelpers ▸ huser) hname hshown)))
  · rintro ⟨hchains, hnames⟩ s hs
    cases mem_emitted.mp hs with
    | weight | strength | pin | known | assert => trivial
    | chain q hq =>
      have hchain := h.contains_chains_withoutHelpers.mp (hsame.chains ▸ hq)
      exact (hmeets _ _).mpr (hchains q hchain)
    | otherName i other hi huser hother _ =>
      have hlt := (h.helpers.pinHelpers_eq_none_iff hi).mp (hsame.pinHelpers ▸ huser)
      exact (hmeets _ _).mpr (hnames other i hlt hother)

/-- Values meet the pins and chains of the statements exactly if they meet what the problem asks. -/
theorem namesMeet_iff (mode : Mode) (values : String → Spin) : m.NamesMeet values ↔
    (∀ s ∈ m.emitted mode, s.MeetsPin fun name => some (values name)) ∧
      ∀ s ∈ m.emitted mode, s.MeetsChain fun name => some (values name) := by
  rw [h.forall_meetsPin_iff, h.forall_meetsChain_iff]
  constructor
  · intro hmeet
    refine ⟨⟨fun i spin hi hpin => ?_, hmeet.known⟩, fun q hq => ?_, fun name i hi hname => ?_⟩
    · have hsize := h.indexed.isOver.pinned i spin hpin
      have hspin := hmeet.pins i spin hpin ((h.helpers.pinHelpers_eq_none_iff hsize).mpr hi)
      exact Option.some.inj ((h.spins_eq_shown hmeet.agree hsize).symm.trans hspin)
    · obtain ⟨_, hlo, hhi⟩ := h.indexed.isOver.chains q hq
      have hspins := hmeet.chains q hq
      rwa [h.spins_eq_shown hmeet.agree hlo, h.spins_eq_shown hmeet.agree hhi, Option.some_inj]
        at hspins
    · have hsize := h.indexed.plain.lt_size name i ((h.lookup? name).symm.trans hname)
      exact hmeet.agree _ _ i (h.lookup?_shown hsize) hname
  · rintro ⟨⟨hpins, hknown⟩, hchains, hnames⟩
    have hagree : m.symbols.Agree values := by
      intro a b i ha hb
      by_cases hi : i < n
      · rw [← hnames a i hi ha, hnames b i hi hb]
      · rw [h.lookup?] at ha hb
        rw [h.alone a b i (Nat.not_lt.mp hi) ha hb]
    refine ⟨hagree, fun q hq => ?_, fun i spin hpin huser => ?_, hknown⟩
    · obtain ⟨_, hlo, hhi⟩ := h.indexed.isOver.chains q hq
      rw [h.spins_eq_shown hagree hlo, h.spins_eq_shown hagree hhi, hchains q hq]
    · have hsize := h.indexed.isOver.pinned i spin hpin
      have hlt := (h.helpers.pinHelpers_eq_none_iff hsize).mp huser
      rw [h.spins_eq_shown hagree hsize, hpins i spin hlt hpin]

/-- The pins of the statements can be met together. -/
theorem exists_forall_meetsPin (mode : Mode) : ∃ values : String → Spin,
    ∀ s ∈ m.emitted mode, s.MeetsPin fun name => some (values name) := by
  -- an index that is not pinned may have either spin
  let free : Assignment := fun i => some ((m.problem.pinned.get? i).getD .up)
  refine ⟨fun name => (m.spinOf free name).getD .up, (h.forall_meetsPin_iff mode _).mpr
    ⟨fun i spin _ hpin => ?_, fun name spin hspin _ => ?_⟩⟩
  · have hname := (h.lookup? _).symm.trans (h.lookup?_shown (h.indexed.isOver.pinned i spin hpin))
    simp only [spinOf_of_byName h.indexed.plain hname, free, hpin, Option.getD_some]
  · have hnone : m.symbols.byName.get? name = none := by
      refine Option.eq_none_iff_forall_ne_some.mpr fun i hi => ?_
      exact Option.some_ne_none spin (hspin.symm.trans (h.knownApart name i hi))
    simp only [spinOf_of_none h.indexed.plain hnone, hspin, Option.getD_some]

/-- If assertions mention written names only, the statements build. -/
theorem exists_build (mode : Mode)
    (hassertions : ∀ e ∈ m.problem.assertions, ∀ name ∈ e.names, m.Writes n name) :
    ∃ rebuilt, build (m.emitted mode) mode .empty = .ok rebuilt := by
  obtain ⟨values, hpins⟩ := h.exists_forall_meetsPin mode
  refine exists_build_eq_ok mode hpins fun e he name hname => ?_
  have hsame : _ = m.problem.assertions := (h.sameConstraints_toMode mode).assertions
  cases mem_emitted.mp he with
  | assert _ he => exact h.exists_mem_names mode (hassertions e (hsame ▸ he) name hname)

section Rebuilt

variable {mode : Mode} {rebuilt : Model ℚ}
  (hbuild : build (m.emitted mode) mode .empty = .ok rebuilt)

include hbuild

/-- The names of the rebuilt problem are those that were written. -/
theorem exists_lookup?_rebuilt_iff (name : String) :
    (∃ i, rebuilt.symbols.lookup? name = some i) ↔ m.Writes n name := by
  have hbuilds := builds_of_build hbuild
  simp only [hbuilds.built.plain.lookup?]
  constructor
  · rintro ⟨i, hi⟩
    obtain ⟨s, hs, hname⟩ := (hbuilds.only name i hi).resolve_right (by simp [Symbols.empty])
    exact h.writes_of_mem_names hs hname
  · intro hname
    obtain ⟨s, hs, hname⟩ := h.exists_mem_names mode hname
    exact hbuilds.named s hs name hname

omit h in
/-- The names of the statements have their values in the rebuilt problem. -/
theorem spinOf_rebuilt (values : String → Spin) {s : Statement ℚ} (hs : s ∈ m.emitted mode) :
    ∀ name ∈ s.names, rebuilt.symbols.spinOf (rebuilt.symbols.spins values) name =
      some (values name) := by
  have hbuilds := builds_of_build hbuild
  intro name hname
  obtain ⟨i, hi⟩ := hbuilds.named s hs name hname
  have hreads := (hbuilds.built.plain.agree hbuilds.built.apart values).reads
  exact hreads.spinOf ((hbuilds.built.plain.lookup? name).trans hi)

/-- Values meet the pins and chains of the rebuilt problem exactly if they meet what the problem
asks. -/
theorem meets_rebuilt_iff (values : String → Spin) :
    (rebuilt.problem.MeetsPins (rebuilt.symbols.spins values) ∧
      rebuilt.problem.MeetsChains (rebuilt.symbols.spins values)) ↔ m.NamesMeet values := by
  have hbuilds := builds_of_build hbuild
  have hpins : (Problem.empty mode : Problem ℚ).MeetsPins (rebuilt.symbols.spins values) :=
    fun i spin hi => by simp [Problem.empty] at hi
  have hchains : (Problem.empty mode : Problem ℚ).MeetsChains (rebuilt.symbols.spins values) :=
    fun q hq => by cases hq
  rw [h.namesMeet_iff mode values, hbuilds.meetsPins_iff, hbuilds.meetsChains_iff,
    and_iff_right hpins, and_iff_right hchains]
  exact and_congr
    (forall₂_congr fun s hs => Statement.meetsPin_congr (spinOf_rebuilt hbuild values hs))
    (forall₂_congr fun s hs => Statement.meetsChain_congr (spinOf_rebuilt hbuild values hs))

/-- The rebuilt problem has the energy of the problem without helpers, less the constant that a
program does not carry. -/
theorem energy_rebuilt {values : String → Spin} (hmeet : m.NamesMeet values) :
    rebuilt.problem.energy (rebuilt.symbols.spins values) =
      m.problem.withoutHelpers.energy (m.symbols.spins values) -
        (m.problem.withoutHelpers.toMode mode).offset := by
  have hbuilds := builds_of_build hbuild
  have hreads := (hbuilds.built.plain.agree hbuilds.built.apart values).reads
  have hover := (Problem.toMode_spec h.over_withoutHelpers mode).1
  have hmode : (m.problem.withoutHelpers.toMode mode).mode = mode :=
    (h.sameConstraints_toMode mode).mode
  have hcovers : (rebuilt.symbols.spins values).Covers rebuilt.symbols.size := by
    intro i hi
    obtain ⟨name, hname⟩ := named_of_build hbuild i hi
    exact ⟨_, hreads name i ((hbuilds.built.plain.lookup? name).trans hname)⟩
  have hvalue : ∀ i < m.symbols.size,
      (Coefficient.ofSpin? mode (some (values (m.symbols.shown i))) : ℚ) =
        Problem.value mode (m.symbols.spins values) i := by
    intro i hi
    rw [Problem.value_eq_ofSpin?, h.spins_eq_shown hmeet.agree hi]
  rw [energy_build hbuild hcovers, Program.objective_congr (g := fun name => some (values name))
      fun s hs => spinOf_rebuilt hbuild values hs,
    objective_emitted rfl, ← Problem.energy_toMode h.over_withoutHelpers
      (fun i hi => ⟨_, h.spins_eq_shown hmeet.agree hi⟩) mode, Problem.energy_eq_objective, hmode]
  congr 1
  refine Problem.objective_congr (fun i w hi => hvalue i (hover.weights i w hi)) fun q j hq => ?_
  obtain ⟨_, hlo, hhi⟩ := hover.strengths q j hq
  exact ⟨hvalue _ hlo, hvalue _ hhi⟩

end Rebuilt

end Emittable

end SpinGlass.Model

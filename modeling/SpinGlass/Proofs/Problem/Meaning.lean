import SpinGlass.Proofs.Problem.Buildable

/-!
# What a program means

A program is refused if it pins a name both ways, or else if it asserts something of a name that no
statement introduces. In every other case it is built, and what is built has the objective of the
program as its energy and asks what the program asks.
-/

namespace SpinGlass

namespace Program

variable {K : Type}

/-- A name that a program pins both ways. -/
def PinsBothWays (program : Program K) (name : String) : Prop :=
  .pin name true ∈ program ∧ .pin name false ∈ program

/-- A name of an assertion that no other kind of statement mentions. Assertions introduce no
names. -/
def LeavesUnbound (program : Program K) (e : Expr) (name : String) : Prop :=
  .assert e ∈ program ∧ name ∈ e.names ∧ ∀ s ∈ program, name ∉ s.names

/-- Spins that meet all pins are not those of a program that pins a name both ways. -/
theorem not_pinsBothWays {program : Program K} {spins : String → Option Spin}
    (h : ∀ s ∈ program, s.MeetsPin spins) (name : String) : ¬ program.PinsBothWays name := by
  rintro ⟨htrue, hfalse⟩
  have heq : some (Spin.ofBool true) = some (Spin.ofBool false) :=
    (h _ htrue).symm.trans (h _ hfalse)
  cases heq

end Program

namespace Model

section Refused

variable {K : Type} {m m' : Model K} {mode : Mode} {program : Program K}

/-- A pin is refused only if the name is pinned to the other spin. -/
theorem of_pin_eq_error {var : String} {spin : Spin} {e : BuildError}
    (h : m.pin var spin = .error e) : e = .conflictingPin var ∧ ∃ previous, previous ≠ spin ∧
      (m.intern var).2.problem.pinned.get? (m.intern var).1 = some previous := by
  unfold pin at h
  dsimp only at h
  split at h
  · next previous hprevious =>
    split at h
    · cases h
    · next hne =>
      cases h
      exact ⟨rfl, previous, hne, hprevious⟩
  · cases h

variable [Coefficient K]

/-- Only what a statement pins is pinned. -/
theorem Builds.exists_pin (h : (⟨.empty mode, .empty⟩ : Model K).Builds program mode m) {i : Nat}
    {spin : Spin} (hi : m.problem.pinned.get? i = some spin) :
    ∃ name, m.symbols.byName.get? name = some i ∧ .pin name spin.toBool ∈ program := by
  by_contra hnone
  -- if no statement asked for this spin, the other spin would meet all pins as well
  let spins : Assignment := fun k => if k = i then some (-spin) else m.problem.pinned.get? k
  have hmeets : m.problem.MeetsPins spins := by
    refine (h.meetsPins_iff spins).mpr ⟨by simp [Problem.MeetsPins, Problem.empty], fun s hs => ?_⟩
    have hpinned := ((h.meetsPins_iff _).mp m.problem.meetsPins_pinned).2 s hs
    cases s with
    | pin name value =>
      obtain ⟨k, hk⟩ := h.named _ hs name (List.mem_singleton_self name)
      simp only [Statement.MeetsPin, h.built.spinOf_eq hk] at hpinned ⊢
      have hne : k ≠ i := by
        rintro rfl
        obtain rfl : spin = .ofBool value := Option.some.inj (hi.symm.trans hpinned)
        exact hnone ⟨name, hk, (Spin.toBool_ofBool value).symm ▸ hs⟩
      simpa only [spins, if_neg hne] using hpinned
    | weight | strength | chain | assert => trivial
  have hother : some (-spin) = some spin := (if_pos rfl).symm.trans (hmeets i spin hi)
  cases spin <;> cases hother

/-- A pin that is refused after some statements is the second of two that contradict each other. -/
theorem pinsBothWays_of_error (hbuilds : (⟨.empty mode, .empty⟩ : Model K).Builds program mode m)
    {s : Statement K} {e : BuildError} (h : m.addStatement s = .error e) :
    ∃ name value, e = .conflictingPin name ∧ s = .pin name value ∧ .pin name (!value) ∈ program := by
  cases s with
  | pin var value =>
    have hpin : m.pin var (.ofBool value) = .error e := h
    obtain ⟨he, previous, hne, hprevious⟩ := of_pin_eq_error hpin
    obtain ⟨hbuilt, hgrows, hvar, hproblem⟩ := hbuilds.built.intern var
    rw [hproblem] at hprevious
    obtain ⟨name, hname, hearlier⟩ := hbuilds.exists_pin hprevious
    obtain rfl : name = var := hbuilt.apart name var _ (hgrows.byName name _ hname) hvar
    have hvalue : previous.toBool = !value := by
      cases previous <;> cases value <;> first | rfl | exact absurd rfl hne
    exact ⟨name, value, he, rfl, hvalue ▸ hearlier⟩
  | weight | strength | chain | assert => cases h

/-- Statements are refused one after the other only at a pin that contradicts an earlier one. -/
theorem pinsBothWays_of_foldlM {e : BuildError}
    (h : program.foldlM addStatement (⟨.empty mode, .empty⟩ : Model K) = .error e) :
    ∃ name, e = .conflictingPin name ∧ program.PinsBothWays name := by
  obtain ⟨done, s, rest, m, hprogram, hdone, hs⟩ := exists_of_foldlM_eq_error h
  obtain ⟨name, value, he, rfl, hother⟩ :=
    pinsBothWays_of_error (builds_of_foldlM (built_empty mode) hdone) hs
  have hmem : .pin name value ∈ program := by simp [hprogram]
  have hother : .pin name (!value) ∈ program := by simp [hprogram, hother]
  refine ⟨name, he, ?_⟩
  cases value with
  | true => exact ⟨hmem, hother⟩
  | false => exact ⟨hother, hmem⟩

/-- An assertion is refused for a name that has no index. -/
theorem of_checkAssertion_eq_error {symbols : Symbols} {e : Expr} {err : BuildError}
    (h : checkAssertion symbols e = .error err) :
    ∃ name ∈ e.names, symbols.lookup? name = none ∧ err = .unboundName name e.text := by
  unfold checkAssertion at h
  split at h
  · next name hfind =>
    cases h
    have hnone := List.find?_some hfind
    exact ⟨name, List.mem_of_find?_eq_some hfind, Option.isNone_iff_eq_none.mp hnone, rfl⟩
  · cases h

/-- Where the statements were added, the pins were met by what is pinned. -/
theorem Builds.not_pinsBothWays (h : (⟨.empty mode, .empty⟩ : Model K).Builds program mode m)
    (name : String) : ¬ program.PinsBothWays name :=
  Program.not_pinsBothWays ((h.meetsPins_iff _).mp m.problem.meetsPins_pinned).2 name

/-- A program that is refused pins a name both ways; or else it pins none, and it asserts something
of a name that no statement introduces. -/
theorem of_build_eq_error {err : BuildError} (h : build program mode .empty = .error err) :
    (∃ name, err = .conflictingPin name ∧ program.PinsBothWays name) ∨
      ∃ e name, err = .unboundName name e.text ∧ program.LeavesUnbound e name ∧
        ∀ name, ¬ program.PinsBothWays name := by
  unfold build at h
  rcases bind_eq_error.mp h with hfold | ⟨m, hfold, h⟩
  · exact .inl (pinsBothWays_of_foldlM hfold)
  have hbuilds := builds_of_foldlM (built_empty mode) hfold
  rcases bind_eq_error.mp h with hchecks | ⟨_, _, h⟩
  · obtain ⟨e, he, hcheck⟩ := exists_of_forM_eq_error hchecks
    obtain ⟨name, hname, hnone, herr⟩ := of_checkAssertion_eq_error hcheck
    refine .inr ⟨e, name, herr, ⟨hbuilds.mem_assertions.mp he, hname, fun s hs hmem => ?_⟩,
      hbuilds.not_pinsBothWays⟩
    obtain ⟨i, hi⟩ := hbuilds.named s hs name hmem
    rw [hbuilds.built.plain.lookup?, hi] at hnone
    cases hnone
  · cases h

/-- A program that is built pins no name both ways and leaves no name of an assertion unbound. -/
theorem not_refused_of_build (h : build program mode .empty = .ok m) :
    (∀ name, ¬ program.PinsBothWays name) ∧ ∀ e name, ¬ program.LeavesUnbound e name := by
  refine ⟨(builds_of_build h).not_pinsBothWays, fun e name ⟨he, hname, hunbound⟩ => ?_⟩
  obtain ⟨s, hs, hmem⟩ := exists_names_of_build h he name hname
  exact hunbound s hs hmem

end Refused

section Means

/-- A model that says what the statements of a program say: every name has an index, every choice of
spins for the names is one of spins for the indices, and under such a choice the energy is the
objective of the program, and the pins and chains are met if those of the program are. -/
structure Means (m : Model ℚ) (program : Program ℚ) (mode : Mode) : Prop where
  named : ∀ s ∈ program, ∀ name ∈ s.written, ∃ i, m.symbols.lookup? name = some i
  reads : ∀ values, m.symbols.Reads (m.symbols.spins values) values
  energy : ∀ spins values, m.symbols.Reads spins values →
    m.problem.energy spins = program.objective mode fun name => some (values name)
  constraints : ∀ spins values, m.symbols.Reads spins values →
    (m.problem.MeetsPins spins ∧ m.problem.MeetsChains spins ↔
      ∀ s ∈ program, s.MeetsPin (fun name => some (values name)) ∧
        s.MeetsChain fun name => some (values name))

variable {m : Model ℚ} {mode : Mode} {program : Program ℚ}

/-- What is built says what the statements say. -/
theorem means_of_build (h : build program mode .empty = .ok m) : m.Means program mode := by
  have hbuilds := builds_of_build h
  have hplain := hbuilds.built.plain
  have hlookup : ∀ s ∈ program, ∀ name ∈ s.names, ∃ i, m.symbols.lookup? name = some i := by
    intro s hs name hname
    obtain ⟨i, hi⟩ := hbuilds.named s hs name hname
    exact ⟨i, (hplain.lookup? name).trans hi⟩
  have hspins : ∀ {spins values}, m.symbols.Reads spins values → ∀ s ∈ program,
      ∀ name ∈ s.names, m.symbols.spinOf spins name = some (values name) := by
    intro spins values hreads s hs name hname
    obtain ⟨i, hi⟩ := hlookup s hs name hname
    exact hreads.spinOf hi
  refine ⟨fun s hs name hname => ?_, fun values => (hplain.agree hbuilds.built.apart values).reads,
    fun spins values hreads => ?_, fun spins values hreads => ?_⟩
  · cases s with
    | assert e =>
      obtain ⟨t, ht, hmem⟩ := exists_names_of_build h hs name hname
      exact hlookup t ht name hmem
    | weight | strength | chain | pin => exact hlookup _ hs name hname
  · have hcovers : spins.Covers m.symbols.size := by
      intro i hi
      obtain ⟨name, hname⟩ := named_of_build h i hi
      exact ⟨values name, hreads name i ((hplain.lookup? name).trans hname)⟩
    rw [energy_build h hcovers]
    exact Program.objective_congr (hspins hreads)
  · have hpins : (⟨.empty mode, .empty⟩ : Model ℚ).problem.MeetsPins spins := by
      simp [Problem.MeetsPins, Problem.empty]
    have hchains : (⟨.empty mode, .empty⟩ : Model ℚ).problem.MeetsChains spins := by
      simp [Problem.MeetsChains, Problem.empty, KeySet.contains_empty]
    rw [hbuilds.meetsPins_iff, hbuilds.meetsChains_iff, and_iff_right hpins,
      and_iff_right hchains, ← forall₂_and]
    exact forall₂_congr fun s hs => and_congr (Statement.meetsPin_congr (hspins hreads s hs))
      (Statement.meetsChain_congr (hspins hreads s hs))

/-- A program is refused for a pin exactly if it pins a name both ways, and for an assertion exactly
if it pins no name both ways and asserts something of a name that no other kind of statement
mentions. If neither is the case, it is built, and what is built says what the statements say. -/
theorem build_means (program : Program ℚ) (mode : Mode) :
    ((∃ name, build program mode .empty = .error (.conflictingPin name)) ↔
      ∃ name, program.PinsBothWays name) ∧
    ((∃ name text, build program mode .empty = .error (.unboundName name text)) ↔
      (¬ ∃ name, program.PinsBothWays name) ∧ ∃ e name, program.LeavesUnbound e name) ∧
    ((∃ name, program.PinsBothWays name) ∨ (∃ e name, program.LeavesUnbound e name) ∨
      ∃ m, build program mode .empty = .ok m ∧ m.Means program mode) := by
  cases hbuild : build program mode .empty with
  | error err =>
    rcases of_build_eq_error hbuild with ⟨name, rfl, hpinned⟩ | ⟨e, name, rfl, hunbound, hpins⟩
    · refine ⟨?_, ?_, .inl ⟨name, hpinned⟩⟩
      · exact iff_of_true ⟨name, rfl⟩ ⟨name, hpinned⟩
      · exact iff_of_false (by simp) fun h => h.1 ⟨name, hpinned⟩
    · have hnone : ¬ ∃ name, program.PinsBothWays name := not_exists.mpr hpins
      refine ⟨?_, ?_, .inr (.inl ⟨e, name, hunbound⟩)⟩
      · exact iff_of_false (by simp) hnone
      · exact iff_of_true ⟨name, e.text, rfl⟩ ⟨hnone, e, name, hunbound⟩
  | ok m =>
    obtain ⟨hpins, hbound⟩ := not_refused_of_build hbuild
    refine ⟨?_, ?_, .inr (.inr ⟨m, rfl, means_of_build hbuild⟩)⟩
    · exact iff_of_false (by simp) (not_exists.mpr hpins)
    · exact iff_of_false (by simp) fun ⟨_, e, name, hunbound⟩ => hbound e name hunbound

end Means

end Model

end SpinGlass

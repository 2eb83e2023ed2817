import SpinGlass.Proofs.Problem.Build

/-!
# Programs that can be built

Values of the names give spins to the indices. If some values meet all pins of a program, no two of
its pins contradict each other, so the program is built unless an assertion mentions a name that no
statement introduces.
-/

namespace SpinGlass

namespace Symbols

/-- The spins that values of the names give to the indices; an index has the value of its first
name. -/
def spins (s : Symbols) (values : String → Spin) : Assignment := fun i =>
  (s.namesOf i).head?.map values

/-- All names of one index have one value. -/
def Agree (s : Symbols) (values : String → Spin) : Prop :=
  ∀ a b i, s.lookup? a = some i → s.lookup? b = some i → values a = values b

/-- The indices have the values of their names. -/
def Reads (s : Symbols) (spins : Assignment) (values : String → Spin) : Prop :=
  ∀ name i, s.lookup? name = some i → spins i = some (values name)

variable {s : Symbols} {values : String → Spin} {spins : Assignment}

/-- Where names of one index have one value, the indices have the values of their names. -/
theorem Agree.reads (h : s.Agree values) : s.Reads (s.spins values) values := by
  intro name i hname
  have hmem := mem_namesOf.mpr hname
  cases hnames : s.namesOf i with
  | nil => simp [hnames] at hmem
  | cons first rest =>
    have hfirst := mem_namesOf.mp (hnames ▸ List.mem_cons_self : first ∈ s.namesOf i)
    unfold Symbols.spins
    rw [hnames, List.head?_cons, Option.map_some, h first name i hfirst hname]

/-- If no two names lead to one index, names of one index have one value. -/
theorem Plain.agree (hplain : s.Plain) (h : s.Apart) (values : String → Spin) :
    s.Agree values := by
  intro a b i ha hb
  rw [hplain.lookup?] at ha hb
  rw [h a b i ha hb]

/-- A name has its value. -/
theorem Reads.spinOf (h : s.Reads spins values) {name : String} {i : Nat}
    (hname : s.lookup? name = some i) : s.spinOf spins name = some (values name) := by
  unfold Symbols.spinOf
  rw [hname]
  exact h name i hname

/-- What reads the names of a later table reads those of an earlier one. -/
theorem Reads.of_extends {s' : Symbols} (h : s'.Reads spins values) (hs : s.Plain)
    (hs' : s'.Plain) (hgrows : s.Extends s') : s.Reads spins values := by
  intro name i hname
  rw [hs.lookup?] at hname
  exact h name i (by rw [hs'.lookup?, hgrows.byName name i hname])

end Symbols

namespace Model

variable {K : Type} {m m' : Model K} {mode : Mode} {values : String → Spin}

/-- Whatever has the values of the names meets the pins. -/
def PinsHold (m : Model K) (values : String → Spin) : Prop :=
  ∀ spins, m.symbols.Reads spins values → m.problem.MeetsPins spins

/-- A pin that the values meet contradicts no pin that they meet. -/
theorem exists_pin_eq_ok (h : m.Built mode) (hpins : m.PinsHold values) {var : String}
    {spin : Spin} (hvalue : values var = spin) : ∃ next, m.pin var spin = .ok next := by
  obtain ⟨hbuilt, hgrows, hname, hproblem⟩ := h.intern var
  have hreads := (hbuilt.plain.agree hbuilt.apart values).reads
  have hmeets := hpins _ (hreads.of_extends h.plain hbuilt.plain hgrows)
  have hspin := hreads var (m.intern var).1 ((hbuilt.plain.lookup? var).trans hname)
  unfold pin
  dsimp only
  split
  · next previous hprevious =>
    rw [hproblem] at hprevious
    have heq : previous = spin := by
      rw [← hvalue, ← Option.some.injEq, ← hspin]
      exact (hmeets _ _ hprevious).symm
    rw [if_pos heq]
    exact ⟨_, rfl⟩
  · exact ⟨_, rfl⟩

variable [Coefficient K]

/-- A statement whose pin the values meet can be added, and the values meet all pins again. -/
theorem exists_addStatement_eq_ok (h : m.Built mode) (hpins : m.PinsHold values)
    {s : Statement K} (hs : s.MeetsPin fun name => some (values name)) :
    ∃ next, m.addStatement s = .ok next ∧ m.Added s mode next ∧ next.PinsHold values := by
  have hok : ∃ next, m.addStatement s = .ok next := by
    cases s with
    | pin var value => exact exists_pin_eq_ok h hpins (Option.some.inj hs)
    | weight var w => exact ⟨_, rfl⟩
    | strength a b j => exact ⟨_, rfl⟩
    | chain a b => exact ⟨_, rfl⟩
    | assert e => exact ⟨_, rfl⟩
  obtain ⟨next, hnext⟩ := hok
  have hadded := added_of_ok h hnext
  refine ⟨next, hnext, hadded, fun spins hreads => (hadded.meetsPins_iff spins).mpr ⟨?_, ?_⟩⟩
  · exact hpins spins (hreads.of_extends h.plain hadded.built.plain hadded.grows)
  · refine (Statement.meetsPin_congr fun name hname => ?_).mpr hs
    obtain ⟨i, hi⟩ := hadded.named name hname
    exact hreads.spinOf ((hadded.built.plain.lookup? name).trans hi)

/-- Statements whose pins the values meet can be added one after the other. -/
theorem exists_foldlM_addStatement {program : Program K} (h : m.Built mode)
    (hpins : m.PinsHold values)
    (hprogram : ∀ s ∈ program, s.MeetsPin fun name => some (values name)) :
    ∃ next, program.foldlM addStatement m = .ok next := by
  induction program generalizing m with
  | nil => exact ⟨m, rfl⟩
  | cons s rest ih =>
    obtain ⟨hs, hrest⟩ := List.forall_mem_cons.mp hprogram
    obtain ⟨next, hfirst, hadded, hnext⟩ := exists_addStatement_eq_ok h hpins hs
    obtain ⟨last, hlast⟩ := ih hadded.built hnext hrest
    exact ⟨last, foldlM_cons_eq_ok.mpr ⟨next, hfirst, hlast⟩⟩

/-- A program whose pins can be met together, and whose assertions mention names of its statements
only, is built. -/
theorem exists_build_eq_ok {program : Program K} (mode : Mode)
    (hpins : ∀ s ∈ program, s.MeetsPin fun name => some (values name))
    (hassertions : ∀ e, .assert e ∈ program → ∀ name ∈ e.names,
      ∃ s ∈ program, name ∈ s.names) :
    ∃ m, build program mode .empty = .ok m := by
  have hstart : (⟨.empty mode, .empty⟩ : Model K).PinsHold values := by
    intro spins _ i spin hi
    simp [Problem.empty] at hi
  obtain ⟨m, hfold⟩ := exists_foldlM_addStatement (built_empty mode) hstart hpins
  have hbuilds := builds_of_foldlM (built_empty mode) hfold
  refine ⟨m, bind_eq_ok.mpr ⟨m, hfold, bind_eq_ok.mpr ⟨(), forM_eq_ok.mpr fun e he => ?_, rfl⟩⟩⟩
  unfold checkAssertion
  split
  · next name hfind =>
    obtain ⟨s, hs, hname⟩ :=
      hassertions e (hbuilds.mem_assertions.mp he) name (List.mem_of_find?_eq_some hfind)
    obtain ⟨i, hi⟩ := hbuilds.named s hs name hname
    have hfound := List.find?_some hfind
    simp [hbuilds.built.plain.lookup?, hi] at hfound
  · rfl

/-- Adding a statement interns its names. -/
theorem symbols_addStatement {s : Statement K} (h : m.addStatement s = .ok m') :
    m'.symbols = s.names.foldl (fun t name => (t.intern name).2) m.symbols := by
  cases s with
  | weight var w =>
    cases h
    rfl
  | strength a b j =>
    cases h
    rfl
  | chain a b =>
    cases h
    unfold chain
    dsimp only
    split <;> rfl
  | pin var value =>
    have hpin : m.pin var (.ofBool value) = .ok m' := h
    unfold pin at hpin
    dsimp only at hpin
    split at hpin
    · split at hpin
      · cases hpin
        rfl
      · cases hpin
    · cases hpin
      rfl
  | assert e =>
    cases h
    rfl

/-- Every index of a built problem has a name. -/
theorem named_of_build {program : Program K} (h : build program mode .empty = .ok m) :
    m.symbols.Named := by
  have hkept : m.symbols.Plain ∧ m.symbols.Named := by
    refine holds_of_foldlM (motive := fun m : Model K => m.symbols.Plain ∧ m.symbols.Named)
      ⟨Symbols.plain_empty, Symbols.named_empty⟩ (fun m hm s _ next hnext => ?_)
      (foldlM_of_build h)
    rw [symbols_addStatement hnext]
    exact List.foldlRecOn s.names _ (motive := fun t : Symbols => t.Plain ∧ t.Named) hm
      fun t ht name _ => ⟨(ht.1.intern name).1, ht.2.intern ht.1 name⟩
  exact hkept.2

end Model

end SpinGlass

import SpinGlass.Problem.Build
import SpinGlass.Proofs.Problem.Indices
import SpinGlass.Proofs.Success
import SpinGlass.Proofs.Symbols.Intern

/-!
# What a program asks for

A statement adds a term to the objective, or it asks something of the spins of its names. A problem
that is built from a program has the terms of the program as its energy, and its pins and chains are
those of the program, read through the indices of the names.
-/

namespace SpinGlass

namespace Statement

variable {K : Type}

/-- The names of a statement that get an index. -/
def names : Statement K → List String
  | weight var _ => [var]
  | strength a b _ => [a, b]
  | chain a b => [a, b]
  | pin var _ => [var]
  | assert _ => []

/-- The assertion of a statement, if it is one. -/
def assertion? : Statement K → Option Expr
  | assert e => some e
  | _ => none

/-- The names that are written in a statement. -/
def written : Statement K → List String
  | assert e => e.names
  | s => s.names

theorem mem_written (s : Statement K) {name : String} (h : name ∈ s.names) : name ∈ s.written := by
  cases s with
  | assert => cases h
  | weight | strength | chain | pin => exact h

/-- What a pin asks of the spins of names. -/
def MeetsPin (spins : String → Option Spin) : Statement K → Prop
  | pin var value => spins var = some (.ofBool value)
  | _ => True

/-- What a chain asks of the spins of names. -/
def MeetsChain (spins : String → Option Spin) : Statement K → Prop
  | chain a b => spins a = spins b
  | _ => True

/-- What a weight or a strength adds to the objective; a name without a spin counts as zero. -/
def objective (mode : Mode) (spins : String → Option Spin) : Statement ℚ → ℚ
  | weight var w => w * Coefficient.ofSpin? mode (spins var)
  | strength a b j => j * Coefficient.ofSpin? mode (spins a) * Coefficient.ofSpin? mode (spins b)
  | _ => 0

/-- What a pin asks depends on the spin of its name. -/
theorem meetsPin_congr {f g : String → Option Spin} {s : Statement K}
    (h : ∀ name ∈ s.names, f name = g name) : s.MeetsPin f ↔ s.MeetsPin g := by
  cases s <;> simp_all [names, MeetsPin]

/-- What a chain asks depends on the spins of its names. -/
theorem meetsChain_congr {f g : String → Option Spin} {s : Statement K}
    (h : ∀ name ∈ s.names, f name = g name) : s.MeetsChain f ↔ s.MeetsChain g := by
  cases s <;> simp_all [names, MeetsChain]

/-- What a statement adds depends on the spins of its names. -/
theorem objective_congr {f g : String → Option Spin} {mode : Mode} {s : Statement ℚ}
    (h : ∀ name ∈ s.names, f name = g name) : s.objective mode f = s.objective mode g := by
  cases s <;> simp_all [names, objective]

end Statement

/-- The objective of a program: the sum of its weights and strengths. -/
def Program.objective (program : Program ℚ) (mode : Mode) (spins : String → Option Spin) : ℚ :=
  (program.map fun s => s.objective mode spins).sum

/-- The objective of a program depends on the spins of its names. -/
theorem Program.objective_congr {f g : String → Option Spin} {mode : Mode} {program : Program ℚ}
    (h : ∀ s ∈ program, ∀ name ∈ s.names, f name = g name) :
    program.objective mode f = program.objective mode g := by
  unfold objective
  rw [List.map_congr_left fun s hs => Statement.objective_congr (h s hs)]

/-- The spin of a name under an assignment of the indices. -/
def Symbols.spinOf (s : Symbols) (spins : Assignment) (name : String) : Option Spin :=
  (s.lookup? name).bind spins

/-- A name keeps its spin in a later table. -/
theorem Symbols.Extends.spinOf_eq {s s' : Symbols} (h : s.Extends s') (hs : s.Plain)
    (hs' : s'.Plain) {name : String} (hname : ∃ i, s.byName.get? name = some i)
    (spins : Assignment) : s'.spinOf spins name = s.spinOf spins name := by
  obtain ⟨i, hi⟩ := hname
  unfold Symbols.spinOf
  rw [hs.lookup?, hs'.lookup?, hi, h.byName name i hi]

namespace Model

section Built

variable {K : Type}

/-- A model under construction: no links, no known values and no helpers. -/
structure Built (m : Model K) (mode : Mode) : Prop where
  plain : m.symbols.Plain
  apart : m.symbols.Apart
  isOver : m.problem.Over (· < m.symbols.size)
  mode : m.problem.mode = mode
  knownValues : m.problem.knownValues = .empty
  pinHelpers : m.problem.pinHelpers = .empty

variable {m m' : Model K} {mode : Mode}

/-- A name of a model under construction gets an index, and the problem stays. -/
theorem Built.intern (h : m.Built mode) (name : String) :
    (m.intern name).2.Built mode ∧ m.symbols.Extends (m.intern name).2.symbols ∧
      (m.intern name).2.symbols.byName.get? name = some (m.intern name).1 ∧
      (m.intern name).2.problem = m.problem := by
  obtain ⟨hplain, hextends, hname⟩ := h.plain.intern name
  refine ⟨⟨hplain, h.apart.intern h.plain name, ?_, h.mode, h.knownValues, h.pinHelpers⟩, hextends,
    hname, rfl⟩
  exact h.isOver.mono fun i hi => Nat.lt_of_lt_of_le hi hextends.size_le

/-- A named index has the spin of its name. -/
theorem Built.spinOf_eq (h : m.Built mode) {name : String} {i : Nat}
    (hname : m.symbols.byName.get? name = some i) (spins : Assignment) :
    m.symbols.spinOf spins name = spins i := by
  unfold Symbols.spinOf
  rw [h.plain.lookup?, hname]
  rfl

/-- What adding a statement does to a model under construction. -/
structure Added (m : Model K) (s : Statement K) (mode : Mode) (m' : Model K) : Prop where
  built : m'.Built mode
  grows : m.symbols.Extends m'.symbols
  named : ∀ name ∈ s.names, ∃ i, m'.symbols.byName.get? name = some i
  only : ∀ name i, m'.symbols.byName.get? name = some i →
    name ∈ s.names ∨ m.symbols.byName.get? name = some i
  assertions : m'.problem.assertions = m.problem.assertions ++ s.assertion?.toList
  meetsPins_iff : ∀ spins : Assignment, m'.problem.MeetsPins spins ↔
    m.problem.MeetsPins spins ∧ s.MeetsPin (m'.symbols.spinOf spins)
  meetsChains_iff : ∀ spins : Assignment, m'.problem.MeetsChains spins ↔
    m.problem.MeetsChains spins ∧ s.MeetsChain (m'.symbols.spinOf spins)

/-- Interning two names adds no other name. -/
theorem names_intern_intern {a b name : String} {i : Nat}
    (h : ((m.intern a).2.intern b).2.symbols.byName.get? name = some i) :
    name ∈ [a, b] ∨ m.symbols.byName.get? name = some i := by
  rcases Symbols.names_intern h with rfl | h
  · simp
  · rcases Symbols.names_intern h with rfl | h
    · simp
    · exact .inr h

/-- An assertion is kept for later. -/
theorem added_assert (h : m.Built mode) (e : Expr) :
    m.Added (.assert e) mode
      (m.mapProblem fun p => { p with assertions := p.assertions ++ [e] }) := by
  refine ⟨⟨h.plain, h.apart, ?_, h.mode, h.knownValues, h.pinHelpers⟩, .refl _,
    by simp [Statement.names], fun name i hi => .inr hi, rfl,
    fun spins => iff_of_eq (and_true _).symm, fun spins => iff_of_eq (and_true _).symm⟩
  exact ⟨h.isOver.weights, h.isOver.strengths, h.isOver.chains, h.isOver.pinned, h.isOver.helpers⟩

/-- A chain asks one spin of both names. -/
theorem added_chain (h : m.Built mode) (a b : String) :
    m.Added (.chain a b) mode (m.chain a b) := by
  obtain ⟨hbuilt₁, hgrows₁, hname₁, hproblem₁⟩ := h.intern a
  obtain ⟨hbuilt, hgrows, hname, hproblem⟩ := hbuilt₁.intern b
  have hname₁ := hgrows.byName _ _ hname₁
  have honly : ∀ name i, ((m.intern a).2.intern b).2.symbols.byName.get? name = some i →
      name ∈ (Statement.chain a b : Statement K).names ∨ m.symbols.byName.get? name = some i :=
    fun _ _ hi => names_intern_intern hi
  have hchain : m.chain a b =
      if (m.intern a).1 = ((m.intern a).2.intern b).1 then ((m.intern a).2.intern b).2
      else ((m.intern a).2.intern b).2.mapProblem fun p => { p with
        chains := KeySet.insert p.chains (.of (m.intern a).1 ((m.intern a).2.intern b).1) } := rfl
  rw [hchain]
  generalize (m.intern a).1 = i at *
  generalize (m.intern a).2 = m₁ at *
  generalize (m₁.intern b).1 = k at *
  generalize (m₁.intern b).2 = m₂ at *
  have hnamed : ∀ name ∈ (Statement.chain a b : Statement K).names,
      ∃ i, m₂.symbols.byName.get? name = some i := by
    simpa [Statement.names] using ⟨⟨_, hname₁⟩, ⟨_, hname⟩⟩
  have hspins : ∀ spins : Assignment,
      (Statement.chain a b : Statement K).MeetsChain (m₂.symbols.spinOf spins) ↔
        spins i = spins k := by
    intro spins
    simp only [Statement.MeetsChain, hbuilt.spinOf_eq hname₁, hbuilt.spinOf_eq hname]
  rw [hproblem₁] at hproblem
  by_cases hik : i = k
  · simp only [if_pos hik]
    refine ⟨hbuilt, hgrows₁.trans hgrows, hnamed, honly, ?_, fun spins => ?_, fun spins => ?_⟩
    · simp [Statement.assertion?, hproblem]
    · rw [hproblem]
      exact iff_of_eq (and_true _).symm
    · rw [hspins, hproblem, hik]
      simp
  · simp only [if_neg hik]
    refine ⟨⟨hbuilt.plain, hbuilt.apart, ?_, hbuilt.mode, hbuilt.knownValues, hbuilt.pinHelpers⟩,
      hgrows₁.trans hgrows, hnamed, honly, ?_, fun spins => ?_, fun spins => ?_⟩
    · exact hbuilt.isOver.insertChain hik (hbuilt.plain.lt_size _ _ hname₁)
        (hbuilt.plain.lt_size _ _ hname)
    · simp [Statement.assertion?, mapProblem, hproblem]
    · rw [← hproblem]
      exact iff_of_eq (and_true _).symm
    · rw [← hproblem]
      exact (Problem.meetsChains_insertChain _ i k spins).trans
        (and_congr_right' (hspins spins).symm)

/-- A pin that is accepted asks its spin of the name. -/
theorem added_pin (h : m.Built mode) {var : String} {value : Bool}
    (hok : m.pin var (.ofBool value) = .ok m') : m.Added (.pin var value) mode m' := by
  obtain ⟨hbuilt, hgrows, hname, hproblem⟩ := h.intern var
  have honly : ∀ name i, (m.intern var).2.symbols.byName.get? name = some i →
      name ∈ [var] ∨ m.symbols.byName.get? name = some i :=
    fun _ _ hi => (Symbols.names_intern hi).imp_left List.mem_singleton.mpr
  unfold pin at hok
  dsimp only at hok
  generalize (m.intern var).1 = i at *
  generalize (m.intern var).2 = m₁ at *
  have hnamed : ∀ name ∈ (Statement.pin var value : Statement K).names,
      ∃ i, m₁.symbols.byName.get? name = some i := by
    simpa [Statement.names] using ⟨_, hname⟩
  have hspins : ∀ spins : Assignment,
      (Statement.pin var value : Statement K).MeetsPin (m₁.symbols.spinOf spins) ↔
        spins i = some (.ofBool value) := by
    intro spins
    simp only [Statement.MeetsPin, hbuilt.spinOf_eq hname]
  cases hpinned : m₁.problem.pinned.get? i with
  | some previous =>
    simp only [hpinned] at hok
    split at hok
    · next heq =>
      cases hok
      refine ⟨hbuilt, hgrows, hnamed, honly, ?_, fun spins => ?_, fun spins => ?_⟩
      · simp [Statement.assertion?, hproblem]
      · rw [hspins, ← hproblem]
        exact ⟨fun hmeets => ⟨hmeets, heq ▸ hmeets i previous hpinned⟩, fun hmeets => hmeets.1⟩
      · rw [hproblem]
        exact iff_of_eq (and_true _).symm
    · cases hok
  | none =>
    simp only [hpinned] at hok
    cases hok
    refine ⟨⟨hbuilt.plain, hbuilt.apart, ?_, hbuilt.mode, hbuilt.knownValues, hbuilt.pinHelpers⟩,
      hgrows, hnamed, honly, ?_, fun spins => ?_, fun spins => ?_⟩
    · exact hbuilt.isOver.insertPin (hbuilt.plain.lt_size _ _ hname) _
    · simp [Statement.assertion?, mapProblem, hproblem]
    · rw [← hproblem]
      exact (Problem.meetsPins_insertPin hpinned _ spins).trans
        (and_congr_right' (hspins spins).symm)
    · rw [← hproblem]
      exact iff_of_eq (and_true _).symm

variable [Coefficient K]

theorem built_empty (mode : Mode) : (⟨.empty mode, .empty⟩ : Model K).Built mode := by
  exact ⟨Symbols.plain_empty, by simp [Symbols.Apart, Symbols.empty], Problem.over_empty mode, rfl,
    rfl, rfl⟩

/-- A weight adds a linear term and nothing else. -/
theorem added_weight (h : m.Built mode) (var : String) (w : K) :
    m.Added (.weight var w) mode
      ((m.intern var).2.mapProblem (·.addWeight (m.intern var).1 w)) := by
  obtain ⟨hbuilt, hgrows, hname, hproblem⟩ := h.intern var
  refine ⟨⟨hbuilt.plain, hbuilt.apart, ?_, hbuilt.mode, hbuilt.knownValues, hbuilt.pinHelpers⟩,
    hgrows, ?_, fun name i hi => ?_, ?_, fun spins => ?_, fun spins => ?_⟩
  · exact hbuilt.isOver.addWeight (hbuilt.plain.lt_size _ _ hname) w
  · simpa [Statement.names] using ⟨_, hname⟩
  · exact (Symbols.names_intern hi).imp_left List.mem_singleton.mpr
  · simp [Statement.assertion?, mapProblem, Problem.addWeight, hproblem]
  · rw [← hproblem]
    exact iff_of_eq (and_true _).symm
  · rw [← hproblem]
    exact iff_of_eq (and_true _).symm

/-- A strength adds a quadratic term and nothing else. -/
theorem added_strength (h : m.Built mode) (a b : String) (j : K) :
    m.Added (.strength a b j) mode
      (((m.intern a).2.intern b).2.mapProblem
        (·.addStrength (m.intern a).1 ((m.intern a).2.intern b).1 j)) := by
  obtain ⟨hbuilt₁, hgrows₁, hname₁, hproblem₁⟩ := h.intern a
  obtain ⟨hbuilt, hgrows, hname, hproblem⟩ := hbuilt₁.intern b
  have hname₁ := hgrows.byName _ _ hname₁
  have honly : ∀ name i, ((m.intern a).2.intern b).2.symbols.byName.get? name = some i →
      name ∈ (Statement.strength a b j).names ∨ m.symbols.byName.get? name = some i :=
    fun _ _ hi => names_intern_intern hi
  generalize (m.intern a).1 = i at *
  generalize (m.intern a).2 = m₁ at *
  have hsame := Problem.sameConstraints_addStrength (m₁.intern b).2.problem i (m₁.intern b).1 j
  refine ⟨⟨hbuilt.plain, hbuilt.apart, ?_, hsame.mode.trans hbuilt.mode,
    hsame.knownValues.trans hbuilt.knownValues, hsame.pinHelpers.trans hbuilt.pinHelpers⟩,
    hgrows₁.trans hgrows, ?_, honly, ?_, fun spins => ?_, fun spins => ?_⟩
  · exact hbuilt.isOver.addStrength (hbuilt.plain.lt_size _ _ hname₁)
      (hbuilt.plain.lt_size _ _ hname) j
  · simpa [Statement.names] using ⟨⟨_, hname₁⟩, ⟨_, hname⟩⟩
  · simp only [Statement.assertion?, Option.toList_none, List.append_nil, ← hproblem₁, ← hproblem]
    exact hsame.assertions
  · simp only [Statement.MeetsPin, and_true, ← hproblem₁, ← hproblem]
    unfold Problem.MeetsPins
    simp only [mapProblem, hsame.pinned]
  · simp only [Statement.MeetsChain, and_true, ← hproblem₁, ← hproblem]
    unfold Problem.MeetsChains
    simp only [mapProblem, hsame.chains]

/-- Adding a statement keeps a model under construction, and asks what the statement asks. -/
theorem added_of_ok (h : m.Built mode) {s : Statement K} (hok : m.addStatement s = .ok m') :
    m.Added s mode m' := by
  cases s with
  | weight var w =>
    cases hok
    exact added_weight h var w
  | strength a b j =>
    cases hok
    exact added_strength h a b j
  | chain a b =>
    cases hok
    exact added_chain h a b
  | pin var value => exact added_pin h hok
  | assert e =>
    cases hok
    exact added_assert h e

/-- What adding statements one after the other does to a model under construction. -/
structure Builds (start : Model K) (program : Program K) (mode : Mode) (m : Model K) : Prop where
  built : m.Built mode
  grows : start.symbols.Extends m.symbols
  named : ∀ s ∈ program, ∀ name ∈ s.names, ∃ i, m.symbols.byName.get? name = some i
  only : ∀ name i, m.symbols.byName.get? name = some i →
    (∃ s ∈ program, name ∈ s.names) ∨ start.symbols.byName.get? name = some i
  assertions : m.problem.assertions = start.problem.assertions ++ program.filterMap (·.assertion?)
  meetsPins_iff : ∀ spins : Assignment, m.problem.MeetsPins spins ↔
    start.problem.MeetsPins spins ∧ ∀ s ∈ program, s.MeetsPin (m.symbols.spinOf spins)
  meetsChains_iff : ∀ spins : Assignment, m.problem.MeetsChains spins ↔
    start.problem.MeetsChains spins ∧ ∀ s ∈ program, s.MeetsChain (m.symbols.spinOf spins)

/-- Adding statements one after the other asks for all that they ask. -/
theorem builds_of_foldlM {start : Model K} {program : Program K} (h : start.Built mode)
    (hok : program.foldlM addStatement start = .ok m) : start.Builds program mode m := by
  induction program generalizing start with
  | nil =>
    cases hok
    exact ⟨h, .refl _, by simp, fun name i hi => .inr hi, by simp, by simp, by simp⟩
  | cons s rest ih =>
    obtain ⟨next, hfirst, hok⟩ := foldlM_cons_eq_ok.mp hok
    have hadded := added_of_ok h hfirst
    have hrest := ih hadded.built hok
    have hnamed : ∀ name ∈ s.names, ∃ i, m.symbols.byName.get? name = some i := by
      intro name hname
      obtain ⟨i, hi⟩ := hadded.named name hname
      exact ⟨i, hrest.grows.byName name i hi⟩
    have hspins : ∀ spins : Assignment, ∀ name ∈ s.names,
        next.symbols.spinOf spins name = m.symbols.spinOf spins name := fun spins name hname =>
      (hrest.grows.spinOf_eq hadded.built.plain hrest.built.plain (hadded.named name hname)
        spins).symm
    refine ⟨hrest.built, hadded.grows.trans hrest.grows, ?_, fun name i hi => ?_, ?_,
      fun spins => ?_, fun spins => ?_⟩
    · intro s' hs'
      rcases List.mem_cons.mp hs' with rfl | hs'
      · exact hnamed
      · exact hrest.named s' hs'
    · rcases hrest.only name i hi with ⟨s', hs', hmem⟩ | hi
      · exact .inl ⟨s', List.mem_cons_of_mem _ hs', hmem⟩
      · exact (hadded.only name i hi).imp_left fun hmem => ⟨s, List.mem_cons_self, hmem⟩
    · rw [hrest.assertions, hadded.assertions, List.append_assoc]
      congr 1
      cases hassertion : s.assertion? <;> simp [hassertion]
    · rw [hrest.meetsPins_iff, hadded.meetsPins_iff, Statement.meetsPin_congr (hspins spins),
        List.forall_mem_cons, and_assoc]
    · rw [hrest.meetsChains_iff, hadded.meetsChains_iff,
        Statement.meetsChain_congr (hspins spins), List.forall_mem_cons, and_assoc]

/-- A build adds the statements to an empty model. -/
theorem foldlM_of_build {program : Program K} (h : build program mode .empty = .ok m) :
    program.foldlM addStatement (⟨.empty mode, .empty⟩ : Model K) = .ok m := by
  unfold build at h
  obtain ⟨next, hfold, h⟩ := bind_eq_ok.mp h
  obtain ⟨_, _, h⟩ := bind_eq_ok.mp h
  cases h
  exact hfold

/-- A problem that is built from a program asks for what the program asks. -/
theorem builds_of_build {program : Program K} (h : build program mode .empty = .ok m) :
    (⟨.empty mode, .empty⟩ : Model K).Builds program mode m :=
  builds_of_foldlM (built_empty mode) (foldlM_of_build h)

/-- The assertions of a built problem are those of the program. -/
theorem Builds.mem_assertions {program : Program K}
    (h : (⟨.empty mode, .empty⟩ : Model K).Builds program mode m) {e : Expr} :
    e ∈ m.problem.assertions ↔ .assert e ∈ program := by
  rw [h.assertions]
  simp only [Problem.empty, List.nil_append, List.mem_filterMap]
  constructor
  · rintro ⟨s, hs, heq⟩
    cases s with
    | assert e' =>
      cases heq
      exact hs
    | weight | strength | chain | pin => cases heq
  · exact fun he => ⟨_, he, rfl⟩

/-- The names of an assertion that is checked have an index. -/
theorem exists_lookup?_of_checkAssertion {symbols : Symbols} {e : Expr}
    (h : checkAssertion symbols e = .ok ()) :
    ∀ name ∈ e.names, ∃ i, symbols.lookup? name = some i := by
  unfold checkAssertion at h
  split at h
  · cases h
  · next hnone =>
    intro name hname
    refine Option.ne_none_iff_exists'.mp ?_
    simpa using List.find?_eq_none.mp hnone name hname

/-- The names of the assertions of a program are introduced by its statements. -/
theorem exists_names_of_build {program : Program K} (h : build program mode .empty = .ok m)
    {e : Expr} (he : .assert e ∈ program) :
    ∀ name ∈ e.names, ∃ s ∈ program, name ∈ s.names := by
  have hbuilds := builds_of_build h
  have hassertion : e ∈ m.problem.assertions := hbuilds.mem_assertions.mpr he
  unfold build at h
  obtain ⟨next, _, h⟩ := bind_eq_ok.mp h
  obtain ⟨_, hchecks, h⟩ := bind_eq_ok.mp h
  cases h
  intro name hname
  obtain ⟨i, hi⟩ :=
    exists_lookup?_of_checkAssertion (forM_eq_ok.mp hchecks e hassertion) name hname
  rw [hbuilds.built.plain.lookup?] at hi
  refine (hbuilds.only name i hi).resolve_right ?_
  simp [Symbols.empty]

end Built

section Energy

variable {m m' : Model ℚ} {mode : Mode} {spins : Assignment}

/-- A named variable has the value of its name. -/
theorem Built.value_eq (h : m.Built mode) {name : String} {i : Nat}
    (hname : m.symbols.byName.get? name = some i) :
    (Problem.value mode spins i : ℚ) = Coefficient.ofSpin? mode (m.symbols.spinOf spins name) := by
  rw [h.spinOf_eq hname, Problem.value_eq_ofSpin?]

theorem energy_added_weight (h : m.Built mode) (var : String) (w : ℚ) (spins : Assignment) :
    ((m.intern var).2.mapProblem (·.addWeight (m.intern var).1 w)).problem.energy spins =
      m.problem.energy spins +
        w * Coefficient.ofSpin? mode ((m.intern var).2.symbols.spinOf spins var) := by
  obtain ⟨hbuilt, _, hname, hproblem⟩ := h.intern var
  rw [← hbuilt.value_eq hname, ← hbuilt.mode, ← hproblem]
  exact Problem.energy_addWeight _ _ _ _

theorem energy_added_strength (h : m.Built mode) (a b : String) (j : ℚ)
    (hcovers : spins.Covers ((m.intern a).2.intern b).2.symbols.size) :
    (((m.intern a).2.intern b).2.mapProblem
        (·.addStrength (m.intern a).1 ((m.intern a).2.intern b).1 j)).problem.energy spins =
      m.problem.energy spins +
        j * Coefficient.ofSpin? mode (((m.intern a).2.intern b).2.symbols.spinOf spins a) *
          Coefficient.ofSpin? mode (((m.intern a).2.intern b).2.symbols.spinOf spins b) := by
  obtain ⟨hbuilt₁, _, hname₁, hproblem₁⟩ := h.intern a
  obtain ⟨hbuilt, hgrows, hname, hproblem⟩ := hbuilt₁.intern b
  have hname₁ := hgrows.byName _ _ hname₁
  rw [← hbuilt.value_eq hname₁, ← hbuilt.value_eq hname, ← hbuilt.mode, ← hproblem₁, ← hproblem]
  exact Problem.energy_addStrength _ _ _ _ (hcovers _ (hbuilt.plain.lt_size _ _ hname₁))

theorem energy_chain (m : Model ℚ) (a b : String) (spins : Assignment) :
    (m.chain a b).problem.energy spins = m.problem.energy spins := by
  unfold chain
  dsimp only
  split <;> rfl

theorem energy_pin {var : String} {spin : Spin} (hok : m.pin var spin = .ok m')
    (spins : Assignment) : m'.problem.energy spins = m.problem.energy spins := by
  unfold pin at hok
  dsimp only at hok
  split at hok
  · split at hok
    · cases hok
      rfl
    · cases hok
  · cases hok
    rfl

/-- Adding a statement adds its objective to the energy. -/
theorem energy_addStatement (h : m.Built mode) {s : Statement ℚ} (hok : m.addStatement s = .ok m')
    (hcovers : spins.Covers m'.symbols.size) :
    m'.problem.energy spins =
      m.problem.energy spins + s.objective mode (m'.symbols.spinOf spins) := by
  cases s with
  | weight var w =>
    have hm' : (m.intern var).2.mapProblem (·.addWeight (m.intern var).1 w) = m' :=
      Except.ok.inj hok
    rw [← hm']
    exact energy_added_weight h var w spins
  | strength a b j =>
    have hm' : ((m.intern a).2.intern b).2.mapProblem
        (·.addStrength (m.intern a).1 ((m.intern a).2.intern b).1 j) = m' := Except.ok.inj hok
    rw [← hm'] at hcovers ⊢
    exact energy_added_strength h a b j hcovers
  | chain a b =>
    have hm' : m.chain a b = m' := Except.ok.inj hok
    rw [← hm', energy_chain]
    exact (add_zero _).symm
  | pin var value =>
    rw [energy_pin hok]
    exact (add_zero _).symm
  | assert e =>
    have hm' : (m.mapProblem fun p => { p with assertions := p.assertions ++ [e] }) = m' :=
      Except.ok.inj hok
    rw [← hm']
    exact (add_zero _).symm

/-- Adding statements one after the other adds their objectives. -/
theorem energy_foldlM {start : Model ℚ} {program : Program ℚ} (h : start.Built mode)
    (hok : program.foldlM addStatement start = .ok m) (hcovers : spins.Covers m.symbols.size) :
    m.problem.energy spins =
      start.problem.energy spins + program.objective mode (m.symbols.spinOf spins) := by
  induction program generalizing start with
  | nil =>
    cases hok
    exact (add_zero _).symm
  | cons s rest ih =>
    obtain ⟨next, hfirst, hok⟩ := foldlM_cons_eq_ok.mp hok
    have hadded := added_of_ok h hfirst
    have hrest := builds_of_foldlM hadded.built hok
    have hobjective : s.objective mode (next.symbols.spinOf spins) =
        s.objective mode (m.symbols.spinOf spins) :=
      Statement.objective_congr fun name hname => (hrest.grows.spinOf_eq hadded.built.plain
        hrest.built.plain (hadded.named name hname) spins).symm
    have hnext : spins.Covers next.symbols.size := fun i hi =>
      hcovers i (Nat.lt_of_lt_of_le hi hrest.grows.size_le)
    rw [ih hadded.built hok, energy_addStatement h hfirst hnext, hobjective]
    simp [Program.objective, add_assoc]

/-- The energy of a problem that is built from a program is the objective of the program. -/
theorem energy_build {program : Program ℚ} (h : build program mode .empty = .ok m)
    (hcovers : spins.Covers m.symbols.size) :
    m.problem.energy spins = program.objective mode (m.symbols.spinOf spins) := by
  rw [energy_foldlM (built_empty mode) (foldlM_of_build h) hcovers, Problem.energy_eq_objective]
  simp [Problem.objective, Problem.empty]

end Energy

end Model

end SpinGlass

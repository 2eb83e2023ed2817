import SpinGlass.Problem.Statements
import SpinGlass.Proofs.Problem.Bits
import SpinGlass.Proofs.Problem.Buildable

/-!
# The program of a problem

If every index has a name, a problem can be written as a program. Its statements are the terms of
the problem in the mode asked for, its chains and pins, a chain for each further name of an index,
and a pin for each known value.
-/

namespace SpinGlass

/-- The name to show for an index, or the empty text for an index without a name. -/
def Symbols.shown (s : Symbols) (i : Nat) : String := (s.nameOf i).toOption.getD ""

/-- An index with a name is shown by one of its names. -/
theorem Symbols.nameOf_eq_shown {s : Symbols} {i : Nat} (h : ∃ name, s.lookup? name = some i) :
    s.nameOf i = .ok (s.shown i) ∧ s.lookup? (s.shown i) = some i := by
  obtain ⟨name, hname⟩ := h
  have hmem := mem_namesOf.mpr hname
  have hchoice : ∃ first, ((s.namesOf i).find? fun n => !isInternalName n).or
      (s.namesOf i).head? = some first ∧ first ∈ s.namesOf i := by
    cases hfind : (s.namesOf i).find? fun n => !isInternalName n with
    | some first => exact ⟨first, rfl, List.mem_of_find?_eq_some hfind⟩
    | none => exact ⟨_, List.head?_eq_some_head (List.ne_nil_of_mem hmem), List.head_mem _⟩
  obtain ⟨first, hfirst, hfirstMem⟩ := hchoice
  have hname : s.nameOf i = .ok first := by
    unfold nameOf
    simp only [hfirst]
  have hshown : s.shown i = first := by
    unfold shown
    rw [hname]
    rfl
  exact ⟨by rw [hname, hshown], by rw [hshown]; exact mem_namesOf.mp hfirstMem⟩

/-- An entry that is not zero is stored. -/
theorem Table.get?_of_mem_nonzero {α K : Type} [Ord α] [Std.LawfulEqOrd α] [Coefficient K]
    {t : Table α K} {e : α × K} (he : e ∈ t.nonzero.entries) : t.get? e.1 = some e.2 := by
  have hget := Table.get?_eq_some_iff.mpr he
  rw [Table.nonzero, Table.get?_filter, Option.filter_eq_some_iff] at hget
  exact hget.1

/-- What is made of the entries of a table is made of its lookups. -/
theorem Table.mem_map_entries {α β γ : Type} [Ord α] [Std.LawfulEqOrd α] {t : Table α β}
    {f : α × β → γ} {c : γ} :
    c ∈ t.entries.map f ↔ ∃ a b, t.get? a = some b ∧ c = f (a, b) := by
  simp only [List.mem_map, Prod.exists, get?_eq_some_iff, eq_comm (a := c)]

namespace Model

section Statements

variable {K : Type} [Coefficient K]

/-- The statements of a problem, with the names that are shown for its indices. -/
def emitted (m : Model K) (mode : Mode) : Program K :=
  let name := m.symbols.shown
  let p := m.problem.withoutHelpers.toMode mode
  p.weights.nonzero.entries.map (fun e => .weight (name e.1) e.2) ++
    p.strengths.nonzero.entries.map (fun e => .strength (name e.1.lo) (name e.1.hi) e.2) ++
    (KeySet.toList p.chains).map (fun q => .chain (name q.lo) (name q.hi)) ++
    (((List.range m.symbols.size).filter fun i => !p.pinHelpers.contains i).map fun i =>
      ((m.symbols.namesOf i).filter (· != name i)).map (.chain (name i) ·)).flatten ++
    p.pinned.entries.map (fun e => .pin (name e.1) e.2.toBool) ++
    (p.knownValues.entries.filter fun e => !isInternalName e.1).map
      (fun e => .pin e.1 e.2.toBool) ++
    p.assertions.map .assert

/-- A problem over named indices is written as its statements. -/
theorem statements_eq_emitted {m : Model K} (mode : Mode)
    (hover : m.problem.withoutHelpers.Over (· < m.symbols.size))
    (hnamed : ∀ i < m.symbols.size, ∃ name, m.symbols.lookup? name = some i) :
    m.statements mode = .ok (m.emitted mode) := by
  have hname : ∀ i < m.symbols.size, m.symbols.nameOf i = .ok (m.symbols.shown i) := fun i hi =>
    (Symbols.nameOf_eq_shown (hnamed i hi)).1
  obtain ⟨hp, _⟩ := Problem.toMode_spec hover mode
  unfold statements
  refine bind_eq_ok.mpr ⟨_, mapM_eq_ok_map fun e he => ?_, bind_eq_ok.mpr
    ⟨_, mapM_eq_ok_map fun e he => ?_, bind_eq_ok.mpr ⟨_, mapM_eq_ok_map fun q hq => ?_,
      bind_eq_ok.mpr ⟨_, mapM_eq_ok_map fun i hi => ?_, bind_eq_ok.mpr
        ⟨_, mapM_eq_ok_map fun e he => ?_, rfl⟩⟩⟩⟩⟩
  · simp only [hname _ (hp.weights _ _ (Table.get?_of_mem_nonzero he))]
    rfl
  · obtain ⟨_, hlo, hhi⟩ := hp.strengths _ _ (Table.get?_of_mem_nonzero he)
    simp only [hname _ hlo, hname _ hhi]
    rfl
  · obtain ⟨_, hlo, hhi⟩ := hp.chains q (KeySet.mem_toList_iff.mp hq)
    simp only [hname _ hlo, hname _ hhi]
    rfl
  · unfold nameChains
    rw [hname i (List.mem_range.mp (List.mem_filter.mp hi).1)]
    rfl
  · simp only [hname _ (hp.pinned _ _ (Table.get?_eq_some_iff.mpr he))]
    rfl

/-- The statements that a problem over named indices is written as, kind by kind. -/
inductive Emits (symbols : Symbols) (p : Problem K) : Statement K → Prop
  | weight (i w) : p.weights.nonzero.get? i = some w → Emits symbols p (.weight (symbols.shown i) w)
  | strength (q j) : p.strengths.nonzero.get? q = some j →
      Emits symbols p (.strength (symbols.shown q.lo) (symbols.shown q.hi) j)
  | chain (q) : p.chains.contains q = true →
      Emits symbols p (.chain (symbols.shown q.lo) (symbols.shown q.hi))
  | otherName (i name) : i < symbols.size → p.pinHelpers.get? i = none →
      symbols.lookup? name = some i → name ≠ symbols.shown i →
      Emits symbols p (.chain (symbols.shown i) name)
  | pin (i spin) : p.pinned.get? i = some spin →
      Emits symbols p (.pin (symbols.shown i) spin.toBool)
  | known (name spin) : p.knownValues.get? name = some spin → isInternalName name = false →
      Emits symbols p (.pin name spin.toBool)
  | assert (e) : e ∈ p.assertions → Emits symbols p (.assert e)

omit [Coefficient K] in
/-- The chains of names are those from the shown name of a variable to its other names. -/
theorem mem_nameChains {symbols : Symbols} {p : Problem K} {s : Statement K} :
    s ∈ (((List.range symbols.size).filter fun i => !p.pinHelpers.contains i).map fun i =>
      ((symbols.namesOf i).filter (· != symbols.shown i)).map
        (Statement.chain (symbols.shown i) ·)).flatten ↔
    ∃ i name, i < symbols.size ∧ p.pinHelpers.get? i = none ∧ symbols.lookup? name = some i ∧
      name ≠ symbols.shown i ∧ s = .chain (symbols.shown i) name := by
  constructor
  · intro hs
    obtain ⟨chains, hchains, hs⟩ := List.mem_flatten.mp hs
    obtain ⟨i, hi, rfl⟩ := List.mem_map.mp hchains
    obtain ⟨name, hname, rfl⟩ := List.mem_map.mp hs
    simp only [List.mem_filter, List.mem_range, Bool.not_eq_true',
      Table.contains_eq_false_iff] at hi
    rw [List.mem_filter, bne_iff_ne, Symbols.mem_namesOf] at hname
    exact ⟨i, name, hi.1, hi.2, hname.1, hname.2, rfl⟩
  · rintro ⟨i, name, hi, huser, hname, hne, rfl⟩
    refine List.mem_flatten.mpr ⟨_, List.mem_map.mpr ⟨i, ?_, rfl⟩, List.mem_map.mpr
      ⟨name, ?_, rfl⟩⟩
    · simp [hi, Table.contains_eq_false_iff, huser]
    · simp [Symbols.mem_namesOf, hname, hne]

theorem mem_emitted {m : Model K} {mode : Mode} {s : Statement K} :
    s ∈ m.emitted mode ↔ Emits m.symbols (m.problem.withoutHelpers.toMode mode) s := by
  unfold emitted
  generalize m.problem.withoutHelpers.toMode mode = p
  simp only [List.mem_append, or_assoc, mem_nameChains, Table.mem_map_entries]
  constructor
  · rintro (⟨i, w, hi, rfl⟩ | ⟨q, j, hq, rfl⟩ | hs | ⟨i, name, hi, huser, hname, hne, rfl⟩ |
      ⟨i, spin, hi, rfl⟩ | hs | hs)
    · exact .weight i w hi
    · exact .strength q j hq
    · obtain ⟨q, hq, rfl⟩ := List.mem_map.mp hs
      exact .chain q (KeySet.mem_toList_iff.mp hq)
    · exact .otherName i name hi huser hname hne
    · exact .pin i spin hi
    · obtain ⟨e, he, rfl⟩ := List.mem_map.mp hs
      rw [List.mem_filter, Bool.not_eq_true'] at he
      exact .known e.1 e.2 (Table.get?_eq_some_iff.mpr he.1) he.2
    · obtain ⟨e, he, rfl⟩ := List.mem_map.mp hs
      exact .assert e he
  · intro hs
    cases hs with
    | weight i w hi => exact .inl ⟨i, w, hi, rfl⟩
    | strength q j hq => exact .inr (.inl ⟨q, j, hq, rfl⟩)
    | chain q hq =>
      exact .inr (.inr (.inl (List.mem_map.mpr ⟨q, KeySet.mem_toList_iff.mpr hq, rfl⟩)))
    | otherName i name hi huser hname hne =>
      exact .inr (.inr (.inr (.inl ⟨i, name, hi, huser, hname, hne, rfl⟩)))
    | pin i spin hi => exact .inr (.inr (.inr (.inr (.inl ⟨i, spin, hi, rfl⟩))))
    | known name spin hspin hword =>
      refine .inr (.inr (.inr (.inr (.inr (.inl (List.mem_map.mpr ⟨(name, spin), ?_, rfl⟩))))))
      exact List.mem_filter.mpr ⟨Table.get?_eq_some_iff.mp hspin, by simp [hword]⟩
    | assert e he =>
      exact .inr (.inr (.inr (.inr (.inr (.inr (List.mem_map.mpr ⟨e, he, rfl⟩))))))

end Statements

section Objective

variable {m : Model ℚ} {mode : Mode}

/-- Statements that add nothing have no objective. -/
theorem objective_eq_zero {program : Program ℚ} {f : String → Option Spin}
    (h : ∀ s ∈ program, s.objective mode f = 0) : program.objective mode f = 0 := by
  unfold Program.objective
  rw [List.map_congr_left h]
  simp

theorem objective_append (program program' : Program ℚ) (f : String → Option Spin) :
    Program.objective (program ++ program') mode f =
      program.objective mode f + program'.objective mode f := by
  simp [Program.objective]

/-- The objective of the statements of a problem is that of the problem in the mode, but for the
constant. -/
theorem objective_emitted {p : Problem ℚ} (hp : m.problem.withoutHelpers.toMode mode = p)
    (f : String → Option Spin) : (m.emitted mode).objective mode f =
      p.objective (fun i => Coefficient.ofSpin? mode (f (m.symbols.shown i))) - p.offset := by
  have hweights : Program.objective (p.weights.nonzero.entries.map fun e =>
      Statement.weight (m.symbols.shown e.1) e.2) mode f = p.weights.total fun i w =>
        w * Coefficient.ofSpin? mode (f (m.symbols.shown i)) := by
    rw [← Table.total_nonzero p.weights fun i => by simp]
    simp [Program.objective, Table.total, Statement.objective, Function.comp_def]
  have hstrengths : Program.objective (p.strengths.nonzero.entries.map fun e =>
      Statement.strength (m.symbols.shown e.1.lo) (m.symbols.shown e.1.hi) e.2) mode f =
        p.strengths.total fun q j => j * Coefficient.ofSpin? mode (f (m.symbols.shown q.lo)) *
          Coefficient.ofSpin? mode (f (m.symbols.shown q.hi)) := by
    rw [← Table.total_nonzero p.strengths fun q => by simp]
    simp [Program.objective, Table.total, Statement.objective, Function.comp_def]
  unfold emitted
  rw [hp]
  simp only [objective_append, hweights, hstrengths]
  rw [objective_eq_zero (List.forall_mem_map.mpr fun _ _ => rfl),
    objective_eq_zero fun s hs => ?_, objective_eq_zero (List.forall_mem_map.mpr fun _ _ => rfl),
    objective_eq_zero (List.forall_mem_map.mpr fun _ _ => rfl),
    objective_eq_zero (List.forall_mem_map.mpr fun _ _ => rfl)]
  · unfold Problem.objective
    ring
  · obtain ⟨chains, hchains, hs⟩ := List.mem_flatten.mp hs
    obtain ⟨i, _, rfl⟩ := List.mem_map.mp hchains
    obtain ⟨name, _, rfl⟩ := List.mem_map.mp hs
    rfl

end Objective

end Model

end SpinGlass

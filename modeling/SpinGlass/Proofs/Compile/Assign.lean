import SpinGlass.Proofs.Compile.Lowering

/-!
# Assigning variables by names

Spins of the names assign the variables: a name that is not generated gives its spin to its
variable, and a variable without such a name is pinned, or else up. Where the spins satisfy the
program, the pins and chains of the problem with helpers are met.
-/

namespace SpinGlass

namespace Statement

variable {K : Type}

/-- The names of a statement are not generated, so that solutions show them. -/
def Shown (s : Statement K) : Prop := ∀ name ∈ s.names, isInternalName name = false

/-- Whether a statement is a chain. -/
def IsChain : Statement K → Prop
  | chain _ _ => True
  | _ => False

/-- What a program asks of a solution: the names of a chain have one spin, a pinned name has its
spin, and an assertion has a value other than zero. -/
def SatisfiedBy (spins : String → Option Spin) : Statement K → Prop
  | chain a b => ∃ spin, spins a = some spin ∧ spins b = some spin
  | pin var value => spins var = some (.ofBool value)
  | assert e => ∃ n, e.eval (fun name => (spins name).map Spin.toBool) = .ok n ∧ n ≠ 0
  | _ => True

end Statement

/-- A name is shown by the solutions of a program if a statement uses it and it is not generated. -/
def Program.Shows {K : Type} (program : Program K) (name : String) : Prop :=
  isInternalName name = false ∧ ∃ s ∈ program, name ∈ s.names

/-- The spins of the variables that spins of the names ask for. A variable without a name that is
shown is pinned, or else up. -/
def Model.assign {K : Type} (m : Model K) (spins : String → Option Spin) : Assignment := fun i =>
  if i < m.symbols.size then
    match m.symbols.byName.entries.find? fun e => e.2 == i && !isInternalName e.1 with
    | some e => spins e.1
    | none => some ((m.problem.pinned.get? i).getD .up)
  else none

/-- A variable is assigned by a name that is shown, if it has one. -/
theorem Model.assign_cases {K : Type} (m : Model K) (spins : String → Option Spin) {i : Nat}
    (hi : i < m.symbols.size) :
    (∃ name, isInternalName name = false ∧ m.symbols.byName.get? name = some i ∧
      m.assign spins i = spins name) ∨
    (∀ name, m.symbols.byName.get? name = some i → isInternalName name = true) ∧
      m.assign spins i = some ((m.problem.pinned.get? i).getD .up) := by
  unfold assign
  rw [if_pos hi]
  cases hfind : m.symbols.byName.entries.find? fun e => e.2 == i && !isInternalName e.1 with
  | some e =>
    have hpred := List.find?_some hfind
    rw [Bool.and_eq_true, beq_iff_eq, Bool.not_eq_true'] at hpred
    refine .inl ⟨e.1, hpred.2, ?_, rfl⟩
    rw [← hpred.1]
    exact Table.get?_eq_some_iff.mpr (List.mem_of_find?_eq_some hfind)
  | none =>
    refine .inr ⟨fun name hname => ?_, rfl⟩
    simpa using List.find?_eq_none.mp hfind _ (Table.get?_eq_some_iff.mp hname)

namespace Passes

variable {K : Type} [Coefficient K] {o : CompileOptions K} {program : Program K} {target : Target}
  {cancelled : Bool} {built helped : Model K} {c : Compiled K}
  (h : Passes o program target cancelled built helped c) {spins : String → Option Spin}

include h

/-- The pins of a program are those of the problem that is built. -/
theorem get?_pinned {var : String} {value : Bool} (hs : .pin var value ∈ o.statements program)
    {i : Nat} (hi : built.symbols.byName.get? var = some i) :
    built.problem.pinned.get? i = some (.ofBool value) := by
  have hmeets := (h.builds.meetsPins_iff built.problem.pinned.get?).mp fun _ _ hpin => hpin
  have hpin := hmeets.2 _ hs
  exact (h.builds.built.spinOf_eq hi _).symm.trans hpin

/-- A name that is not generated is one of the program. -/
theorem shows_of_byName {name : String} {i : Nat} (hname : isInternalName name = false)
    (hi : helped.symbols.byName.get? name = some i) :
    built.symbols.byName.get? name = some i ∧ (o.statements program).Shows name := by
  have hbuilt : built.symbols.byName.get? name = some i :=
    (h.isHelped.only name i hi).resolve_left (by simp [hname])
  refine ⟨hbuilt, hname, (h.builds.only name i hbuilt).resolve_right ?_⟩
  simp [Symbols.empty]

/-- A name that is shown has the spin asked for. -/
theorem assign_of_byName {name : String} {i : Nat} (hname : isInternalName name = false)
    (hi : helped.symbols.byName.get? name = some i) : helped.assign spins i = spins name := by
  rcases helped.assign_cases spins (h.isHelped.indexed.plain.lt_size name i hi) with
    ⟨other, hother, hindex, hassign⟩ | ⟨hinternal, _⟩
  · rw [hassign, h.builds.built.apart other name i (h.shows_of_byName hother hindex).1
      (h.shows_of_byName hname hi).1]
  · rw [hinternal name hi] at hname
    cases hname

/-- A name of the program that is shown has the spin asked for. -/
theorem spinOf_assign {s : Statement K} (hs : s ∈ o.statements program) {name : String}
    (hmem : name ∈ s.names) (hname : isInternalName name = false) :
    built.symbols.spinOf (helped.assign spins) name = spins name := by
  obtain ⟨i, hi⟩ := h.builds.named s hs name hmem
  rw [h.builds.built.spinOf_eq hi]
  exact h.assign_of_byName hname (h.isHelped.grows.byName name i hi)

/-- The spins asked for assign exactly the variables. -/
theorem isOver_assign_helped
    (hspins : ∀ name, (o.statements program).Shows name → (spins name).isSome) :
    (helped.assign spins).IsOver helped.symbols.size := by
  intro i
  by_cases hi : i < helped.symbols.size
  · refine iff_of_true ?_ hi
    rcases helped.assign_cases spins hi with ⟨name, hname, hindex, hassign⟩ | ⟨_, hassign⟩
    · rw [hassign]
      exact Option.isSome_iff_exists.mp (hspins name (h.shows_of_byName hname hindex).2)
    · exact ⟨_, hassign⟩
  · refine iff_of_false ?_ hi
    simp [Model.assign, hi]

/-- Spins that satisfy the pins of the program assign them to the problem that is built. -/
theorem meetsPins_built (hsatisfied : ∀ s ∈ o.statements program, s.Shown → ¬ s.IsChain →
    s.SatisfiedBy spins) : built.problem.MeetsPins (helped.assign spins) := by
  refine (h.builds.meetsPins_iff _).mpr ⟨?_, fun s hs => ?_⟩
  · intro i pin hpin
    cases hpin
  cases s with
  | pin var value =>
    have hmem : var ∈ (Statement.pin var value : Statement K).names := List.mem_singleton_self var
    cases hname : isInternalName var with
    | false =>
      refine (h.spinOf_assign hs hmem hname).trans (hsatisfied _ hs (fun name hmem => ?_) id)
      rwa [List.mem_singleton.mp hmem]
    | true =>
      -- a generated name is the only one of its variable, which is assigned by its pin
      obtain ⟨i, hi⟩ := h.builds.named _ hs var hmem
      have hlt := h.builds.built.plain.lt_size var i hi
      have hindex := h.isHelped.grows.byName var i hi
      refine (h.builds.built.spinOf_eq hi _).trans ?_
      rcases helped.assign_cases spins (h.isHelped.indexed.plain.lt_size var i hindex) with
        ⟨other, hother, hindex', _⟩ | ⟨_, hassign⟩
      · rw [h.builds.built.apart other var i (h.shows_of_byName hother hindex').1 hi,
          hname] at hother
        cases hother
      · rw [hassign, (h.pinned_iff hlt _).mpr (h.get?_pinned hs hi)]
        rfl
  | _ => exact trivial

/-- Spins that satisfy the pins of the program assign them to the problem with helpers. -/
theorem meetsPins_assign_helped (hsatisfied : ∀ s ∈ o.statements program, s.Shown → ¬ s.IsChain →
    s.SatisfiedBy spins) : helped.problem.MeetsPins (helped.assign spins) := by
  intro i pin hpin
  rcases helped.assign_cases spins (h.isHelped.indexed.isOver.pinned i pin hpin) with
    ⟨name, hname, hindex, _⟩ | ⟨_, hassign⟩
  · have hlt := h.builds.built.plain.lt_size name i (h.shows_of_byName hname hindex).1
    exact h.meetsPins_built hsatisfied i pin ((h.pinned_iff hlt pin).mp hpin)
  · rw [hassign, hpin]
    rfl

/-- Spins that satisfy the chains of the program meet them in the problem with helpers. -/
theorem meetsChains_assign_helped (hsatisfied : ∀ s ∈ o.statements program, s.IsChain →
    s.Shown ∧ s.SatisfiedBy spins) : helped.problem.MeetsChains (helped.assign spins) := by
  refine (h.meetsChains_helped_iff _).mpr fun s hs => ?_
  cases s with
  | chain a b =>
    obtain ⟨hshown, spin, ha, hb⟩ := hsatisfied _ hs trivial
    have hmem : a ∈ (Statement.chain a b : Statement K).names ∧
        b ∈ (Statement.chain a b : Statement K).names := by simp [Statement.names]
    calc built.symbols.spinOf (helped.assign spins) a
        = spins a := h.spinOf_assign hs hmem.1 (hshown a hmem.1)
      _ = spins b := ha.trans hb.symm
      _ = built.symbols.spinOf (helped.assign spins) b :=
        (h.spinOf_assign hs hmem.2 (hshown b hmem.2)).symm
  | _ => exact trivial

end Passes

end SpinGlass

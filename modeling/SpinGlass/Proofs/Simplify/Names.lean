import SpinGlass.Proofs.Problem.PinHelpers
import SpinGlass.Proofs.Simplify.Reduction

/-!
# Names of simplified models

A name of a simplified model has an index or a known value, and never both. Read with an assignment
of the new indices, it has the spin that its old index has in the extension.
-/

namespace SpinGlass.Model

/-- The spin of a name: that of its index, or else its known value. -/
def spinOf {K : Type} (m : Model K) (spins : Assignment) (name : String) : Option Spin :=
  match m.symbols.lookup? name with
  | some i => spins i
  | none => m.problem.knownValues.get? name

/-- No name with an index has a known value. -/
def KnownApart {K : Type} (m : Model K) : Prop :=
  ∀ name i, m.symbols.byName.get? name = some i → m.problem.knownValues.get? name = none

section Names

variable {K : Type} {m : Model K} {t : Assignment} {name : String} {i : Nat}

/-- In a plain table a name with an index has its spin. -/
theorem spinOf_of_byName (h : m.symbols.Plain) (hname : m.symbols.byName.get? name = some i) :
    m.spinOf t name = t i := by
  unfold spinOf
  rw [h.lookup?, hname]

/-- In a plain table a name without an index has its known value. -/
theorem spinOf_of_none (h : m.symbols.Plain) (hname : m.symbols.byName.get? name = none) :
    m.spinOf t name = m.problem.knownValues.get? name := by
  unfold spinOf
  rw [h.lookup?, hname]

variable [Coefficient K] {aliased fixed m' : Model K} {foldDominated : Bool} {r : Reduction}

namespace Stages

variable (h : m.Stages foldDominated r aliased fixed m')

include h

/-- The index of a name in the aliased model. -/
theorem lookup?_aliased (hname : m.symbols.byName.get? name = some i) :
    aliased.symbols.lookup? name = aliased.symbols.root? i := by
  unfold Symbols.lookup?
  rw [h.isAliased.byName,
    show (m.mapProblem (·.pruneZeros)).symbols.byName = m.symbols.byName from rfl,
    hname]
  rfl

theorem knownValues_eq (name : String) : m'.problem.knownValues.get? name =
    ((aliased.symbols.lookup? name).bind r.fixings.spin?).or (m.problem.knownValues.get? name) := by
  have hpruned : (m.mapProblem (·.pruneZeros)).problem.knownValues = m.problem.knownValues := rfl
  rw [h.problem, ← hpruned, ← h.isAliased.knownValues]
  exact h.isPropagated.knownValues name

/-- A name of a fixed variable has no index any more, and its spin is known. -/
theorem name_of_fixed {root : Nat} {spin : Spin} (hname : m.symbols.byName.get? name = some i)
    (hroot : aliased.symbols.root? i = some root) (hspin : r.fixings.spin? root = some spin) :
    m'.symbols.byName.get? name = none ∧ m'.problem.knownValues.get? name = some spin := by
  have hlookup := (h.lookup?_aliased hname).trans hroot
  constructor
  · rw [h.byName, h.isPropagated.byName, hlookup]
    simp [hspin]
  · rw [h.knownValues_eq, hlookup]
    simp [hspin]

/-- A name of a variable that is left has the new number. -/
theorem name_of_left {root : Nat} (hi : i < m.symbols.size)
    (hname : m.symbols.byName.get? name = some i) (hroot : aliased.symbols.root? i = some root)
    (hspin : r.fixings.spin? root = none) :
    m'.symbols.byName.get? name = some (fixed.symbols.rank root) := by
  have hlookup := (h.lookup?_aliased hname).trans hroot
  rw [h.byName, h.isPropagated.byName, hlookup, h.isAliased.byName]
  simp [hspin, mapProblem, hname, h.remap_of_left hroot hspin hi]

/-- A name that is left was one of a variable that is left. -/
theorem exists_root_of_name {k : Nat} (hname : m'.symbols.byName.get? name = some k) :
    ∃ i root, m.symbols.byName.get? name = some i ∧ aliased.symbols.root? i = some root ∧
      r.fixings.spin? root = none := by
  have hbefore : m.symbols.byName.get? name ≠ none := by
    intro hnone
    rw [h.byName, h.isPropagated.byName, h.isAliased.byName] at hname
    simp [mapProblem, hnone] at hname
  obtain ⟨i, hi⟩ := Option.ne_none_iff_exists'.mp hbefore
  obtain ⟨root, hroot⟩ := h.rooted i
  refine ⟨i, root, hi, hroot, Option.eq_none_iff_forall_ne_some.mpr fun spin hspin => ?_⟩
  exact Option.some_ne_none k (hname.symm.trans (h.name_of_fixed hi hroot hspin).1)

/-- The names that are left have allocated indices. -/
theorem plain (hplain : m.symbols.Plain) : m'.symbols.Plain := by
  refine ⟨h.pending, fun name k hk => ?_⟩
  obtain ⟨i, root, hname, hroot, hspin⟩ := h.exists_root_of_name hk
  have hi := hplain.lt_size name i hname
  rw [h.name_of_left hi hname hroot hspin, Option.some.injEq] at hk
  rw [← hk, h.size]
  exact Symbols.rank_lt_length (h.isRoot_of_left hroot hspin hi)

/-- No name that is left has a known value. -/
theorem knownApart (hknown : m.problem.knownValues = .empty) : m'.KnownApart := by
  intro name k hk
  obtain ⟨i, root, hname, hroot, hspin⟩ := h.exists_root_of_name hk
  rw [h.knownValues_eq, h.lookup?_aliased hname, hroot, hknown]
  simp [hspin]

/-- The values that become known are those of names. -/
theorem exists_byName_of_known (hknown : m.problem.knownValues = .empty) {spin : Spin}
    (hspin : m'.problem.knownValues.get? name = some spin) :
    ∃ i, m.symbols.byName.get? name = some i := by
  refine Option.ne_none_iff_exists'.mp fun hnone => ?_
  have hlookup : aliased.symbols.lookup? name = none := by
    unfold Symbols.lookup?
    rw [h.isAliased.byName]
    simp [mapProblem, hnone]
  rw [h.knownValues_eq, hknown, hlookup] at hspin
  cases hspin

/-- Every index that is left has a name. -/
theorem named (hnamed : m.symbols.Named) : m'.symbols.Named := by
  intro k hk
  rw [h.size] at hk
  obtain ⟨root, hroot, rfl⟩ := Symbols.exists_rank_eq hk
  have hsize : root < m.symbols.size := h.size_fixed ▸ hroot.1
  obtain ⟨name, hname⟩ := hnamed root hsize
  have hself := h.isPropagated.root? root
  rw [Symbols.root?_of_none hroot.2] at hself
  obtain ⟨root', hroot', hspin⟩ := Option.bind_eq_some_iff.mp hself.symm
  split at hspin
  · cases hspin
  · next hfree =>
    cases hspin
    exact ⟨name, h.name_of_left hsize hname hroot' (by simpa using hfree)⟩

/-- A name has the spin that its old index has in the extension. -/
theorem spinOf_eq (hplain : m.symbols.Plain) (hname : m.symbols.byName.get? name = some i) :
    m'.spinOf t name = r.extend t i := by
  have hi := hplain.lt_size name i hname
  obtain ⟨root, hroot⟩ := h.rooted i
  cases hspin : r.fixings.spin? root with
  | some spin =>
    obtain ⟨hnone, hknown⟩ := h.name_of_fixed hname hroot hspin
    rw [spinOf_of_none (h.plain hplain) hnone, hknown, h.extend_of_fixed hroot hspin]
  | none =>
    rw [spinOf_of_byName (h.plain hplain) (h.name_of_left hi hname hroot hspin),
      h.extend_of_left hroot hspin hi]

end Stages

end Names

end SpinGlass.Model

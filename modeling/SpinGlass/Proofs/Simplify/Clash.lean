import SpinGlass.Proofs.Simplify.InStep
import SpinGlass.Proofs.Simplify.Names
import SpinGlass.Proofs.Simplify.Traces

/-!
# When chains contradict pins

Pins and chains can be met unless chains connect two variables that are pinned to different spins.
A simplification without dominance finds a contradiction in that case only: aliasing succeeds for
what can be met, and the spin that a pin forces is that of the pin. What connected variables were
pinned to is then the pin of their new index, or the known value of their names.
-/

namespace SpinGlass

namespace Problem

variable {K : Type} {p : Problem K} {n : Nat}

/-- Chains connect two variables that are pinned to different spins. -/
def Clashes (p : Problem K) (n : Nat) : Prop :=
  ∃ i j : Fin n, (p.chainGraph n).Reachable i j ∧
    ∃ a b, p.pinned.get? i = some a ∧ p.pinned.get? j = some b ∧ a ≠ b

open Classical in
/-- The spin of a component of the chains: up if one of its variables is pinned up. -/
noncomputable def componentSpin (p : Problem K) (n : Nat)
    (c : (p.chainGraph n).ConnectedComponent) : Spin :=
  if ∃ i : Fin n, (p.chainGraph n).connectedComponentMk i = c ∧ p.pinned.get? i = some .up then .up
  else .down

/-- Every variable has the spin of its component. -/
noncomputable def componentSpins (p : Problem K) (n : Nat) : Assignment := fun k =>
  if hk : k < n then
    some (p.componentSpin n ((p.chainGraph n).connectedComponentMk ⟨k, hk⟩))
  else none

theorem componentSpins_of_lt {k : Nat} (hk : k < n) : p.componentSpins n k =
    some (p.componentSpin n ((p.chainGraph n).connectedComponentMk ⟨k, hk⟩)) := dif_pos hk

/-- Without a clash the spin of a component is that of its pins. -/
theorem componentSpin_eq (hclash : ¬ p.Clashes n) {i : Fin n} {spin : Spin}
    (hpin : p.pinned.get? i = some spin) :
    p.componentSpin n ((p.chainGraph n).connectedComponentMk i) = spin := by
  cases spin with
  | up => exact if_pos ⟨i, rfl, hpin⟩
  | down =>
    refine if_neg ?_
    rintro ⟨j, hj, hup⟩
    exact hclash ⟨j, i, SimpleGraph.ConnectedComponent.exact hj, .up, .down, hup, hpin, by decide⟩

/-- Pins and chains can be met unless they clash. -/
theorem exists_meets_iff (hover : p.Over (· < n)) :
    (∃ s : Assignment, p.MeetsPins s ∧ p.MeetsChains s) ↔ ¬ p.Clashes n := by
  constructor
  · rintro ⟨s, hpins, hchains⟩ ⟨i, j, hreachable, a, b, hi, hj, hne⟩
    have hsame := eq_of_reachable hchains hreachable
    rw [hpins _ _ hi, hpins _ _ hj, Option.some.injEq] at hsame
    exact hne hsame
  · intro hclash
    refine ⟨p.componentSpins n, fun i spin hi => ?_, fun q hq => ?_⟩
    · have hlt := hover.pinned i spin hi
      rw [componentSpins_of_lt hlt, componentSpin_eq (i := ⟨i, hlt⟩) hclash hi]
    · obtain ⟨hlt, hlo, hhi⟩ := hover.chains q hq
      have hadj : (p.chainGraph n).Adj ⟨q.lo, hlo⟩ ⟨q.hi, hhi⟩ := by
        refine ⟨fun heq => hlt.ne (congrArg Fin.val heq), ?_⟩
        rw [Pair.of_of_lt hlt]
        exact hq
      rw [componentSpins_of_lt hlo, componentSpins_of_lt hhi,
        SimpleGraph.ConnectedComponent.sound hadj.reachable]

end Problem

namespace Model

variable {K : Type} [Coefficient K] {m a m' : Model K} {e : SimplifyError} {foldDominated : Bool}

omit [Coefficient K] in
/-- Every index has the spin that its root is pinned to, and another if that is not pinned. -/
def rootSpins (m : Model K) (other : Spin) : Assignment := fun i =>
  (m.symbols.root? i).map fun root => (m.problem.pinned.get? root).getD other

omit [Coefficient K] in
theorem rootSpins_of_isRoot {root : Nat} (hroot : a.symbols.IsRoot root) (other : Spin) :
    a.rootSpins other root = some ((a.problem.pinned.get? root).getD other) := by
  rw [rootSpins, Symbols.root?_of_none hroot.2, Option.map_some]

omit [Coefficient K] in
/-- Where no chain is left the pins of the roots can be met, with any spin for the others. -/
theorem WellLinked.feasible_rootSpins (ha : a.WellLinked) (hchains : a.problem.chains = .empty)
    (other : Spin) : a.Feasible (a.rootSpins other) := by
  refine ⟨fun i target hi => ?_, fun root spin hpin => ?_, fun q hq => ?_⟩
  · simp only [rootSpins, Symbols.root?_of_merged hi (ha.links.target_lt i target hi)]
  · rw [rootSpins_of_isRoot (ha.isOver.pinned root spin hpin), hpin, Option.getD_some]
  · rw [hchains, KeySet.contains_empty] at hq
    cases hq

section Errors

variable (hover : m.problem.Over (· < m.symbols.size)) (hpending : m.symbols.pending = .empty)

include hover hpending

/-- Aliasing succeeds exactly if pins and chains do not clash. -/
theorem exists_aliasChains_eq_ok_iff :
    (∃ count a, (m.mapProblem (·.pruneZeros)).aliasChains = .ok (count, a)) ↔
      ¬ m.problem.Clashes m.symbols.size := by
  have hlinked := wellLinked_pruneZeros hover hpending
  rw [← Problem.exists_meets_iff hover]
  constructor
  · rintro ⟨count, a, haliases⟩
    have ha := (aliases_of_aliasRounds hlinked le_rfl haliases).aliased hlinked
    obtain ⟨_, hpins, hchains⟩ :=
      (ha.feasible_iff _).mp (ha.wellLinked.feasible_rootSpins ha.chains .up)
    exact ⟨_, hpins, hchains⟩
  · rintro ⟨s, hpins, hchains⟩
    have hfeasible : (m.mapProblem (·.pruneZeros)).Feasible s :=
      ⟨Symbols.respects_of_pending hpending s, hpins, hchains⟩
    exact exists_aliasRounds_eq_ok hlinked hfeasible _ 0

omit hover hpending in
/-- Without dominance nothing stops a propagation over roots. -/
theorem exists_propagateConstants_eq_ok (ha : a.WellLinked) :
    ∃ fixed f, a.propagateConstants false = .ok (fixed, f) := by
  cases h : a.propagateConstants false with
  | ok result => exact ⟨result.1, result.2, rfl⟩
  | error e =>
    obtain ⟨_, _, i, pin, spin, hconflict, _⟩ := reports_of_propagateConstants ha h
    have hpin := pinned_of_forcedSpin hconflict.forced
    rw [hconflict.pinned, Option.some.injEq] at hpin
    exact absurd hpin hconflict.ne

/-- Without dominance the errors are a clash, which is always found, and stray names. -/
theorem simplify_error_cases (h : m.simplify false = .error e) :
    e.IsContradiction ∧ m.problem.Clashes m.symbols.size ∨
      e = .strayName ∧ ¬ m.problem.Clashes m.symbols.size ∧
        ∃ name i, m.symbols.byName.get? name = some i ∧ m.symbols.size ≤ i := by
  have hlinked := wellLinked_pruneZeros hover hpending
  have hok := exists_aliasChains_eq_ok_iff hover hpending
  rcases simplify_eq_error h with haliases | ⟨_, a, haliases, hpropagate | hrenumber⟩
  · refine .inl ⟨isContradiction_of_aliasRounds hlinked haliases, ?_⟩
    by_contra hclash
    obtain ⟨_, _, hsuccess⟩ := hok.mpr hclash
    rw [haliases] at hsuccess
    cases hsuccess
  · have ha := (aliases_of_aliasRounds hlinked le_rfl haliases).aliased hlinked
    obtain ⟨_, _, hsuccess⟩ := exists_propagateConstants_eq_ok ha.wellLinked
    rw [hpropagate] at hsuccess
    cases hsuccess
  · have ha := (aliases_of_aliasRounds hlinked le_rfl haliases).aliased hlinked
    obtain ⟨_, f, hpropagate, hcompact⟩ := hrenumber
    obtain ⟨log, _, hfixes⟩ := exists_fixes_of_propagateConstants ha.wellLinked hpropagate
    refine .inr ⟨?_, hok.mp ⟨_, _, haliases⟩, ?_⟩
    · unfold compact at hcompact
      split at hcompact <;> cases hcompact
      rfl
    · by_contra hnames
      push Not at hnames
      obtain ⟨_, _, hsuccess⟩ :=
        exists_compact_of_propagated ha (hfixes.propagated ha.wellLinked) hnames
      rw [hcompact] at hsuccess
      cases hsuccess

end Errors

namespace Stages

variable {aliased fixed : Model K} {r : Reduction} (h : m.Stages foldDominated r aliased fixed m')

include h

end Stages

end Model

end SpinGlass

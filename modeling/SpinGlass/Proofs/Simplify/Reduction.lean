import SpinGlass.Proofs.Simplify.Renumber
import SpinGlass.Proofs.Simplify.Settled

/-!
# What a simplification does to assignments

A simplification aliases indices, fixes some of them and renumbers the rest. An assignment of the
new indices extends to the old ones: an index that is left takes the spin of its new number, and one
that was fixed takes the spin it was fixed to. The energy of the simplified problem is the energy
of the original one at the extension.
-/

namespace SpinGlass

/-- What became of the indices of a simplified model. -/
structure Reduction where
  /-- The links after aliasing. -/
  aliases : Symbols
  /-- The variables that were fixed. -/
  fixings : Fixings
  /-- The new numbers of the old indices. -/
  remap : Remap

/-- The assignment of the old indices that an assignment of the new ones stands for. -/
def Reduction.extend (r : Reduction) (t : Assignment) : Assignment := fun i =>
  match r.remap.get? i with
  | some k => t k
  | none => (r.aliases.root? i).bind r.fixings.spin?

namespace Model

section Stages

variable {K : Type} [Coefficient K] {m m' : Model K} {foldDominated : Bool}
  {report : SimplifyReport}

/-- The reduction that a simplification carries out, from the same passes. -/
def reduction (m : Model K) (foldDominated : Bool) : Except SimplifyError Reduction := do
  let (_, aliased) ← (m.mapProblem (·.pruneZeros)).aliasChains
  let (fixings, fixed) ← aliased.noteConstants foldDominated
  let (remap, _) ← fixed.compact
  return ⟨aliased.symbols, fixings, remap⟩

/-- The stages of a simplification. -/
structure Stages (m : Model K) (foldDominated : Bool) (r : Reduction) (aliased fixed m' : Model K) :
    Prop where
  merges : (m.mapProblem (·.pruneZeros)).Aliases aliased
  aliases : r.aliases = aliased.symbols
  isAliased : (m.mapProblem (·.pruneZeros)).Aliased aliased
  rooted : ∀ i, ∃ root, aliased.symbols.root? i = some root
  fixes : Fixes foldDominated aliased r.fixings fixed
  settled : fixed.Settled foldDominated
  isPropagated : aliased.Propagated r.fixings fixed
  remap : ∀ i, r.remap.get? i =
    if i < fixed.symbols.size then (fixed.symbols.root? i).map fixed.symbols.rank else none
  size : m'.symbols.size = fixed.symbols.survivors.length
  pending : m'.symbols.pending = .empty
  byName : ∀ name, m'.symbols.byName.get? name =
    (fixed.symbols.byName.get? name).map fun i => (r.remap.get? i).getD i
  problem : m'.problem = (fixed.problem.renumber r.remap).pruneZeros

/-- Without links a problem over the allocated indices is one over roots. -/
theorem wellLinked_pruneZeros (hover : m.problem.Over (· < m.symbols.size))
    (hpending : m.symbols.pending = .empty) : (m.mapProblem (·.pruneZeros)).WellLinked where
  links := Symbols.linksDown_of_pending hpending
  isOver := hover.pruneZeros.mono fun _ hi => (Symbols.isRoot_iff_of_pending hpending).mpr hi

omit [Coefficient K] in
/-- A model that is renumbered has no stray name. -/
theorem compact_eq_ok {remap : Remap} (h : m.compact = .ok (remap, m')) :
    m.symbols.compact = (some remap, m'.symbols) ∧ m'.problem = m.problem.renumber remap := by
  unfold compact at h
  split at h
  · next hcompact =>
    cases h
    exact ⟨hcompact, rfl⟩
  · cases h

/-- A simplification that succeeds goes through its stages, and the first is the aliasing. -/
theorem stages_of_aliasChains {count : Nat} {aliased : Model K}
    (hover : m.problem.Over (· < m.symbols.size)) (hpending : m.symbols.pending = .empty)
    (haliases : (m.mapProblem (·.pruneZeros)).aliasChains = .ok (count, aliased))
    (h : m.simplify foldDominated = .ok (report, m')) :
    ∃ r fixed, m.reduction foldDominated = .ok r ∧ m.Stages foldDominated r aliased fixed m' := by
  have hlinked := wellLinked_pruneZeros hover hpending
  unfold simplify at h
  obtain ⟨_, hfirst, h⟩ := bind_eq_ok.mp h
  cases haliases.symm.trans hfirst
  obtain ⟨⟨_, fixed⟩, hpropagate, h⟩ := bind_eq_ok.mp h
  obtain ⟨⟨remap, compacted⟩, hcompact, h⟩ := bind_eq_ok.mp h
  cases h
  obtain ⟨fixings, hnotes⟩ := exists_noteConstants hpropagate
  have hreduction : m.reduction foldDominated = .ok ⟨aliased.symbols, fixings, remap⟩ :=
    bind_eq_ok.mpr ⟨_, haliases, bind_eq_ok.mpr ⟨_, hnotes, bind_eq_ok.mpr ⟨_, hcompact, rfl⟩⟩⟩
  have hrun := aliases_of_aliasRounds hlinked le_rfl haliases
  have haliased := hrun.aliased hlinked
  have hfixes := fixes_of_noteConstants haliased.wellLinked hnotes
  obtain ⟨hsymbols, hproblem⟩ := compact_eq_ok hcompact
  obtain ⟨hremap, hsize, hempty, hnames⟩ := Symbols.compact_eq_some hsymbols
  exact ⟨_, fixed, hreduction, hrun, rfl, haliased,
    haliased.rooted fun i => ⟨i, Symbols.root?_of_none (by simp [mapProblem, hpending])⟩,
    hfixes, settled_of_noteConstants haliased.wellLinked hnotes,
    hfixes.propagated haliased.wellLinked, hremap, hsize, hempty, hnames,
    congrArg Problem.pruneZeros hproblem⟩

/-- A simplification that succeeds goes through its stages. -/
theorem stages_of_simplify (hover : m.problem.Over (· < m.symbols.size))
    (hpending : m.symbols.pending = .empty) (h : m.simplify foldDominated = .ok (report, m')) :
    ∃ r aliased fixed, m.reduction foldDominated = .ok r ∧
      m.Stages foldDominated r aliased fixed m' := by
  obtain ⟨⟨count, aliased⟩, haliases, _⟩ := bind_eq_ok.mp h
  obtain ⟨r, fixed, hr, hstages⟩ := stages_of_aliasChains hover hpending haliases h
  exact ⟨r, aliased, fixed, hr, hstages⟩

end Stages

namespace Stages

section Extend

variable {K : Type} [Coefficient K] {m aliased fixed m' : Model K} {foldDominated : Bool}
  {r : Reduction} (h : m.Stages foldDominated r aliased fixed m') {t : Assignment}

include h

theorem size_fixed : fixed.symbols.size = m.symbols.size :=
  h.isPropagated.size.trans h.isAliased.size

theorem ranks : Problem.Ranks r.remap fixed.symbols := by
  intro root hroot
  rw [h.remap, if_pos hroot.1, Symbols.root?_of_none hroot.2]
  rfl

theorem isOver_fixed : fixed.problem.Over fixed.symbols.IsRoot := h.isPropagated.wellLinked.isOver

theorem chains_fixed : fixed.problem.chains = .empty :=
  h.isPropagated.chains.trans h.isAliased.chains

theorem isOver_simplified : m'.problem.Over (· < m'.symbols.size) := by
  rw [h.problem, h.size]
  exact (h.isOver_fixed.renumber h.ranks).pruneZeros

/-- An index that leads to a fixed variable is extended by its spin. -/
theorem extend_of_fixed {i root : Nat} {spin : Spin} (hroot : aliased.symbols.root? i = some root)
    (hspin : r.fixings.spin? root = some spin) : r.extend t i = some spin := by
  have hnone : fixed.symbols.root? i = none := by
    rw [h.isPropagated.root?, hroot]
    simp [hspin]
  have hremap : r.remap.get? i = none := by
    rw [h.remap, hnone]
    simp
  unfold Reduction.extend
  rw [hremap, h.aliases, hroot]
  exact hspin

section Left

variable {i root : Nat} (hroot : aliased.symbols.root? i = some root)
  (hspin : r.fixings.spin? root = none)

include hroot hspin

theorem root?_of_left : fixed.symbols.root? i = some root := by
  rw [h.isPropagated.root?, hroot]
  simp [hspin]

theorem isRoot_of_left (hi : i < m.symbols.size) : fixed.symbols.IsRoot root :=
  h.isPropagated.wellLinked.links.isRoot_root? (by rwa [h.size_fixed]) (h.root?_of_left hroot hspin)

/-- An index that leads to a variable that is left gets the new number. -/
theorem remap_of_left (hi : i < m.symbols.size) :
    r.remap.get? i = some (fixed.symbols.rank root) := by
  rw [h.remap, if_pos (by rwa [h.size_fixed]), h.root?_of_left hroot hspin]
  rfl

/-- An index that leads to a variable that is left is extended by the spin of the new number. -/
theorem extend_of_left (hi : i < m.symbols.size) :
    r.extend t i = t (fixed.symbols.rank root) := by
  unfold Reduction.extend
  rw [h.remap_of_left hroot hspin hi]

end Left

/-- A variable that is left has the spin of its new number. -/
theorem extend_of_isRoot {root : Nat} (hroot : fixed.symbols.IsRoot root) :
    r.extend t root = t (fixed.symbols.rank root) := by
  unfold Reduction.extend
  rw [h.ranks root hroot]

/-- A fixed variable has the spin it was fixed to. -/
theorem extend_of_mem {e : Nat × Spin} (he : e ∈ r.fixings) : r.extend t e.1 = some e.2 := by
  have hroot := Symbols.root?_of_none (h.isPropagated.isRoot e he).2
  exact h.extend_of_fixed hroot (Fixings.spin?_of_mem h.isPropagated.nodup he)

/-- An index outside the table gets no spin. -/
theorem extend_of_size_le {i : Nat} (hi : m.symbols.size ≤ i) : r.extend t i = none := by
  have hsize : ¬ i < fixed.symbols.size := by
    rw [h.size_fixed]
    omega
  have hroot : aliased.symbols.root? i = some i := by
    refine h.isAliased.wellLinked.links.root?_of_size_le ?_
    rw [h.isAliased.size]
    exact hi
  have hremap : r.remap.get? i = none := by rw [h.remap, if_neg hsize]
  have hspin : r.fixings.spin? i = none := by
    cases hs : r.fixings.spin? i with
    | none => rfl
    | some spin =>
      have hlt := (h.isPropagated.isRoot _ (Fixings.mem_of_spin? hs)).1
      rw [h.isAliased.size] at hlt
      exact absurd hlt (Nat.not_lt.mpr hi)
  unfold Reduction.extend
  rw [hremap, h.aliases, hroot]
  exact hspin

/-- Linked indices are extended alike. -/
theorem respects_extend : aliased.symbols.Respects (r.extend t) := by
  intro i target hi
  have hlt := h.isAliased.wellLinked.links.target_lt i target hi
  have hsize : i < m.symbols.size := by
    have hsize := h.isAliased.wellLinked.links.lt_size i _ hi
    rwa [h.isAliased.size] at hsize
  obtain ⟨root, hroot⟩ := h.rooted target
  have hroot' : aliased.symbols.root? i = some root := by
    rw [Symbols.root?_of_merged hi hlt, hroot]
  cases hspin : r.fixings.spin? root with
  | some spin => rw [h.extend_of_fixed hroot' hspin, h.extend_of_fixed hroot hspin]
  | none =>
    rw [h.extend_of_left hroot' hspin hsize, h.extend_of_left hroot hspin (hlt.trans hsize)]

/-- An extension of an assignment of all new indices assigns all old ones. -/
theorem covers_extend (ht : t.Covers m'.symbols.size) : (r.extend t).Covers m.symbols.size := by
  intro i hi
  obtain ⟨root, hroot⟩ := h.rooted i
  cases hspin : r.fixings.spin? root with
  | some spin => exact ⟨spin, h.extend_of_fixed hroot hspin⟩
  | none =>
    rw [h.extend_of_left hroot hspin hi]
    refine ht _ ?_
    rw [h.size]
    exact Symbols.rank_lt_length (h.isRoot_of_left hroot hspin hi)

/-- The assignments that meet pins and chains are those that are feasible once the chains are
links. -/
theorem feasible_aliased_iff (hpending : m.symbols.pending = .empty) {s : Assignment} :
    aliased.Feasible s ↔ m.problem.MeetsPins s ∧ m.problem.MeetsChains s := by
  rw [h.isAliased.feasible_iff]
  exact ⟨fun hf => ⟨hf.pins, hf.chains⟩,
    fun ⟨hpins, hchains⟩ => ⟨Symbols.respects_of_pending hpending s, hpins, hchains⟩⟩

/-- With the fixed spins given, the new pins ask what was feasible before. -/
theorem meetsPins_iff {s : Assignment}
    (hroots : ∀ root, fixed.symbols.IsRoot root → s root = t (fixed.symbols.rank root))
    (hrespects : aliased.symbols.Respects s) (hfixings : ∀ e ∈ r.fixings, s e.1 = some e.2) :
    m'.problem.MeetsPins t ↔ aliased.Feasible s := by
  have hpins := Problem.meetsPins_renumber h.ranks h.isOver_fixed hroots
  have hchains : fixed.problem.MeetsChains s := by
    intro q hq
    rw [h.isPropagated.chains, h.isAliased.chains] at hq
    cases hq
  rw [← h.isPropagated.feasible_iff s hfixings, h.problem]
  exact hpins.trans ⟨fun hp => ⟨(h.isPropagated.respects s).mpr hrespects, hp, hchains⟩,
    fun hf => hf.pins⟩

/-- If an assignment of the new indices meets the pins, its extension meets the old pins and
chains. -/
theorem meets_extend (hpending : m.symbols.pending = .empty) (hpins : m'.problem.MeetsPins t) :
    m.problem.MeetsPins (r.extend t) ∧ m.problem.MeetsChains (r.extend t) := by
  rw [← h.feasible_aliased_iff hpending]
  exact (h.meetsPins_iff (fun root hroot => h.extend_of_isRoot hroot) h.respects_extend
    fun e he => h.extend_of_mem he).mp hpins

end Extend

section Energy

variable {m aliased fixed m' : Model ℚ} {foldDominated : Bool} {r : Reduction}
  (h : m.Stages foldDominated r aliased fixed m')

include h

/-- The energy of an assignment of the new indices is that of the fixed problem at the extension. -/
theorem energy_fixed (t : Assignment) :
    m'.problem.energy t = fixed.problem.energy (r.extend t) := by
  rw [h.problem, Problem.energy_pruneZeros]
  exact Problem.energy_renumber h.ranks h.isOver_fixed
    fun root hroot => h.extend_of_isRoot hroot

/-- Aliasing keeps the energy of an assignment that respects the links. -/
theorem energy_aliased {s : Assignment} (hcovers : s.Covers m.symbols.size)
    (hrespects : aliased.symbols.Respects s) (hover : m.problem.Over (· < m.symbols.size))
    (hpending : m.symbols.pending = .empty) :
    aliased.problem.energy s = m.problem.energy s := by
  rw [h.merges.energy_eq (wellLinked_pruneZeros hover hpending) hcovers hrespects]
  exact Problem.energy_pruneZeros m.problem s

/-- The energy of an assignment of the new indices is that of its extension. -/
theorem energy_extend {t : Assignment} (hcovers : t.Covers m'.symbols.size)
    (hover : m.problem.Over (· < m.symbols.size)) (hpending : m.symbols.pending = .empty) :
    m'.problem.energy t = m.problem.energy (r.extend t) := by
  have hfixings : ∀ e ∈ r.fixings, r.extend t e.1 = some e.2 := fun e he => h.extend_of_mem he
  rw [h.energy_fixed, h.fixes.energy_eq h.isAliased.wellLinked hfixings]
  exact h.energy_aliased (h.covers_extend hcovers) h.respects_extend hover hpending

end Energy

end Stages

/-- A simplification keeps the energy: the simplified problem has at an assignment of the new
indices the energy that the original problem has at the extension of the assignment. -/
theorem energy_simplify {m m' : Model ℚ} {foldDominated : Bool} {report : SimplifyReport}
    (hover : m.problem.Over (· < m.symbols.size)) (hpending : m.symbols.pending = .empty)
    (h : m.simplify foldDominated = .ok (report, m')) :
    ∃ r, m.reduction foldDominated = .ok r ∧ ∀ t : Assignment, t.Covers m'.symbols.size →
      m'.problem.energy t = m.problem.energy (r.extend t) := by
  obtain ⟨r, aliased, fixed, hr, hstages⟩ := stages_of_simplify hover hpending h
  exact ⟨r, hr, fun t ht => hstages.energy_extend ht hover hpending⟩

/-- A model of three variables, two of which are chained; the weight of the third outweighs its
coupling. -/
def chainedPair : Model ℚ where
  problem :=
    { (((Problem.empty .ising).addWeight 2 7).addStrength 0 1 (-1)).addStrength 1 2 3 with
      chains := KeySet.insert .empty (.of 0 1) }
  symbols := ⟨.ofList [("A", 0), ("B", 1), ("C", 2)], 3, .empty, 0⟩

theorem over_chainedPair : chainedPair.problem.Over (· < chainedPair.symbols.size) := by
  have hempty : (Problem.empty .ising : Problem ℚ).Over (· < 3) := Problem.over_empty .ising
  have hterms := ((hempty.addWeight (show 2 < 3 by decide) 7).addStrength (show 0 < 3 by decide)
    (show 1 < 3 by decide) (-1)).addStrength (show 1 < 3 by decide) (show 2 < 3 by decide) 3
  exact hterms.insertChain Nat.zero_ne_one (show 0 < 3 by decide) (show 1 < 3 by decide)

/-- A simplification that aliases the chained pair. -/
theorem energy_simplify_chainedPair :
    ∃ report m', chainedPair.simplify false = .ok (report, m') ∧
      ∃ r, chainedPair.reduction false = .ok r ∧ ∀ t : Assignment, t.Covers m'.symbols.size →
        m'.problem.energy t = chainedPair.problem.energy (r.extend t) := by
  have hsuccess : (chainedPair.simplify false).toOption.isSome = true := by decide +kernel
  cases h : chainedPair.simplify false with
  | error e =>
    rw [h] at hsuccess
    cases hsuccess
  | ok result => exact ⟨result.1, result.2, rfl, energy_simplify over_chainedPair rfl h⟩

end Model

end SpinGlass

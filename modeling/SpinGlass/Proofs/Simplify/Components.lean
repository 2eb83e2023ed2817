import SpinGlass.Proofs.Simplify.Propagation
import SpinGlass.Proofs.Symbols.Compaction
import Mathlib.Combinatorics.SimpleGraph.Connectivity.Connected
import Mathlib.SetTheory.Cardinal.Finite

/-!
# Chained components

The chains of a problem make a graph on its indices. Aliasing leaves one root for each connected
component of that graph, and every merge takes one root away, so merges and components add up to
the number of indices. Fixing a variable takes its root away, too.
-/

namespace SpinGlass

namespace Problem

variable {K : Type} {p : Problem K} {n : Nat}

/-- The graph on `n` indices whose edges are the chains. -/
def chainGraph (p : Problem K) (n : Nat) : SimpleGraph (Fin n) where
  Adj i j := i ≠ j ∧ p.chains.contains (.of i j) = true
  symm := ⟨fun i j h => ⟨h.1.symm, by rw [Pair.of_comm]; exact h.2⟩⟩
  loopless := ⟨fun _ h => h.1 rfl⟩

/-- A connected component has one spin in every assignment that meets the chains. -/
theorem eq_of_reachable {s : Assignment} (hs : p.MeetsChains s) {i j : Fin n}
    (h : (p.chainGraph n).Reachable i j) : s i = s j := by
  obtain ⟨walk⟩ := h
  induction walk with
  | nil => rfl
  | cons hadj _ ih => exact ((Pair.eq_ends_of s _ _).mp (hs _ hadj.2)).trans ih

/-- Connected are the indices that have one spin in every assignment that meets the chains. -/
theorem reachable_iff (hover : p.Over (· < n)) {i j : Fin n} :
    (p.chainGraph n).Reachable i j ↔ ∀ s : Assignment, p.MeetsChains s → s i = s j := by
  classical
  refine ⟨fun h s hs => eq_of_reachable hs h, fun h => ?_⟩
  -- up on the component of `i`, down elsewhere
  let s : Assignment := fun k =>
    if ∃ hk : k < n, (p.chainGraph n).Reachable i ⟨k, hk⟩ then some .up else some .down
  have hmeets : p.MeetsChains s := by
    intro q hq
    obtain ⟨hlt, hlo, hhi⟩ := hover.chains q hq
    have hadj : (p.chainGraph n).Adj ⟨q.lo, hlo⟩ ⟨q.hi, hhi⟩ := by
      refine ⟨fun heq => hlt.ne (congrArg Fin.val heq), ?_⟩
      rw [Pair.of_of_lt hlt]
      exact hq
    have hiff : (∃ hk : q.lo < n, (p.chainGraph n).Reachable i ⟨q.lo, hk⟩) ↔
        ∃ hk : q.hi < n, (p.chainGraph n).Reachable i ⟨q.hi, hk⟩ :=
      ⟨fun ⟨_, hr⟩ => ⟨hhi, hr.trans hadj.reachable⟩,
        fun ⟨_, hr⟩ => ⟨hlo, hr.trans hadj.symm.reachable⟩⟩
    simp only [s, hiff]
  have hi : s i = some .up := if_pos ⟨i.isLt, .refl _⟩
  have hj : s j = some .up := (h s hmeets).symm.trans hi
  by_contra hnot
  have hdown : s j = some .down := if_neg fun ⟨_, hr⟩ => hnot hr
  rw [hj] at hdown
  cases hdown

end Problem

namespace Symbols

variable {s s' : Symbols}

/-- Linked alike are the indices that have one spin in every assignment that respects the links. -/
theorem LinksDown.root?_eq_root?_iff (hs : s.LinksDown) (hrooted : ∀ i, ∃ r, s.root? i = some r)
    {i j : Nat} :
    s.root? i = s.root? j ↔ ∀ spins : Assignment, s.Respects spins → spins i = spins j := by
  constructor
  · intro h spins hspins
    obtain ⟨r, hr⟩ := hrooted i
    exact (hs.eq_root? hspins hr).trans (hs.eq_root? hspins (h.symm.trans hr)).symm
  · intro h
    -- up on what leads to the root of `i`, down elsewhere
    let spins : Assignment := fun k => if s.root? k = s.root? i then some .up else some .down
    have hrespects : s.Respects spins := by
      intro k target hk
      simp only [spins, root?_of_merged hk (hs.target_lt k target hk)]
    have hi : spins i = some .up := if_pos rfl
    have hj : spins j = some .up := (h spins hrespects).symm.trans hi
    by_contra hne
    have hdown : spins j = some .down := if_neg (Ne.symm hne)
    rw [hj] at hdown
    cases hdown

/-- A table with all roots but one has one survivor less. -/
theorem length_survivors {drop : Nat} (hdrop : s.IsRoot drop)
    (hroots : ∀ k, s'.IsRoot k ↔ s.IsRoot k ∧ k ≠ drop) :
    s'.survivors.length + 1 = s.survivors.length := by
  have hnodup : ∀ t : Symbols, t.survivors.Nodup := fun t => List.nodup_range.filter _
  have hperm : s'.survivors.Perm (s.survivors.erase drop) := by
    rw [List.perm_ext_iff_of_nodup (hnodup s') ((hnodup s).erase drop)]
    intro k
    rw [(hnodup s).mem_erase_iff, mem_survivors, mem_survivors, hroots, and_comm]
  have hmem := mem_survivors.mpr hdrop
  rw [hperm.length_eq, List.length_erase_of_mem hmem]
  exact Nat.sub_add_cancel (List.length_pos_of_mem hmem)

end Symbols

namespace Model

variable {K : Type} [Coefficient K] {m m' : Model K}

/-- Every round takes one root away and counts it. -/
theorem length_survivors_of_aliasRounds {rounds merged count : Nat} (hm : m.WellLinked)
    (h : m.aliasRounds rounds merged = .ok (count, m')) :
    m'.symbols.survivors.length + count = m.symbols.survivors.length + merged := by
  induction rounds generalizing merged m with
  | zero =>
    cases h
    rfl
  | succ rounds ih =>
    rcases m.aliasRounds_succ rounds merged with ⟨_, hdone⟩ | ⟨q, hq, hround⟩
    · rw [hdone] at h
      cases h
      rfl
    · obtain ⟨next, hmerge, h⟩ := bind_eq_ok.mp (hround ▸ h)
      have hmerged := hm.merged hq hmerge
      have hrest := ih hmerged.wellLinked h
      have hone : next.symbols.survivors.length + 1 = m.symbols.survivors.length := by
        rw [hmerged.symbols]
        exact Symbols.length_survivors (hm.isOver.chains q hq).2.2 fun k => Symbols.isRoot_link
      omega

/-- Every fixing takes one root away. -/
theorem Fixes.length_survivors {foldDominated : Bool} {log : Fixings}
    (h : Fixes foldDominated m log m') (hm : m.WellLinked) :
    m'.symbols.survivors.length + log.length = m.symbols.survivors.length := by
  induction h with
  | done => rfl
  | fix hroot hchain hforced hpin hfix _ ih =>
    have hfixed := fixed_of_ok hfix hm hroot hchain
    have hrest := ih hfixed.wellLinked
    have hone := Symbols.length_survivors hroot hfixed.isRoot
    rw [List.length_cons]
    omega

omit [Coefficient K] in
/-- After aliasing, the links ask what the chains asked. -/
theorem Aliased.respects_iff (h : m.Aliased m') (hpending : m.symbols.pending = .empty)
    (s : Assignment) : m'.symbols.Respects s ↔ m.problem.MeetsChains s := by
  have hnone : m'.problem.MeetsChains s := by
    intro q hq
    rw [h.chains, KeySet.contains_empty] at hq
    cases hq
  calc m'.symbols.Respects s ↔ m'.Joins s := (and_iff_left hnone).symm
    _ ↔ m.Joins s := h.joins_iff s
    _ ↔ m.problem.MeetsChains s := and_iff_right (Symbols.respects_of_pending hpending s)

omit [Coefficient K] in
/-- After aliasing, two indices have one root exactly if chains connect them. -/
theorem Aliased.root?_eq_root?_iff (h : m.Aliased m')
    (hover : m.problem.Over (· < m.symbols.size)) (hpending : m.symbols.pending = .empty)
    {i j : Fin m.symbols.size} :
    m'.symbols.root? i = m'.symbols.root? j ↔
      (m.problem.chainGraph m.symbols.size).Reachable i j := by
  have hrooted := h.rooted fun k => ⟨k, Symbols.root?_of_none (by simp [hpending])⟩
  rw [h.wellLinked.links.root?_eq_root?_iff hrooted, Problem.reachable_iff hover]
  exact forall_congr' fun s => imp_congr_left (h.respects_iff hpending s)

omit [Coefficient K] in
/-- Aliasing leaves one root for each connected component of the chains. -/
theorem Aliased.card_connectedComponent (h : m.Aliased m')
    (hover : m.problem.Over (· < m.symbols.size)) (hpending : m.symbols.pending = .empty) :
    Nat.card (m.problem.chainGraph m.symbols.size).ConnectedComponent =
      m'.symbols.survivors.length := by
  have hrooted := h.rooted fun k => ⟨k, Symbols.root?_of_none (by simp [hpending])⟩
  -- the component of a position among the roots
  let component (k : Fin m'.symbols.survivors.length) :
      (m.problem.chainGraph m.symbols.size).ConnectedComponent :=
    SimpleGraph.connectedComponentMk _
      ⟨m'.symbols.survivors[k], h.size ▸ (Symbols.mem_survivors.mp (List.getElem_mem k.isLt)).1⟩
  have hroot : ∀ k : Fin m'.symbols.survivors.length,
      m'.symbols.root? m'.symbols.survivors[k] = some m'.symbols.survivors[k] := fun k =>
    Symbols.root?_of_none (Symbols.mem_survivors.mp (List.getElem_mem k.isLt)).2
  have hbijective : component.Bijective := by
    constructor
    · intro a b hab
      have hsame := (h.root?_eq_root?_iff hover hpending).mpr
        (SimpleGraph.ConnectedComponent.exact hab)
      simp only [hroot, Option.some.injEq] at hsame
      exact Fin.ext ((List.nodup_range.filter _).getElem_inj_iff.mp hsame)
    · intro c
      induction c using SimpleGraph.ConnectedComponent.ind with
      | h i =>
        obtain ⟨r, hr⟩ := hrooted i
        have hisRoot := h.wellLinked.links.isRoot_root? (by rw [h.size]; exact i.isLt) hr
        obtain ⟨k, hk, heq⟩ := List.getElem_of_mem (Symbols.mem_survivors.mpr hisRoot)
        refine ⟨⟨k, hk⟩, SimpleGraph.ConnectedComponent.sound ?_⟩
        rw [← h.root?_eq_root?_iff hover hpending]
        exact (hroot ⟨k, hk⟩).trans ((congrArg some heq).trans hr.symm)
  rw [← Nat.card_eq_of_bijective component hbijective, Nat.card_fin]

end Model

end SpinGlass

import SpinGlass.Proofs.Simplify.Evident
import SpinGlass.Proofs.Simplify.InStep
import SpinGlass.Proofs.Simplify.Margin
import SpinGlass.Proofs.Simplify.Traces

/-!
# Propagation as inference

A propagation looks at what aliasing and its own fixings have made of a model. What it finds forced
there is evident from the model before, and what it does not find is not. So it infers evident spins
one after the other, until nothing is evident or a pin is contradicted.
-/

namespace SpinGlass

/-- What is noted last counts where nothing was noted before. -/
theorem Fixings.spin?_concat (log : Fixings) (i : Nat) (spin : Spin) (k : Nat) :
    Fixings.spin? (log ++ [(i, spin)]) k =
      (log.spin? k).or (if k = i then some spin else none) := by
  have happend : Fixings.spin? (log ++ [(i, spin)]) k =
      (log.spin? k).or (Fixings.spin? [(i, spin)] k) := List.lookup_append
  rw [happend, Fixings.spin?_cons, Fixings.spin?_nil]

/-- The spins of the indices whose roots are fixed. -/
def Symbols.known (s : Symbols) (log : Fixings) : Assignment := fun i => (s.root? i).bind log.spin?

namespace Model

/-- After a run of fixings, roots are those that were not fixed. -/
theorem Propagated.isRoot_iff {K : Type} {a c : Model K} {log : Fixings} (h : a.Propagated log c)
    (ha : a.WellLinked) {i : Nat} :
    c.symbols.IsRoot i ↔ a.symbols.IsRoot i ∧ log.spin? i = none := by
  constructor
  · intro hi
    have hroot := h.root? i
    rw [Symbols.root?_of_none hi.2] at hroot
    obtain ⟨r, hr, heq⟩ := Option.bind_eq_some_iff.mp hroot.symm
    split at heq
    · cases heq
    · next hnone =>
      cases heq
      exact ⟨⟨h.size ▸ hi.1, (ha.links.pending_root? hr).1⟩, by simpa using hnone⟩
  · rintro ⟨hi, hnone⟩
    have hroot : c.symbols.root? i = some i := by
      rw [h.root?, Symbols.root?_of_none hi.2, Option.bind_some, hnone]
      rfl
    exact ⟨h.size ▸ hi.1, (h.wellLinked.links.pending_root? hroot).1⟩

/-- A model over spins, without links, whose helpers come last. -/
structure Prepared (m : Model ℚ) (n : Nat) : Prop where
  isOver : m.problem.Over (· < m.symbols.size)
  pending : m.symbols.pending = .empty
  mode : m.problem.mode = .ising
  tethered : m.Tethered n

/-- What a model has become on the way of a simplification: all chains are links, and some variables
are fixed. -/
structure Reached (m : Model ℚ) (n : Nat) (foldDominated : Bool) (a : Model ℚ) (log : Fixings)
    (c : Model ℚ) : Prop where
  prepared : m.Prepared n
  aliases : (m.mapProblem (·.pruneZeros)).Aliases a
  fixes : Fixes foldDominated a log c

namespace Reached

variable {m a c : Model ℚ} {n : Nat} {foldDominated : Bool} {log : Fixings} {s : Assignment}
  {i k : Nat} {spin : Spin} (h : m.Reached n foldDominated a log c)

include h

theorem wellLinked : (m.mapProblem (·.pruneZeros)).WellLinked :=
  wellLinked_pruneZeros h.prepared.isOver h.prepared.pending

theorem isAliased : (m.mapProblem (·.pruneZeros)).Aliased a := h.aliases.aliased h.wellLinked

theorem rooted_start (i : Nat) : ∃ r, (m.mapProblem (·.pruneZeros)).symbols.root? i = some r :=
  ⟨i, Symbols.root?_of_none (by simp [mapProblem, h.prepared.pending])⟩

theorem rooted (i : Nat) : ∃ r, a.symbols.root? i = some r := h.isAliased.rooted h.rooted_start i

theorem propagated : a.Propagated log c := h.fixes.propagated h.isAliased.wellLinked

theorem tethered : a.Tethered n :=
  h.prepared.tethered.pruneZeros.aliases h.wellLinked h.aliases

theorem traced : (m.mapProblem (·.pruneZeros)).Traced a :=
  h.aliases.traced h.wellLinked h.prepared.tethered.pruneZeros h.rooted_start

theorem kept : a.Kept log c := h.fixes.kept h.isAliased.wellLinked

theorem mode : c.problem.mode = .ising :=
  h.propagated.mode.trans (h.isAliased.mode.trans h.prepared.mode)

theorem respects_iff : a.symbols.Respects s ↔ m.problem.MeetsChains s :=
  h.isAliased.respects_iff h.prepared.pending s

/-- Tied are the indices with one root. -/
theorem root?_eq_iff : a.symbols.root? i = a.symbols.root? k ↔ m.Tied i k := by
  rw [h.isAliased.wellLinked.links.root?_eq_root?_iff h.rooted]
  exact forall_congr' fun s => imp_congr_left h.respects_iff

theorem isRoot_iff : c.symbols.IsRoot i ↔ a.symbols.IsRoot i ∧ log.spin? i = none :=
  h.propagated.isRoot_iff h.isAliased.wellLinked

/-- A variable that is left is a root, and it is not known. -/
theorem root?_of_isRoot (hi : c.symbols.IsRoot i) :
    a.symbols.root? i = some i ∧ a.symbols.known log i = none := by
  obtain ⟨hroot, hnone⟩ := h.isRoot_iff.mp hi
  have hself := Symbols.root?_of_none hroot.2
  refine ⟨hself, ?_⟩
  unfold Symbols.known
  rw [hself, Option.bind_some, hnone]

/-- Tied to a variable that is left are the indices that lead to it. -/
theorem tied_iff (hi : c.symbols.IsRoot i) : m.Tied i k ↔ a.symbols.root? k = some i := by
  rw [← h.root?_eq_iff, (h.root?_of_isRoot hi).1, eq_comm]

/-- Variables that are left are not tied to each other. -/
theorem not_tied (hi : c.symbols.IsRoot i) (hk : c.symbols.IsRoot k) (hne : k ≠ i) :
    ¬ m.Tied i k := by
  rw [h.tied_iff hi, (h.root?_of_isRoot hk).1, Option.some.injEq]
  exact hne

/-- An index that is not known leads to a variable that is left. -/
theorem exists_isRoot (hi : i < m.symbols.size) (hnone : a.symbols.known log i = none) :
    ∃ r, a.symbols.root? i = some r ∧ c.symbols.IsRoot r := by
  obtain ⟨r, hr⟩ := h.rooted i
  have hroot := h.isAliased.wellLinked.links.isRoot_root? (h.isAliased.size ▸ hi) hr
  unfold Symbols.known at hnone
  rw [hr] at hnone
  exact ⟨r, hr, h.isRoot_iff.mpr ⟨hroot, hnone⟩⟩

/-- The energy where the chains are met and what is known is given. -/
theorem energy_eq (hcovers : s.Covers m.symbols.size) (hmeets : m.problem.MeetsChains s)
    (hknown : s.Extends (a.symbols.known log)) : c.problem.energy s = m.problem.energy s := by
  have hlog : ∀ e ∈ log, s e.1 = some e.2 := by
    intro e he
    refine hknown e.1 e.2 ?_
    unfold Symbols.known
    rw [Symbols.root?_of_none (h.propagated.isRoot e he).2]
    exact Fixings.spin?_of_mem h.propagated.nodup he
  rw [h.fixes.energy_eq h.isAliased.wellLinked hlog,
    h.aliases.energy_eq h.wellLinked hcovers (h.respects_iff.mpr hmeets)]
  exact Problem.energy_pruneZeros m.problem s

/-- A variable that is left is pinned if an index tied to it is. -/
theorem pinned_iff (hi : c.symbols.IsRoot i) :
    c.problem.pinned.get? i = some spin ↔ m.PinnedTo i spin := by
  rw [h.kept.pinned i (h.isRoot_iff.mp hi).2, h.traced.pinned]
  exact exists_congr fun k => and_congr_left' (h.tied_iff hi).symm

/-- Two variables that are left share a quadratic term if indices tied to them do. -/
theorem contains_strengths_iff (hi : c.symbols.IsRoot i) (hk : c.symbols.IsRoot k) (hne : i ≠ k) :
    c.problem.strengths.contains (.of i k) = true ↔
      ∃ a b, m.Tied i a ∧ m.Tied k b ∧ m.problem.strength a b ≠ 0 := by
  have hstored : ∀ a b, (m.mapProblem (·.pruneZeros)).problem.strengths.contains (.of a b) = true ↔
      m.problem.strength a b ≠ 0 := by
    intro a b
    have hpruned : (m.mapProblem (·.pruneZeros)).problem.strengths = m.problem.strengths.nonzero :=
      rfl
    unfold Problem.strength
    rw [Table.contains_iff, hpruned]
    simp only [Table.get?_nonzero]
    cases m.problem.strengths.get? (.of a b) <;> simp
  have hnone : ∀ j, c.symbols.IsRoot j → log.spin? j = none := fun j hj => (h.isRoot_iff.mp hj).2
  have hends : log.spin? (Pair.of i k).lo = none ∧ log.spin? (Pair.of i k).hi = none := by
    unfold Pair.of
    split
    · exact ⟨hnone i hi, hnone k hk⟩
    · exact ⟨hnone k hk, hnone i hi⟩
  rw [Table.contains_iff, h.kept.strengths _ hends.1 hends.2, ← Table.contains_iff,
    h.traced.strengths i k hne]
  simp only [hstored, h.tied_iff hi, h.tied_iff hk]

/-- A helper is its own root. -/
theorem root?_of_helper {user : Nat} (huser : m.problem.pinHelpers.get? k = some user) :
    a.symbols.root? k = some k := by
  obtain ⟨r, hr⟩ := h.rooted k
  obtain rfl := h.tethered.root_eq hr (h.prepared.tethered.problem.helpers k user huser).1
  exact hr

/-- A helper that is left stands by the root of its user. -/
theorem pinHelpers_iff (hi : c.symbols.IsRoot i) (hk : c.symbols.IsRoot k) :
    c.problem.pinHelpers.get? k = some i ↔
      ∃ user, m.problem.pinHelpers.get? k = some user ∧ m.Tied i user := by
  rw [h.kept.helpers k i (h.isRoot_iff.mp hk).2 (h.isRoot_iff.mp hi).2, h.traced.helpers,
    Option.bind_eq_some_iff]
  exact exists_congr fun user => and_congr_right fun _ => (h.tied_iff hi).symm

/-- A pin is released if what is left of its couplings leads to its helpers. -/
theorem releasedPin_iff (hi : c.symbols.IsRoot i) :
    c.problem.releasedPin i (c.problem.incident i) = some spin ↔
      m.Released (a.symbols.known log) i spin := by
  have hover := h.propagated.wellLinked.isOver
  have hall : c.problem.releasedPin i (c.problem.incident i) = some spin ↔
      (∀ t ∈ c.problem.incident i, c.problem.pinHelpers.get? t.1 = some i) ∧
        c.problem.pinned.get? i = some spin := by
    unfold Problem.releasedPin
    simp [List.all_eq_true]
  rw [hall, h.pinned_iff hi]
  constructor
  · rintro ⟨hhelpers, hpinned⟩
    refine ⟨hpinned, fun k b hk hb hnone hcoupled => ?_⟩
    have hlt := (h.prepared.isOver.of_strength_ne_zero hcoupled).2.2
    obtain ⟨r, hr, hroot⟩ := h.exists_isRoot hlt hnone
    have htied : m.Tied r b := (h.tied_iff hroot).mpr hr
    have hne : i ≠ r := by
      rintro rfl
      exact hb htied
    obtain ⟨j, hj⟩ := Table.contains_iff.mp
      ((h.contains_strengths_iff hi hroot hne).mpr ⟨k, b, hk, htied, hcoupled⟩)
    have hhelper := hhelpers (r, j) ((Problem.mem_incident_iff hover).mpr ⟨hne.symm, hj⟩)
    obtain ⟨user, huser, htied'⟩ := (h.pinHelpers_iff hi hroot).mp hhelper
    -- only a helper leads to a helper
    have hle := (h.prepared.tethered.problem.helpers r user huser).1
    have hlink := (h.tethered.root_lt_iff h.isAliased.wellLinked.links hr).not
    have heq := h.tethered.root_eq hr (Nat.not_lt.mp (hlink.mp (Nat.not_lt.mpr hle)))
    exact ⟨user, heq ▸ huser, htied'⟩
  · rintro ⟨hpinned, hhelped⟩
    refine ⟨fun t ht => ?_, hpinned⟩
    obtain ⟨hne, hget⟩ := (Problem.mem_incident_iff hover).mp ht
    have hroot := (Problem.mem_incident hover ht).1
    obtain ⟨k, b, hk, hb, hcoupled⟩ := (h.contains_strengths_iff hi hroot hne.symm).mp
      (Table.contains_iff.mpr ⟨t.2, hget⟩)
    have hr := (h.tied_iff hroot).mp hb
    have hnone : a.symbols.known log b = none := by
      unfold Symbols.known
      rw [hr]
      exact (h.isRoot_iff.mp hroot).2
    obtain ⟨user, huser, htied⟩ := hhelped k b hk
      (fun hib => h.not_tied hi hroot hne (hib.trans hb.symm)) hnone hcoupled
    rw [h.root?_of_helper huser, Option.some.injEq] at hr
    exact (h.pinHelpers_iff hi hroot).mpr ⟨user, hr ▸ huser, htied⟩

/-- What is known of tied indices is the same. -/
theorem known_eq_of_tied (htied : m.Tied i k) :
    a.symbols.known log i = a.symbols.known log k := by
  unfold Symbols.known
  rw [h.root?_eq_iff.mpr htied]

/-- A spin dominates what is left if it is the better one wherever what is known is given. -/
theorem dominatingSpin_iff (hi : c.symbols.IsRoot i) :
    c.problem.dominatingSpin i (c.problem.incident i) = some spin ↔
      m.Dominated (a.symbols.known log) i spin := by
  have hover := h.propagated.wellLinked.isOver
  rw [Problem.dominatingSpin_iff_field hover h.mode]
  constructor
  · intro hfield s t hs ht hsmeets htmeets hsknown htknown hsi hti hsame
    have hothers : ∀ k, c.symbols.IsRoot k → k ≠ i → s k = some ((s k).getD .up) := by
      intro k hk _
      obtain ⟨other, hother⟩ := hs k (h.propagated.size.trans h.isAliased.size ▸ hk.1)
      rw [hother, Option.getD_some]
    have hflip := Problem.energy_sub_of_flip hover h.mode hsi hti
      (fun k hk hne => hsame k (h.not_tied hi hk hne)) hothers
    rw [← h.energy_eq hs hsmeets hsknown, ← h.energy_eq ht htmeets htknown, hflip]
    exact mul_lt_mul_of_pos_left (hfield _) two_pos
  · intro hdominated others
    -- the given spins, taken from the roots
    let spins (k : Nat) : Spin := others ((a.symbols.root? k).getD k)
    let filled (other : Spin) : Assignment := m.complete (a.symbols.known log) spins i other
    have hmeets : ∀ other, m.problem.MeetsChains (filled other) := fun other =>
      meetsChains_complete (fun _ _ => h.known_eq_of_tied) fun j k htied => by
        have hroot := h.root?_eq_iff.mpr htied
        obtain ⟨r, hr⟩ := h.rooted j
        simp only [spins, hr, ← hroot, Option.getD_some]
    have hextends : ∀ other, (filled other).Extends (a.symbols.known log) := fun other =>
      extends_complete (fun _ _ => h.known_eq_of_tied) (fun _ _ hk => hk)
        (h.root?_of_isRoot hi).2
    have hcovers : ∀ other, (filled other).Covers m.symbols.size := fun other =>
      covers_complete m _ spins i other
    have hself : ∀ other, filled other i = some other := fun other => complete_of_tied (.refl m i)
    have hsame : ∀ k, ¬ m.Tied i k → filled spin k = filled spin.flip k := by
      intro k hk
      simp only [filled, complete_of_not_tied hk]
    have hlt := hdominated _ _ (hcovers spin) (hcovers spin.flip) (hmeets spin) (hmeets spin.flip)
      (hextends spin) (hextends spin.flip) (hself spin) (hself spin.flip) hsame
    have hothers : ∀ k, c.symbols.IsRoot k → k ≠ i → filled spin k = some (others k) := by
      intro k hk hne
      obtain ⟨hroot, hnone⟩ := h.root?_of_isRoot hk
      simp only [filled, spins, complete_of_not_tied (h.not_tied hi hk hne), hnone, hroot,
        Option.getD_none, Option.getD_some]
    rw [← h.energy_eq (hcovers spin) (hmeets spin) (hextends spin),
      ← h.energy_eq (hcovers spin.flip) (hmeets spin.flip) (hextends spin.flip),
      Problem.energy_sub_of_flip hover h.mode (hself spin) (hself spin.flip)
        (fun k hk hne => hsame k (h.not_tied hi hk hne)) hothers] at hlt
    exact lt_of_mul_lt_mul_left hlt two_pos.le

/-- A spin that is forced is evident. -/
theorem evident_of_forcedSpin (hi : c.symbols.IsRoot i)
    (hforced : c.problem.forcedSpin foldDominated i = some spin) :
    m.Evident foldDominated (a.symbols.known log) i spin := by
  unfold Problem.forcedSpin at hforced
  rcases Option.or_eq_some_iff.mp hforced with hreleased | ⟨_, hdominated⟩
  · exact .inl ((h.releasedPin_iff hi).mp hreleased)
  · split at hdominated
    · next hfold => exact .inr ⟨hfold, (h.dominatingSpin_iff hi).mp hdominated⟩
    · cases hdominated

/-- Where a spin is evident, one is forced. -/
theorem exists_forcedSpin (hi : c.symbols.IsRoot i)
    (hevident : m.Evident foldDominated (a.symbols.known log) i spin) :
    ∃ forced, c.problem.forcedSpin foldDominated i = some forced := by
  unfold Problem.forcedSpin
  dsimp only
  rcases hevident with hreleased | ⟨hfold, hdominated⟩
  · rw [(h.releasedPin_iff hi).mpr hreleased]
    exact ⟨spin, rfl⟩
  · rw [(h.dominatingSpin_iff hi).mpr hdominated, if_pos hfold]
    cases c.problem.releasedPin i (c.problem.incident i) with
    | none => exact ⟨spin, rfl⟩
    | some pin => exact ⟨pin, rfl⟩

/-- A fixing infers a spin. -/
theorem infers_concat (hinfers : m.Infers foldDominated (a.symbols.known log))
    (hi : c.symbols.IsRoot i) (hforced : c.problem.forcedSpin foldDominated i = some spin)
    (hpin : ∀ pin, c.problem.pinned.get? i = some pin → pin = spin) :
    m.Infers foldDominated (a.symbols.known (log ++ [(i, spin)])) := by
  obtain ⟨hroot, hnone⟩ := h.root?_of_isRoot hi
  have hlt : i < m.symbols.size := h.propagated.size.trans h.isAliased.size ▸ hi.1
  refine .step hinfers hlt hnone (h.evident_of_forcedSpin hi hforced) (fun pin hpinned => ?_)
    (fun k hk => ?_) fun k hk => ?_
  · exact hpin pin ((h.pinned_iff hi).mpr hpinned)
  · unfold Symbols.known
    rw [(h.tied_iff hi).mp hk, Option.bind_some, Fixings.spin?_concat, (h.isRoot_iff.mp hi).2,
      if_pos rfl]
    rfl
  · obtain ⟨r, hr⟩ := h.rooted k
    have hne : r ≠ i := by
      rintro rfl
      exact hk ((h.tied_iff hi).mpr hr)
    unfold Symbols.known
    rw [hr, Option.bind_some, Fixings.spin?_concat, if_neg hne, Option.or_none]
    rfl

/-- A run of fixings that follows infers more. -/
theorem infers_append {more : Fixings} {c' : Model ℚ}
    (hinfers : m.Infers foldDominated (a.symbols.known log))
    (hfixes : Fixes foldDominated c more c') :
    m.Infers foldDominated (a.symbols.known (log ++ more)) := by
  induction hfixes generalizing log with
  | done => rwa [List.append_nil]
  | @fix c c₁ c' i spin more hroot hchain hforced hpin hfix _ ih =>
    have hnext : m.Reached n foldDominated a (log ++ [(i, spin)]) c₁ :=
      ⟨h.prepared, h.aliases,
        h.fixes.append (.fix hroot hchain hforced hpin hfix (.done c₁))⟩
    rw [List.append_cons]
    exact ih hnext (h.infers_concat hinfers hroot hforced hpin)

/-- A run of fixings infers what it fixes. -/
theorem infers : m.Infers foldDominated (a.symbols.known log) := by
  have hstart : m.Reached n foldDominated a [] a := ⟨h.prepared, h.aliases, .done a⟩
  have hnothing : a.symbols.known [] = fun _ => none := by
    funext i
    unfold Symbols.known
    cases a.symbols.root? i <;> rfl
  exact hstart.infers_append (hnothing ▸ .start) h.fixes

/-- When no variable is forced any more, nothing unknown is evident. -/
theorem settles (hsettled : c.Settled foldDominated) :
    m.Settles foldDominated (a.symbols.known log) := by
  intro i hlt spin hnone hevident
  obtain ⟨r, hr, hroot⟩ := h.exists_isRoot hlt hnone
  have htied : m.Tied i r := ((h.tied_iff hroot).mpr hr).symm
  obtain ⟨forced, hforced⟩ := h.exists_forcedSpin hroot (hevident.of_tied htied)
  have hchain : c.problem.inChain r = false := by
    unfold Problem.inChain
    rw [h.propagated.chains, h.isAliased.chains]
    rfl
  rw [hsettled r (Problem.mem_activeIndices_of_forcedSpin h.mode hforced) hchain] at hforced
  cases hforced

end Reached

end Model

end SpinGlass

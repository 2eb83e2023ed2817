import SpinGlass.Proofs.Simplify.Dominance
import SpinGlass.Proofs.Simplify.Reduction
import Mathlib.Data.Set.Finite.Lemmas
import Mathlib.Data.Finite.Prod
import Mathlib.Data.Set.Finite.Range

/-!
# Optima of simplified problems

A forced spin is met by every optimum: a released pin because it is a pin, and a dominating spin
because changing to it, along with everything linked to the variable, lowers the energy. By
induction over the fixings, every feasible assignment has all the spins that were fixed or can be
improved to one that has. So simplifying keeps the optima.
-/

namespace SpinGlass

/-- The assignment with another spin for a root and everything that leads to it. -/
def Symbols.reassign (s : Symbols) (spins : Assignment) (i : Nat) (spin : Spin) : Assignment :=
  fun k => if s.root? k = some i then some spin else spins k

/-- The assignments among some that no other one among them beats. -/
def minimizers (energy : Assignment → ℚ) (among : Set Assignment) : Set Assignment :=
  {s | s ∈ among ∧ ∀ u ∈ among, energy s ≤ energy u}

/-- The assignment that gives one spin to all variables. -/
theorem Assignment.isOver_const (spin : Spin) (n : Nat) :
    IsOver (fun i => if i < n then some spin else none) n := by
  intro i
  by_cases hi : i < n <;> simp [hi]

/-- There are finitely many assignments of a number of variables. -/
theorem Assignment.finite_isOver (n : Nat) : {s : Assignment | s.IsOver n}.Finite := by
  let read (bits : Fin n → Bool) : Assignment := fun i =>
    if hi : i < n then some (.ofBool (bits ⟨i, hi⟩)) else none
  refine (Set.finite_range read).subset fun s hs => ?_
  refine ⟨fun i => s i == some .up, funext fun i => ?_⟩
  by_cases hi : i < n
  · obtain ⟨spin, hspin⟩ := hs.covers i hi
    simp only [read, dif_pos hi, hspin]
    cases spin <;> rfl
  · rw [hs.eq_none (Nat.not_lt.mp hi)]
    simp only [read, dif_neg hi]

/-- Among assignments of a number of variables, some are not beaten. -/
theorem exists_mem_minimizers {n : Nat} (energy : Assignment → ℚ) {among : Set Assignment}
    (hover : among ⊆ {s | s.IsOver n}) (hne : among.Nonempty) :
    (minimizers energy among).Nonempty := by
  have hfinite : among.Finite := (Assignment.finite_isOver n).subset hover
  obtain ⟨s, hs, hleast⟩ := Set.exists_min_image among energy hfinite hne
  exact ⟨s, hs, hleast⟩

/-- A map that keeps the energy is a bijection of minimizers if each assignment of the target is an
image or is beaten by one. -/
theorem bijOn_minimizers {energy energy' : Assignment → ℚ} {source target : Set Assignment}
    {f : Assignment → Assignment} (hmaps : Set.MapsTo f source target) (hinj : Set.InjOn f source)
    (henergy : ∀ t ∈ source, energy' t = energy (f t))
    (hreach : ∀ s ∈ target, ∃ t ∈ source, f t = s ∨ energy (f t) < energy s) :
    Set.BijOn f (minimizers energy' source) (minimizers energy target) := by
  refine ⟨?_, hinj.mono fun t ht => ht.1, ?_⟩
  · rintro t ⟨ht, hleast⟩
    refine ⟨hmaps ht, fun u hu => ?_⟩
    obtain ⟨t', ht', hle⟩ := hreach u hu
    have hbest := hleast t' ht'
    rw [henergy t ht, henergy t' ht'] at hbest
    rcases hle with heq | hlt
    · rwa [heq] at hbest
    · exact hbest.trans hlt.le
  · rintro s ⟨hs, hleast⟩
    obtain ⟨t, ht, hle⟩ := hreach s hs
    have heq : f t = s := hle.resolve_right (not_lt.mpr (hleast _ (hmaps ht)))
    refine ⟨t, ⟨ht, fun u hu => ?_⟩, heq⟩
    rw [henergy t ht, henergy u hu, heq]
    exact hleast _ (hmaps hu)

namespace Model

variable {m m' : Model ℚ} {foldDominated : Bool} {log : Fixings} {i : Nat} {spin : Spin}
  {s : Assignment}

/-- A root outside all chains can be changed to a spin that its pin allows. -/
theorem feasible_reassign (hm : m.WellLinked) (hroot : m.symbols.IsRoot i)
    (hchain : m.problem.inChain i = false)
    (hpin : ∀ pin, m.problem.pinned.get? i = some pin → pin = spin) (hs : m.Feasible s) :
    m.Feasible (m.symbols.reassign s i spin) := by
  have hother : ∀ k, m.symbols.IsRoot k → k ≠ i → m.symbols.reassign s i spin k = s k := by
    intro k hk hne
    simp [Symbols.reassign, Symbols.root?_of_none hk.2, hne]
  refine ⟨fun k target hk => ?_, fun k pin hk => ?_, fun q hq => ?_⟩
  · unfold Symbols.reassign
    rw [Symbols.root?_of_merged hk (hm.links.target_lt k target hk), hs.respects k target hk]
  · by_cases hki : k = i
    · have hpinned := hpin pin (hki ▸ hk)
      simp [Symbols.reassign, hki, Symbols.root?_of_none hroot.2, hpinned]
    · rw [hother k (hm.isOver.pinned k pin hk) hki]
      exact hs.pins k pin hk
  · have hnot := List.any_eq_false.mp hchain q (KeySet.mem_toList_iff.mpr hq)
    simp only [Pair.contains, Bool.or_eq_true, beq_iff_eq, not_or] at hnot
    obtain ⟨_, hlo, hhi⟩ := hm.isOver.chains q hq
    rw [hother _ hlo hnot.1, hother _ hhi hnot.2]
    exact hs.chains q hq

/-- A change to a dominating spin lowers the energy. -/
theorem energy_reassign_lt (hm : m.WellLinked) (hroot : m.symbols.IsRoot i)
    (hdominates : m.problem.dominatingSpin i (m.problem.incident i) = some spin)
    (hcovers : s.Covers m.symbols.size) (hne : s i ≠ some spin) :
    m.problem.energy (m.symbols.reassign s i spin) < m.problem.energy s := by
  obtain ⟨other, hother⟩ := hcovers i hroot.1
  have hdiffer : other ≠ spin := fun heq => hne (heq ▸ hother)
  let old : Nat → ℚ := Problem.value m.problem.mode s
  let new : Nat → ℚ := Function.update old i (Coefficient.ofSpinIn m.problem.mode spin)
  have hnew : ∀ k, m.symbols.IsRoot k →
      Problem.value m.problem.mode (m.symbols.reassign s i spin) k = new k := by
    intro k hk
    by_cases hki : k = i
    · simp [new, hki, Problem.value, Symbols.reassign, Symbols.root?_of_none hroot.2]
    · simp [new, old, hki, Problem.value, Symbols.reassign, Symbols.root?_of_none hk.2]
  obtain ⟨rest, hlinear⟩ := Problem.objective_eq_add_field hm.isOver i old
  have henergy : m.problem.energy (m.symbols.reassign s i spin) = m.problem.objective new := by
    rw [Problem.energy_eq_objective]
    have hweights : ∀ k w, m.problem.weights.get? k = some w →
        Problem.value m.problem.mode (m.symbols.reassign s i spin) k = new k :=
      fun k w hk => hnew k (hm.isOver.weights k w hk)
    refine Problem.objective_congr hweights fun q j hq => ?_
    obtain ⟨_, hlo, hhi⟩ := hm.isOver.strengths q j hq
    exact ⟨hnew _ hlo, hnew _ hhi⟩
  have hneighbours : ∀ t ∈ m.problem.incident i, m.problem.mode.IsValue (old t.1) := fun t ht =>
    Problem.isValue_value _ (hcovers t.1 (Problem.mem_incident hm.isOver ht).1.1)
  have hlt := Problem.lt_of_dominatingSpin hdominates hdiffer hneighbours
  have hold : old i = Coefficient.ofSpinIn m.problem.mode other := Problem.value_of_eq_some _ hother
  rw [henergy, Problem.energy_eq_objective, hlinear old fun _ _ => rfl,
    hlinear new fun k hk => Function.update_of_ne hk _ _, hold]
  simpa [new] using hlt

/-- A feasible assignment that does not meet a forced spin is improved by changing to it. -/
theorem improve_of_ne (hm : m.WellLinked) (hroot : m.symbols.IsRoot i)
    (hchain : m.problem.inChain i = false)
    (hforced : m.problem.forcedSpin foldDominated i = some spin)
    (hpin : ∀ pin, m.problem.pinned.get? i = some pin → pin = spin)
    (hcovers : s.Covers m.symbols.size) (hs : m.Feasible s) (hne : s i ≠ some spin) :
    m.Feasible (m.symbols.reassign s i spin) ∧
      m.problem.energy (m.symbols.reassign s i spin) < m.problem.energy s := by
  refine ⟨feasible_reassign hm hroot hchain hpin hs, ?_⟩
  refine energy_reassign_lt hm hroot ?_ hcovers hne
  unfold Problem.forcedSpin at hforced
  simp only [Option.or_eq_some_iff] at hforced
  rcases hforced with hreleased | ⟨_, hdominates⟩
  · unfold Problem.releasedPin at hreleased
    split at hreleased
    · exact absurd (hs.pins i spin hreleased) hne
    · cases hreleased
  · split at hdominates
    · exact hdominates
    · cases hdominates

/-- A feasible assignment of the same variables that is no worse and agrees on what is retired. -/
structure Improves (m : Model ℚ) (s s' : Assignment) : Prop where
  feasible : m.Feasible s'
  retired : ∀ k, m.symbols.root? k = none → s' k = s k
  assigned : ∀ k, (∃ spin, s' k = some spin) ↔ ∃ spin, s k = some spin
  le : s' = s ∨ m.problem.energy s' < m.problem.energy s

theorem Improves.refl (hs : m.Feasible s) : m.Improves s s :=
  ⟨hs, fun _ _ => rfl, fun _ => Iff.rfl, .inl rfl⟩

theorem Improves.trans {s' s'' : Assignment} (h : m.Improves s s') (h' : m.Improves s' s'') :
    m.Improves s s'' where
  feasible := h'.feasible
  retired k hk := (h'.retired k hk).trans (h.retired k hk)
  assigned k := (h'.assigned k).trans (h.assigned k)
  le := by
    rcases h.le with rfl | hlt
    · exact h'.le
    · rcases h'.le with rfl | hlt'
      · exact .inr hlt
      · exact .inr (hlt'.trans hlt)

/-- Assignments stay covered. -/
theorem Improves.covers {s' : Assignment} {n : Nat} (h : m.Improves s s') (hcovers : s.Covers n) :
    s'.Covers n := fun k hk => (h.assigned k).mpr (hcovers k hk)

/-- A feasible assignment can be improved to one that meets a forced spin. -/
theorem exists_improves (hm : m.WellLinked) (hroot : m.symbols.IsRoot i)
    (hchain : m.problem.inChain i = false)
    (hforced : m.problem.forcedSpin foldDominated i = some spin)
    (hpin : ∀ pin, m.problem.pinned.get? i = some pin → pin = spin)
    (hcovers : s.Covers m.symbols.size) (hs : m.Feasible s) :
    ∃ s', m.Improves s s' ∧ s' i = some spin := by
  by_cases hmeets : s i = some spin
  · exact ⟨s, .refl hs, hmeets⟩
  obtain ⟨hfeasible, hlt⟩ := improve_of_ne hm hroot hchain hforced hpin hcovers hs hmeets
  refine ⟨_, ⟨hfeasible, fun k hk => ?_, fun k => ?_, .inr hlt⟩, ?_⟩
  · simp [Symbols.reassign, hk]
  · unfold Symbols.reassign
    split
    · next hk =>
      have hklt : k < m.symbols.size := by
        by_contra hle
        rw [hm.links.root?_of_size_le (Nat.not_lt.mp hle)] at hk
        cases hk
        exact hle hroot.1
      exact ⟨fun _ => hcovers k hklt, fun _ => ⟨spin, rfl⟩⟩
    · rfl
  · simp [Symbols.reassign, Symbols.root?_of_none hroot.2]

/-- What improves an assignment after a variable is fixed improves it before, and keeps the spin of
the variable. -/
theorem Improves.of_fix {m₁ : Model ℚ} {s₁ s₂ : Assignment} (h : m₁.Improves s₁ s₂)
    (hfix : m.fix i spin = .ok m₁) (hm : m.WellLinked) (hroot : m.symbols.IsRoot i)
    (hchain : m.problem.inChain i = false)
    (hpin : ∀ pin, m.problem.pinned.get? i = some pin → pin = spin) (hi : s₁ i = some spin) :
    m.Improves s₁ s₂ ∧ s₂ i = some spin := by
  have hfixed := fixed_of_ok hfix hm hroot hchain
  have hretired : ∀ k, m.symbols.root? k = none ∨ k = i → m₁.symbols.root? k = none := by
    rintro k (hk | rfl)
    · rw [hfixed.root?, hk]
      rfl
    · rw [hfixed.root?, Symbols.root?_of_none hroot.2]
      simp
  have hi₂ : s₂ i = some spin := (h.retired i (hretired i (.inr rfl))).trans hi
  refine ⟨⟨(hfixed.feasible_iff hpin hi₂).mp h.feasible,
    fun k hk => h.retired k (hretired k (.inl hk)), h.assigned, ?_⟩, hi₂⟩
  rw [← energy_fix hfix hm hroot hi₂, ← energy_fix hfix hm hroot hi]
  exact h.le

/-- A feasible assignment can be improved to one that has the spins of a run of fixings. -/
theorem Fixes.exists_improves (h : Fixes foldDominated m log m') (hm : m.WellLinked)
    (hcovers : s.Covers m.symbols.size) (hs : m.Feasible s) :
    ∃ s', m.Improves s s' ∧ ∀ e ∈ log, s' e.1 = some e.2 := by
  induction h generalizing s with
  | done => exact ⟨s, .refl hs, by simp⟩
  | @fix m m₁ m' i spin log hroot hchain hforced hpin hfix _ ih =>
    have hfixed := fixed_of_ok hfix hm hroot hchain
    -- first meet the spin of this variable, then those of the rest of the run
    obtain ⟨s₁, hfirst, hi⟩ :=
      Model.exists_improves hm hroot hchain hforced hpin hcovers hs
    have hcovers₁ : s₁.Covers m₁.symbols.size := by
      rw [hfixed.size]
      exact hfirst.covers hcovers
    obtain ⟨s₂, hrest, hlog⟩ :=
      ih hfixed.wellLinked hcovers₁ ((hfixed.feasible_iff hpin hi).mpr hfirst.feasible)
    obtain ⟨hrest, hi₂⟩ := hrest.of_fix hfix hm hroot hchain hpin hi
    exact ⟨s₂, hfirst.trans hrest, List.forall_mem_cons.mpr ⟨hi₂, hlog⟩⟩

namespace Stages

variable {aliased fixed : Model ℚ} {r : Reduction}
  (h : m.Stages foldDominated r aliased fixed m') {t : Assignment}

include h

/-- An assignment of the new indices that meets the pins extends to one of the old indices that
meets the pins and the chains. -/
theorem extend_mem (hpending : m.symbols.pending = .empty) (ht : t.IsOver m'.symbols.size)
    (hpins : m'.problem.MeetsPins t) :
    (r.extend t).IsOver m.symbols.size ∧ m.problem.MeetsPins (r.extend t) ∧
      m.problem.MeetsChains (r.extend t) := by
  refine ⟨fun i => ⟨fun hi => ?_, h.covers_extend ht.covers i⟩, ?_⟩
  · by_contra hle
    rw [h.extend_of_size_le (Nat.not_lt.mp hle)] at hi
    obtain ⟨_, hi⟩ := hi
    cases hi
  · exact h.meets_extend hpending hpins

/-- An assignment that meets pins and chains and has the fixed spins is the extension of one of the
new indices that meets the new pins. -/
theorem exists_extend_eq (hpending : m.symbols.pending = .empty) (hs : s.IsOver m.symbols.size)
    (hpins : m.problem.MeetsPins s) (hchains : m.problem.MeetsChains s)
    (hfixings : ∀ e ∈ r.fixings, s e.1 = some e.2) :
    ∃ t : Assignment, t.IsOver m'.symbols.size ∧ m'.problem.MeetsPins t ∧ r.extend t = s := by
  have hfeasible := (h.feasible_aliased_iff hpending).mpr ⟨hpins, hchains⟩
  let t : Assignment := fun k => fixed.symbols.survivors[k]?.bind s
  have hroots : ∀ root, fixed.symbols.IsRoot root → s root = t (fixed.symbols.rank root) := by
    intro root hroot
    obtain ⟨hlt, hget⟩ := Symbols.exists_survivors_getElem hroot
    simp [t, List.getElem?_eq_getElem hlt, hget]
  refine ⟨t, fun k => ?_, ?_, funext fun i => ?_⟩
  · rw [h.size]
    constructor
    · rintro ⟨spin, hk⟩
      by_contra hle
      simp [t, List.getElem?_eq_none (Nat.not_lt.mp hle)] at hk
    · intro hk
      obtain ⟨root, hroot, rfl⟩ := Symbols.exists_rank_eq hk
      rw [← hroots root hroot]
      exact (hs root).mpr (by rw [← h.size_fixed]; exact hroot.1)
  · exact (h.meetsPins_iff hroots hfeasible.respects hfixings).mpr hfeasible
  · by_cases hi : i < m.symbols.size
    · obtain ⟨root, hroot⟩ := h.rooted i
      rw [h.isAliased.wellLinked.links.eq_root? hfeasible.respects hroot]
      cases hspin : r.fixings.spin? root with
      | some spin =>
        rw [h.extend_of_fixed hroot hspin]
        exact (hfixings _ (Fixings.mem_of_spin? hspin)).symm
      | none =>
        rw [h.extend_of_left hroot hspin hi, hroots root (h.isRoot_of_left hroot hspin hi)]
    · rw [h.extend_of_size_le (Nat.not_lt.mp hi), hs.eq_none (Nat.not_lt.mp hi)]

/-- An assignment that meets pins and chains is the extension of one that meets the new pins, or
such an extension has less energy. -/
theorem exists_extend_eq_or_lt (hover : m.problem.Over (· < m.symbols.size))
    (hpending : m.symbols.pending = .empty) (hs : s.IsOver m.symbols.size)
    (hpins : m.problem.MeetsPins s) (hchains : m.problem.MeetsChains s) :
    ∃ t : Assignment, t.IsOver m'.symbols.size ∧ m'.problem.MeetsPins t ∧
      (r.extend t = s ∨ m.problem.energy (r.extend t) < m.problem.energy s) := by
  have hfeasible := (h.feasible_aliased_iff hpending).mpr ⟨hpins, hchains⟩
  have hcovers : s.Covers aliased.symbols.size := by
    rw [h.isAliased.size]
    exact hs.covers
  obtain ⟨s', himproves, hfixings⟩ :=
    h.fixes.exists_improves h.isAliased.wellLinked hcovers hfeasible
  have hs' : s'.IsOver m.symbols.size := fun k => (himproves.assigned k).trans (hs k)
  obtain ⟨hpins', hchains'⟩ := (h.feasible_aliased_iff hpending).mp himproves.feasible
  obtain ⟨t, ht, htpins, rfl⟩ := h.exists_extend_eq hpending hs' hpins' hchains' hfixings
  refine ⟨t, ht, htpins, himproves.le.imp id fun hlt => ?_⟩
  rwa [h.energy_aliased hs'.covers himproves.feasible.respects hover hpending,
    h.energy_aliased hs.covers hfeasible.respects hover hpending] at hlt

/-- Different assignments of the new indices extend differently. -/
theorem extend_inj {u : Assignment} (ht : t.IsOver m'.symbols.size) (hu : u.IsOver m'.symbols.size)
    (heq : r.extend t = r.extend u) : t = u := by
  funext k
  by_cases hk : k < m'.symbols.size
  · obtain ⟨root, hroot, rfl⟩ := Symbols.exists_rank_eq (by rwa [h.size] at hk)
    rw [← h.extend_of_isRoot (t := t) hroot, heq, h.extend_of_isRoot hroot]
  · rw [ht.eq_none (Nat.not_lt.mp hk), hu.eq_none (Nat.not_lt.mp hk)]

/-- Extending is a bijection from the optima under the new pins to those under pins and chains. -/
theorem bijOn_optima (hover : m.problem.Over (· < m.symbols.size))
    (hpending : m.symbols.pending = .empty) :
    Set.BijOn r.extend
      (minimizers m'.problem.energy {t | t.IsOver m'.symbols.size ∧ m'.problem.MeetsPins t})
      (minimizers m.problem.energy
        {s | s.IsOver m.symbols.size ∧ m.problem.MeetsPins s ∧ m.problem.MeetsChains s}) := by
  refine bijOn_minimizers ?_ ?_ ?_ ?_
  · rintro t ⟨ht, hpins⟩
    exact h.extend_mem hpending ht hpins
  · rintro t ⟨ht, _⟩ u ⟨hu, _⟩ heq
    exact h.extend_inj ht hu heq
  · rintro t ⟨ht, _⟩
    exact h.energy_extend ht.covers hover hpending
  · rintro s ⟨hs, hpins, hchains⟩
    obtain ⟨t, ht, htpins, hle⟩ := h.exists_extend_eq_or_lt hover hpending hs hpins hchains
    exact ⟨t, ⟨ht, htpins⟩, hle⟩

end Stages

/-- A simplification keeps the optima: extending assignments is a bijection from the optima of the
simplified problem under its pins to those of the original problem under its pins and chains. -/
theorem bijOn_optima_simplify {report : SimplifyReport}
    (hover : m.problem.Over (· < m.symbols.size)) (hpending : m.symbols.pending = .empty)
    (h : m.simplify foldDominated = .ok (report, m')) :
    ∃ r, m.reduction foldDominated = .ok r ∧
      Set.BijOn r.extend
        (minimizers m'.problem.energy {t | t.IsOver m'.symbols.size ∧ m'.problem.MeetsPins t})
        (minimizers m.problem.energy
          {s | s.IsOver m.symbols.size ∧ m.problem.MeetsPins s ∧ m.problem.MeetsChains s}) := by
  obtain ⟨r, aliased, fixed, hr, hstages⟩ := stages_of_simplify hover hpending h
  exact ⟨r, hr, hstages.bijOn_optima hover hpending⟩

/-- A simplification that aliases the chained pair and fixes all variables. -/
theorem bijOn_optima_simplify_chainedPair :
    ∃ report m', chainedPair.simplify true = .ok (report, m') ∧
      ∃ r, chainedPair.reduction true = .ok r ∧
        Set.BijOn r.extend
          (minimizers m'.problem.energy {t | t.IsOver m'.symbols.size ∧ m'.problem.MeetsPins t})
          (minimizers chainedPair.problem.energy
            {s | s.IsOver chainedPair.symbols.size ∧ chainedPair.problem.MeetsPins s ∧
              chainedPair.problem.MeetsChains s}) := by
  have hsuccess : (chainedPair.simplify true).toOption.isSome = true := by decide +kernel
  cases h : chainedPair.simplify true with
  | error e =>
    rw [h] at hsuccess
    cases hsuccess
  | ok result => exact ⟨result.1, result.2, rfl, bijOn_optima_simplify over_chainedPair rfl h⟩

end Model

end SpinGlass

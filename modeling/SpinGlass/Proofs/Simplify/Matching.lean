import SpinGlass.Proofs.Simplify.Evident
import SpinGlass.Proofs.Simplify.Margin
import Mathlib.Logic.Equiv.Basic

/-!
# Models that differ in their indices

Two models match if a permutation of the indices takes the energy and the constraints of the one to
those of the other. What is tied, pinned, coupled or evident in the one is so in the other, hence
runs of inferences match as well.
-/

namespace SpinGlass

namespace Problem

variable {p : Problem ℚ} {live : Nat → Prop} {a b : Nat}

/-- The slope in one variable changes with another variable by their coupling. -/
theorem field_sub_field (hp : p.Over live) {x y : Nat → ℚ} (hsame : ∀ k, k ≠ b → x k = y k)
    (hne : a ≠ b) : p.field a x - p.field a y = p.strength a b * (x b - y b) := by
  let touching := p.strengths.filter fun q _ => q.contains a
  let term (z : Nat → ℚ) (q : Pair) (j : ℚ) : ℚ := j * z (q.other a)
  have htotal : ∀ z, p.field a z = p.weight a + touching.total (term z) := by
    intro z
    simp only [field, incident, Table.total, touching, term, Table.filter, List.map_map]
    rfl
  have hget : touching.get? (.of a b) = p.strengths.get? (.of a b) := by
    simp only [touching, Table.get?_filter, Pair.contains_of.mpr (.inl rfl)]
    cases p.strengths.get? (.of a b) <;> rfl
  have hrest : (touching.erase (.of a b)).total (term x) =
      (touching.erase (.of a b)).total (term y) := by
    refine Table.total_congr fun q j hq => ?_
    rw [Table.get?_erase] at hq
    split at hq
    · cases hq
    · next hother =>
      simp only [touching, Table.get?_filter, Option.filter_eq_some_iff] at hq
      have hpair := Pair.of_other (hp.strengths q j hq.1).1 hq.2
      have hb : q.other a ≠ b := by
        intro hb
        rw [hb] at hpair
        exact hother hpair.symm
      simp only [term, hsame _ hb]
  rw [Table.total_erase, Table.total_erase, hget] at hrest
  rw [htotal, htotal]
  unfold strength
  cases hj : p.strengths.get? (.of a b) with
  | none =>
    simp only [hj, Option.elim_none] at hrest
    rw [Option.getD_none]
    linarith
  | some j =>
    simp only [hj, Option.elim_some, term, Pair.other_of hne] at hrest
    rw [Option.getD_some]
    linarith

/-- A coupling shows in the energies of the four assignments of its ends. -/
theorem four_mul_strength (hp : p.Over live) (hmode : p.mode = .ising) (hne : a ≠ b)
    (s : Assignment) :
    let energy (x y : Spin) := p.energy (Function.update (Function.update s a (some x)) b (some y))
    4 * p.strength a b = energy .up .up - energy .down .up - (energy .up .down - energy .down .down)
    := by
  intro energy
  let others (y : Spin) : Nat → ℚ := value .ising (Function.update s b (some y))
  have hslope : ∀ y, energy .up y - energy .down y = 2 * p.field a (others y) := by
    intro y
    obtain ⟨rest, hlinear⟩ := objective_eq_add_field hp a (others y)
    have henergy : ∀ x : Spin,
        energy x y = rest + Coefficient.ofSpin x * p.field a (others y) := by
      intro x
      let t : Assignment := Function.update (Function.update s a (some x)) b (some y)
      have hself : t a = some x := by simp [t, hne]
      have hvalue : (value p.mode t a : ℚ) = Coefficient.ofSpin x := by
        rw [value_of_eq_some _ hself, hmode]
        rfl
      have hlin := hlinear (value p.mode t) fun k hk => by
        rw [hmode]
        refine value_congr _ ?_
        by_cases hkb : k = b
        · simp [t, hkb]
        · simp [t, hkb, hk]
      rw [hvalue, ← energy_eq_objective] at hlin
      exact hlin
    rw [henergy, henergy, Coefficient.ofSpin_up, Coefficient.ofSpin_down]
    ring
  have hother : ∀ y : Spin, others y b = Coefficient.ofSpin y := fun y =>
    value_of_eq_some _ (Function.update_self ..)
  have hfield := field_sub_field (x := others .up) (y := others .down) hp
    (fun k hk => value_congr _ (by simp [hk])) hne
  rw [hother, hother, Coefficient.ofSpin_up, Coefficient.ofSpin_down] at hfield
  rw [hslope, hslope]
  linarith

end Problem

namespace Model

/-- Two models over spins that are the same up to a permutation of the indices. -/
structure Matches (π : Equiv.Perm Nat) (m n : Model ℚ) : Prop where
  isOver : m.problem.Over (· < m.symbols.size)
  isOver' : n.problem.Over (· < n.symbols.size)
  mode : m.problem.mode = .ising
  mode' : n.problem.mode = .ising
  size : n.symbols.size = m.symbols.size
  lt_iff : ∀ i, π i < n.symbols.size ↔ i < m.symbols.size
  energy : ∀ s : Assignment, s.Covers n.symbols.size →
    n.problem.energy s = m.problem.energy (s ∘ π)
  meetsChains_iff : ∀ s : Assignment, n.problem.MeetsChains s ↔ m.problem.MeetsChains (s ∘ π)
  pinned : ∀ i, n.problem.pinned.get? (π i) = m.problem.pinned.get? i
  pinHelpers : ∀ i, n.problem.pinHelpers.get? (π i) = (m.problem.pinHelpers.get? i).map π

namespace Matches

variable {π : Equiv.Perm Nat} {m n : Model ℚ} {known s t : Assignment} {foldDominated : Bool}
  {i k : Nat} {spin : Spin} (h : Matches π m n)

include h

theorem covers_iff : Assignment.Covers (s ∘ π) m.symbols.size ↔ s.Covers n.symbols.size := by
  constructor
  · intro hs i hi
    obtain ⟨spin, hspin⟩ := hs (π.symm i) ((h.lt_iff _).mp (by rwa [π.apply_symm_apply]))
    exact ⟨spin, by rwa [Function.comp_apply, π.apply_symm_apply] at hspin⟩
  · intro hs i hi
    exact hs (π i) ((h.lt_iff i).mpr hi)

/-- The other way round, the inverse permutation takes one model to the other. -/
theorem symm : Matches π.symm n m where
  isOver := h.isOver'
  isOver' := h.isOver
  mode := h.mode'
  mode' := h.mode
  size := h.size.symm
  lt_iff i := by rw [← h.lt_iff, π.apply_symm_apply]
  energy s hs := by
    have hcomp : (s ∘ π.symm) ∘ π = s := by
      rw [Function.comp_assoc, π.symm_comp_self, Function.comp_id]
    have hcovers : Assignment.Covers (s ∘ π.symm) n.symbols.size := by
      rwa [← h.covers_iff, hcomp]
    rw [h.energy _ hcovers, hcomp]
  meetsChains_iff s := by
    rw [h.meetsChains_iff, Function.comp_assoc, π.symm_comp_self, Function.comp_id]
  pinned i := by rw [← h.pinned, π.apply_symm_apply]
  pinHelpers i := by
    have himage := h.pinHelpers (π.symm i)
    rw [π.apply_symm_apply] at himage
    rw [himage, Option.map_map, π.symm_comp_self, Option.map_id]
    rfl

theorem meetsPins_iff : n.problem.MeetsPins s ↔ m.problem.MeetsPins (s ∘ π) := by
  constructor
  · intro hs i spin hi
    exact hs (π i) spin ((h.pinned i).trans hi)
  · intro hs i spin hi
    have hspin := hs (π.symm i) spin (by rw [← h.pinned, π.apply_symm_apply, hi])
    rwa [Function.comp_apply, π.apply_symm_apply] at hspin

theorem isOver_iff : Assignment.IsOver (s ∘ π) m.symbols.size ↔ s.IsOver n.symbols.size := by
  constructor
  · intro hs i
    have hi := hs (π.symm i)
    rwa [Function.comp_apply, ← h.lt_iff, π.apply_symm_apply] at hi
  · intro hs i
    rw [Function.comp_apply, hs, h.lt_iff]

/-- Couplings match, because energies do. -/
theorem strength (a b : Nat) : n.problem.strength (π a) (π b) = m.problem.strength a b := by
  by_cases hab : a = b
  · have hself : ∀ {p : Problem ℚ} {live : Nat → Prop} {i : Nat}, p.Over live →
        p.strength i i = 0 := fun hp => by
      by_contra hne
      exact (hp.of_strength_ne_zero hne).1 rfl
    rw [hab, hself h.isOver', hself h.isOver]
  · let start : Assignment := fun _ => some .up
    let ends (a b : Nat) (x y : Spin) : Assignment :=
      Function.update (Function.update start a (some x)) b (some y)
    have hcovers : ∀ x y, (ends (π a) (π b) x y).Covers n.symbols.size := by
      intro x y k _
      simp only [ends, Function.update_apply]
      split
      · exact ⟨y, rfl⟩
      · split
        · exact ⟨x, rfl⟩
        · exact ⟨.up, rfl⟩
    have hcomp : ∀ x y, ends (π a) (π b) x y ∘ π = ends a b x y := by
      intro x y
      simp only [ends, Function.update_comp_eq_of_injective _ π.injective]
      rfl
    have henergy : ∀ x y, n.problem.energy (ends (π a) (π b) x y) =
        m.problem.energy (ends a b x y) := by
      intro x y
      rw [h.energy _ (hcovers x y), hcomp]
    have hn := Problem.four_mul_strength h.isOver' h.mode' (π.injective.ne hab) start
    have hm := Problem.four_mul_strength h.isOver h.mode hab start
    simp only [ends] at henergy
    simp only [henergy] at hn
    linarith

theorem tied (htied : m.Tied i k) : n.Tied (π i) (π k) := fun s hs =>
  htied (s ∘ π) ((h.meetsChains_iff s).mp hs)

theorem tied_iff : n.Tied (π i) (π k) ↔ m.Tied i k := by
  refine ⟨fun htied => ?_, h.tied⟩
  have hback := h.symm.tied htied
  rwa [π.symm_apply_apply, π.symm_apply_apply] at hback

theorem pinnedTo (hpin : m.PinnedTo i spin) : n.PinnedTo (π i) spin := by
  obtain ⟨k, hk, hpinned⟩ := hpin
  exact ⟨π k, h.tied hk, (h.pinned k).trans hpinned⟩

theorem pinnedTo_iff : n.PinnedTo (π i) spin ↔ m.PinnedTo i spin := by
  refine ⟨fun hpin => ?_, h.pinnedTo⟩
  have hback := h.symm.pinnedTo hpin
  rwa [π.symm_apply_apply] at hback

theorem released (hreleased : m.Released known i spin) :
    n.Released (known ∘ π.symm) (π i) spin where
  pinned := h.pinnedTo hreleased.pinned
  helped a b ha hb hnone hcoupled := by
    obtain ⟨a, rfl⟩ := π.surjective a
    obtain ⟨b, rfl⟩ := π.surjective b
    rw [Function.comp_apply, π.symm_apply_apply] at hnone
    rw [h.strength] at hcoupled
    obtain ⟨user, huser, htied⟩ := hreleased.helped a b (h.tied_iff.mp ha)
      (fun htied => hb (h.tied htied)) hnone hcoupled
    exact ⟨π user, by rw [h.pinHelpers, huser, Option.map_some], h.tied htied⟩

omit h in
theorem extends_comp (hs : s.Extends (known ∘ π.symm)) : Assignment.Extends (s ∘ π) known := by
  intro k spin hk
  refine hs (π k) spin ?_
  rw [Function.comp_apply, π.symm_apply_apply, hk]

theorem dominated (hdominated : m.Dominated known i spin) :
    n.Dominated (known ∘ π.symm) (π i) spin := by
  intro s t hs ht hsmeets htmeets hsknown htknown hsi hti hsame
  rw [h.energy s hs, h.energy t ht]
  refine hdominated (s ∘ π) (t ∘ π) (h.covers_iff.mpr hs) (h.covers_iff.mpr ht)
    ((h.meetsChains_iff s).mp hsmeets) ((h.meetsChains_iff t).mp htmeets) (extends_comp hsknown)
    (extends_comp htknown) hsi hti fun k hk => ?_
  exact hsame (π k) fun htied => hk (h.tied_iff.mp htied)

theorem evident (hevident : m.Evident foldDominated known i spin) :
    n.Evident foldDominated (known ∘ π.symm) (π i) spin :=
  hevident.imp h.released fun ⟨hfold, hdominated⟩ => ⟨hfold, h.dominated hdominated⟩

/-- A run of inferences in the one model is one in the other. -/
theorem infers (hinfers : m.Infers foldDominated known) :
    n.Infers foldDominated (known ∘ π.symm) := by
  induction hinfers with
  | start => exact .start
  | @step known known' i spin _ hlt hi hevident hpin hnew hold ih =>
    refine .step ih ((h.lt_iff i).mpr hlt) ?_ (h.evident hevident) (fun pin hpinned => ?_)
      (fun k hk => ?_) fun k hk => ?_
    · rw [Function.comp_apply, π.symm_apply_apply, hi]
    · exact hpin pin (h.pinnedTo_iff.mp hpinned)
    · obtain ⟨k, rfl⟩ := π.surjective k
      rw [Function.comp_apply, π.symm_apply_apply, hnew k (h.tied_iff.mp hk)]
    · obtain ⟨k, rfl⟩ := π.surjective k
      rw [Function.comp_apply, Function.comp_apply, π.symm_apply_apply,
        hold k fun htied => hk (h.tied htied)]

/-- So is a run that comes upon a contradiction. -/
theorem contradicts {pin : Spin} (hcontradicts : m.Contradicts foldDominated known i pin spin) :
    n.Contradicts foldDominated (known ∘ π.symm) (π i) pin spin where
  infers := h.infers hcontradicts.infers
  lt := (h.lt_iff i).mpr hcontradicts.lt
  unknown := by rw [Function.comp_apply, π.symm_apply_apply, hcontradicts.unknown]
  evident := h.evident hcontradicts.evident
  pinnedTo := h.pinnedTo hcontradicts.pinnedTo
  unreleased hreleased := by
    have hback := h.symm.released hreleased
    rw [Equiv.symm_symm, Function.comp_assoc, π.symm_comp_self, Function.comp_id,
      π.symm_apply_apply] at hback
    exact hcontradicts.unreleased hback
  ne := hcontradicts.ne

theorem settles (hsettles : m.Settles foldDominated known) :
    n.Settles foldDominated (known ∘ π.symm) := by
  intro i hlt spin hnone hevident
  have hback := h.symm.evident hevident
  rw [Equiv.symm_symm, Function.comp_assoc, π.symm_comp_self, Function.comp_id] at hback
  exact hsettles _ ((h.lt_iff _).mp (by rwa [π.apply_symm_apply])) spin hnone hback

end Matches

end Model

end SpinGlass

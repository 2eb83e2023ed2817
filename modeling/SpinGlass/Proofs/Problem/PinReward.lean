import SpinGlass.Proofs.Problem.PinStrength

/-!
# What a met pin earns

Both terms of a helper are decided by its user: where the user meets its pin, the helper earns twice
the strength by meeting its own, and where it does not, the two terms cancel. So the helpers can be
minimized one by one, and the least energy that an assignment of the variables leaves is its own
less twice the strength for each pin it meets.
-/

namespace SpinGlass.Model

/-- The pins among some that an assignment meets. -/
def met (pins : List (Nat × Spin)) (s : Assignment) : List (Nat × Spin) :=
  pins.filter fun e => s e.1 = some e.2

/-- The assignments that keep the spins of the variables and give one to every helper. -/
def completions (m : Model ℚ) (strength : ℚ) (s : Assignment) : Set Assignment :=
  {t | (∀ i < m.symbols.size, t i = s i) ∧
    ∀ helper user, (m.pinWithHelpers strength).problem.pinHelpers.get? helper = some user →
      ∃ spin, t helper = some spin}

section Reward

variable {m : Model ℚ} {strength : ℚ} {s t : Assignment}

theorem length_met_add_broken (pins : List (Nat × Spin)) (s : Assignment) :
    (met pins s).length + (broken pins s).length = pins.length := by
  have hsplit := List.length_eq_length_filter_add (l := pins) fun e => decide (s e.1 = some e.2)
  simp only [met, broken, decide_not, ne_eq]
  exact hsplit.symm

/-- Meeting every helper completes an assignment. -/
theorem withHelpers_mem_completions (hover : m.problem.Over (· < m.symbols.size))
    (hhelpers : m.problem.pinHelpers = .empty) : m.withHelpers s ∈ m.completions strength s := by
  refine ⟨fun i hi => withHelpers_of_lt hi, fun helper user huser => ?_⟩
  rw [get?_pinHelpers_pinWithHelpers hover, hhelpers] at huser
  split at huser
  · cases huser
  · next hle =>
    obtain ⟨e, he, -⟩ := Option.map_eq_some_iff.mp huser
    exact ⟨e.2, by simp [withHelpers, hle, he]⟩

variable (hmode : m.problem.mode = .ising) (hover : m.problem.Over (· < m.symbols.size))

include hmode hover

/-- A completion adds what the helpers add to the energy of the variables. -/
theorem energy_of_mem_completions (ht : t ∈ m.completions strength s)
    (husers : ∀ e ∈ m.problem.userPins, ∃ spin, s e.1 = some spin) :
    (m.pinWithHelpers strength).problem.energy t =
      m.problem.energy s + helperEnergy strength t m.problem.userPins m.symbols.size := by
  have hassigned : ∀ e ∈ m.problem.userPins, ∃ spin, t e.1 = some spin := by
    intro e he
    rw [ht.1 _ (hover.pinned _ _ (pinned_of_mem_userPins he))]
    exact husers e he
  unfold pinWithHelpers
  rw [energy_foldl_addHelper hmode hassigned, hover.energy_congr ht.1]

/-- The least energy of a completion: each pin that is met earns twice the strength. -/
theorem isLeast_energy_completions (hhelpers : m.problem.pinHelpers = .empty)
    (hstrength : strength ≤ 0)
    (hs : ∀ i spin, m.problem.pinned.get? i = some spin → ∃ spin, s i = some spin) :
    IsLeast ((m.pinWithHelpers strength).problem.energy '' m.completions strength s)
      (m.problem.energy s - 2 * |strength| * (met m.problem.pinned.entries s).length) := by
  have husers : ∀ e ∈ m.problem.userPins, ∃ spin, s e.1 = some spin := fun e he =>
    hs _ _ (pinned_of_mem_userPins he)
  -- the pins that are met are those that are not broken, for a completion as for the assignment
  have hreward : ∀ t ∈ m.completions strength s,
      2 * strength * (m.problem.userPins.length - (broken m.problem.userPins t).length : ℚ) =
        -(2 * |strength| * (met m.problem.pinned.entries s).length) := by
    intro t ht
    have hsame : broken m.problem.userPins t = broken m.problem.userPins s :=
      List.filter_congr fun e he => by
        rw [ht.1 _ (hover.pinned _ _ (pinned_of_mem_userPins he))]
    have hsplit := length_met_add_broken m.problem.userPins s
    rw [hsame, ← hsplit, ← userPins_eq hhelpers, abs_of_nonpos hstrength]
    push_cast
    ring
  have hassigned : ∀ t ∈ m.completions strength s,
      ∀ e ∈ m.problem.userPins, ∃ spin, t e.1 = some spin := by
    intro t ht e he
    rw [ht.1 _ (hover.pinned _ _ (pinned_of_mem_userPins he))]
    exact husers e he
  constructor
  · have hmem : m.withHelpers s ∈ m.completions strength s :=
      withHelpers_mem_completions hover hhelpers
    have hmet : ∀ k e, m.problem.userPins[k]? = some e →
        m.withHelpers s (m.symbols.size + k) = some e.2 := by
      intro k e he
      simp [withHelpers, he]
    refine ⟨_, hmem, ?_⟩
    rw [energy_of_mem_completions hmode hover hmem husers,
      helperEnergy_eq (hassigned _ hmem) hmet, hreward _ hmem]
    ring
  · rintro _ ⟨t, ht, rfl⟩
    have hhelper : ∀ k < m.problem.userPins.length,
        ∃ spin, t (m.symbols.size + k) = some spin := by
      intro k hk
      refine ht.2 _ (m.problem.userPins[k]).1 ?_
      rw [get?_pinHelpers_pinWithHelpers hover, if_neg (by omega), Nat.add_sub_cancel_left,
        List.getElem?_eq_getElem hk]
      rfl
    have hle := le_helperEnergy hstrength (hassigned t ht) hhelper
    rw [hreward t ht] at hle
    rw [energy_of_mem_completions hmode hover ht husers]
    linarith

end Reward

section Exact

variable {m : Model ℚ} {strength : ℚ}

/-- What helpers do, exactly: minimized over their spins they take twice the strength off the energy
for each pin that is met. So they hold all pins at every optimum if the strength outweighs the terms
of each pinned variable. -/
theorem pinWithHelpers_effect (hmode : m.problem.mode = .ising)
    (hover : m.problem.Over (· < m.symbols.size)) (hhelpers : m.problem.pinHelpers = .empty)
    (hstrength : strength ≤ 0) :
    (∀ s : Assignment, (∀ i ∈ m.problem.activeIndices, ∃ spin, s i = some spin) →
      IsLeast ((m.pinWithHelpers strength).problem.energy '' m.completions strength s)
        (m.problem.energy s - 2 * |strength| * (met m.problem.pinned.entries s).length)) ∧
    ((∀ i spin, m.problem.pinned.get? i = some spin →
        |m.problem.weight i| + ((m.problem.incident i).map fun e => |e.2|).sum < |strength|) →
      ∀ t ∈ minimizers (m.pinWithHelpers strength).problem.energy
          {t | t.IsOver (m.pinWithHelpers strength).symbols.size}, m.problem.MeetsPins t) := by
  refine ⟨fun s hs => ?_, fun hweighs t ht i spin hi => ?_⟩
  · refine isLeast_energy_completions hmode hover hhelpers hstrength fun i spin hi => ?_
    exact hs i (Problem.mem_activeIndices_iff.mpr (.inr (.inr ⟨spin, hi⟩)))
  · have hsum := m.problem.sum_abs_nonneg i
    have hpos : 0 < |strength| := by linarith [hweighs i spin hi, abs_nonneg (m.problem.weight i)]
    have hneg : strength < 0 := lt_of_le_of_ne hstrength (abs_pos.mp hpos)
    exact held_of_mem_optima hmode hover hhelpers hneg ht hi (hweighs i spin hi)

/-- With all variables up, the one pin of a variable with two neighbours is met, and its helper
takes `8` off the energy. -/
theorem pinWithHelpers_effect_pulled :
    IsLeast (((pulled 2).pinWithHelpers (-4)).problem.energy ''
        (pulled 2).completions (-4) fun i => if i < 3 then some .up else none) (-7) ∧
      ∀ t ∈ minimizers ((pulled 2).pinWithHelpers (-4)).problem.energy
          {t | t.IsOver ((pulled 2).pinWithHelpers (-4)).symbols.size},
        (pulled 2).problem.MeetsPins t := by
  have hneg : (-4 : ℚ) ≤ 0 := by norm_num
  obtain ⟨hleast, hheld⟩ := pinWithHelpers_effect rfl (over_pulled 2) rfl hneg
  constructor
  · have henergy := hleast (fun i => if i < 3 then some .up else none) fun i hi => by
      have hlt : i < 3 := (over_pulled 2).mem_activeIndices hi
      exact ⟨.up, if_pos hlt⟩
    rwa [show (pulled 2).problem.energy _ - _ = (-7 : ℚ) by decide +kernel] at henergy
  · refine hheld fun i spin hi => ?_
    have hlt : i < 3 := (over_pulled 2).pinned i spin hi
    obtain rfl | rfl | rfl : i = 0 ∨ i = 1 ∨ i = 2 := by omega
    · decide +kernel
    · cases hi
    · cases hi

end Exact

end SpinGlass.Model

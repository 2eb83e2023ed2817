import SpinGlass.Proofs.Problem.PinHelpers
import SpinGlass.Proofs.Simplify.Optima

/-!
# When helpers hold the pins

A broken pin costs twice the strength of its helper. So a pin is held at every optimum if the terms
of its variable together weigh less than the strength, and all pins are held exactly if breaking
some never gains as much as it costs. The default strength is four times the largest coefficient,
and outweighs a variable with at most two couplings.
-/

namespace SpinGlass.Model

section Completion

variable {m : Model ℚ} {strength : ℚ} {s t : Assignment}

/-- The spins of the variables, with every helper met. -/
def withHelpers (m : Model ℚ) (s : Assignment) : Assignment := fun i =>
  if i < m.symbols.size then s i else (m.problem.userPins[i - m.symbols.size]?).map Prod.snd

theorem withHelpers_of_lt {i : Nat} (hi : i < m.symbols.size) : m.withHelpers s i = s i := if_pos hi

theorem isOver_withHelpers (hs : s.Covers m.symbols.size) :
    (m.withHelpers s).IsOver (m.pinWithHelpers strength).symbols.size := by
  unfold pinWithHelpers
  rw [size_foldl_addHelper]
  intro i
  unfold withHelpers
  split
  · next hi => exact iff_of_true (hs i hi) (by omega)
  · next hi =>
    rw [← Option.isSome_iff_exists, Option.isSome_map, Option.isSome_iff_ne_none, Ne,
      List.getElem?_eq_none_iff]
    omega

variable (hmode : m.problem.mode = .ising) (hover : m.problem.Over (· < m.symbols.size))

include hmode hover

/-- With every helper met, each pin that is not broken adds twice the strength. -/
theorem energy_withHelpers (hs : s.Covers m.symbols.size) :
    (m.pinWithHelpers strength).problem.energy (m.withHelpers s) = m.problem.energy s +
      2 * strength * (m.problem.userPins.length - (broken m.problem.userPins s).length) := by
  have husers : ∀ e ∈ m.problem.userPins, e.1 < m.symbols.size := fun e he =>
    hover.pinned _ _ (pinned_of_mem_userPins he)
  have hsame : ∀ e ∈ m.problem.userPins, m.withHelpers s e.1 = s e.1 := fun e he =>
    withHelpers_of_lt (husers e he)
  have hbroken : broken m.problem.userPins (m.withHelpers s) = broken m.problem.userPins s :=
    List.filter_congr fun e he => by rw [hsame e he]
  have hhelpers : ∀ k e, m.problem.userPins[k]? = some e →
      m.withHelpers s (m.symbols.size + k) = some e.2 := by
    intro k e he
    simp [withHelpers, he]
  unfold pinWithHelpers
  rw [energy_foldl_addHelper hmode fun e he => ?_, helperEnergy_eq (fun e he => ?_) hhelpers,
    hbroken, hover.energy_congr fun i hi => withHelpers_of_lt hi]
  · rw [hsame e he]
    exact hs _ (husers e he)
  · rw [hsame e he]
    exact hs _ (husers e he)

/-- Meeting every helper does not raise the energy. -/
theorem energy_withHelpers_le (hstrength : strength ≤ 0)
    (ht : t.Covers (m.pinWithHelpers strength).symbols.size) :
    (m.pinWithHelpers strength).problem.energy (m.withHelpers t) ≤
      (m.pinWithHelpers strength).problem.energy t := by
  have hsize : (m.pinWithHelpers strength).symbols.size =
      m.symbols.size + m.problem.userPins.length := size_foldl_addHelper _
  have hcovers : t.Covers m.symbols.size := fun i hi => ht i (by omega)
  have husers : ∀ e ∈ m.problem.userPins, ∃ spin, t e.1 = some spin := fun e he =>
    hcovers _ (hover.pinned _ _ (pinned_of_mem_userPins he))
  rw [energy_withHelpers hmode hover hcovers]
  unfold pinWithHelpers
  rw [energy_foldl_addHelper hmode husers]
  gcongr
  exact le_helperEnergy hstrength husers fun k hk => ht _ (by omega)

/-- The optima with helpers weigh what a broken pin saves against twice the strength. -/
theorem mem_optima_le (hstrength : strength ≤ 0)
    (ht : t ∈ minimizers (m.pinWithHelpers strength).problem.energy
      {t | t.IsOver (m.pinWithHelpers strength).symbols.size}) (hs : s.Covers m.symbols.size) :
    m.problem.energy t + 2 * |strength| * (broken m.problem.userPins t).length ≤
      m.problem.energy s + 2 * |strength| * (broken m.problem.userPins s).length := by
  obtain ⟨hover', hleast⟩ := ht
  have hsize : (m.pinWithHelpers strength).symbols.size =
      m.symbols.size + m.problem.userPins.length := size_foldl_addHelper _
  have hcovers : t.Covers m.symbols.size := fun i hi => (hover' i).mpr (by omega)
  have hle := (energy_withHelpers_le hmode hover hstrength hover'.covers).trans
    (hleast _ (isOver_withHelpers hs))
  rw [energy_withHelpers hmode hover hcovers, energy_withHelpers hmode hover hs] at hle
  rw [abs_of_nonpos hstrength]
  linarith

/-- An assignment that weighs no more than an optimum is an optimum once its helpers are met. -/
theorem withHelpers_mem_optima (hstrength : strength ≤ 0)
    (ht : t ∈ minimizers (m.pinWithHelpers strength).problem.energy
      {t | t.IsOver (m.pinWithHelpers strength).symbols.size}) (hs : s.Covers m.symbols.size)
    (hle : m.problem.energy s + 2 * |strength| * (broken m.problem.userPins s).length ≤
      m.problem.energy t + 2 * |strength| * (broken m.problem.userPins t).length) :
    m.withHelpers s ∈ minimizers (m.pinWithHelpers strength).problem.energy
      {t | t.IsOver (m.pinWithHelpers strength).symbols.size} := by
  obtain ⟨hover', hleast⟩ := ht
  have hsize : (m.pinWithHelpers strength).symbols.size =
      m.symbols.size + m.problem.userPins.length := size_foldl_addHelper _
  have hcovers : t.Covers m.symbols.size := fun i hi => (hover' i).mpr (by omega)
  refine ⟨isOver_withHelpers hs, fun u hu => le_trans ?_ (hleast u hu)⟩
  refine le_trans ?_ (energy_withHelpers_le hmode hover hstrength hover'.covers)
  rw [energy_withHelpers hmode hover hcovers, energy_withHelpers hmode hover hs]
  rw [abs_of_nonpos hstrength] at hle
  linarith

end Completion

section Held

variable {m : Model ℚ} {strength : ℚ} {t : Assignment} {i : Nat} {spin : Spin}

/-- Meeting one more pin breaks fewer. -/
theorem length_broken_update (p : Problem ℚ) (hpin : p.pinned.get? i = some spin)
    (hne : t i ≠ some spin) :
    (broken p.pinned.entries (Function.update t i (some spin))).length <
      (broken p.pinned.entries t).length := by
  have hfilter : broken p.pinned.entries (Function.update t i (some spin)) =
      (broken p.pinned.entries t).filter fun e => e.1 ≠ i := by
    unfold broken
    rw [List.filter_filter]
    refine List.filter_congr fun e he => ?_
    by_cases heq : e.1 = i
    · have hget := Table.get?_eq_some_iff.mpr he
      rw [heq, hpin, Option.some.injEq] at hget
      simp [heq, hget]
    · simp [heq]
  rw [hfilter, List.length_filter_lt_length_iff_exists]
  refine ⟨(i, spin), List.mem_filter.mpr ⟨Table.get?_eq_some_iff.mp hpin, by simpa using hne⟩, ?_⟩
  simp

/-- Another spin for a variable raises the energy by at most twice the magnitudes of its terms. -/
theorem energy_update_le {p : Problem ℚ} {n : Nat} (hmode : p.mode = .ising)
    (hover : p.Over (· < n)) (ht : t.Covers n) (hi : i < n) (spin : Spin) :
    p.energy (Function.update t i (some spin)) ≤
      p.energy t + 2 * (|p.weight i| + ((p.incident i).map fun e => |e.2|).sum) := by
  let old : Nat → ℚ := Problem.value p.mode t
  let new : Nat → ℚ := Problem.value p.mode (Function.update t i (some spin))
  obtain ⟨rest, hlinear⟩ := Problem.objective_eq_add_field hover i old
  have hbound := abs_le.mp (Problem.abs_field_sub_weight_le (p := p) (i := i) (x := old)
    fun e he => hmode ▸ Problem.isValue_value p.mode (ht _ (Problem.mem_incident hover he).1))
  have hweight := abs_le.mp (le_refl |p.weight i|)
  have hsame : ∀ k, k ≠ i → new k = old k := fun k hk =>
    Problem.value_congr _ (Function.update_of_ne hk _ _)
  have hnew : new i = Coefficient.ofSpin spin := by
    simp only [new, hmode]
    exact Problem.value_of_eq_some _ (Function.update_self ..)
  obtain ⟨other, hother⟩ := ht i hi
  have hold : old i = Coefficient.ofSpin other := by
    simp only [old, hmode]
    exact Problem.value_of_eq_some _ hother
  rw [Problem.energy_eq_objective, Problem.energy_eq_objective, hlinear new hsame,
    hlinear old fun _ _ => rfl, hnew, hold]
  cases spin <;> cases other <;> simp only [Coefficient.ofSpin, Coefficient.one_eq] <;> linarith

/-- The pins with helpers are the pins without, and one for each helper. -/
theorem meetsPins_pinWithHelpers_iff (hover : m.problem.Over (· < m.symbols.size)) :
    (m.pinWithHelpers strength).problem.MeetsPins t ↔ m.problem.MeetsPins t ∧
      ∀ k e, m.problem.userPins[k]? = some e → t (m.symbols.size + k) = some e.2 := by
  have hget := get?_pinned_pinWithHelpers hover strength
  unfold Problem.MeetsPins
  constructor
  · intro hmeets
    refine ⟨fun i spin hi => hmeets i spin ?_, fun k e he => hmeets _ _ ?_⟩
    · rw [hget, if_pos (hover.pinned i spin hi), hi]
    · rw [hget, if_neg (by omega), Nat.add_sub_cancel_left, he]
      rfl
  · rintro ⟨hmeets, hhelpers⟩ i spin hi
    rw [hget] at hi
    split at hi
    · exact hmeets i spin hi
    · next hle =>
      obtain ⟨e, he, rfl⟩ := Option.map_eq_some_iff.mp hi
      have hi := hhelpers _ e he
      rwa [Nat.add_sub_cancel' (Nat.not_lt.mp hle)] at hi

/-- Without helpers, all pins are met where no pin of the user is broken. -/
theorem meetsPins_iff_broken (hhelpers : m.problem.pinHelpers = .empty) (s : Assignment) :
    m.problem.MeetsPins s ↔ broken m.problem.userPins s = [] := by
  unfold broken Problem.MeetsPins
  rw [userPins_eq hhelpers, List.filter_eq_nil_iff]
  simp [Table.get?_eq_some_iff]

variable (hmode : m.problem.mode = .ising) (hover : m.problem.Over (· < m.symbols.size))
  (hhelpers : m.problem.pinHelpers = .empty) (hstrength : strength < 0)

include hmode hover hhelpers hstrength

/-- A pin that outweighs the terms of its variable is held at every optimum. -/
theorem held_of_mem_optima
    (ht : t ∈ minimizers (m.pinWithHelpers strength).problem.energy
      {t | t.IsOver (m.pinWithHelpers strength).symbols.size})
    (hpin : m.problem.pinned.get? i = some spin)
    (hweighs : |m.problem.weight i| + ((m.problem.incident i).map fun e => |e.2|).sum <
      |strength|) : t i = some spin := by
  by_contra hne
  have hsize : (m.pinWithHelpers strength).symbols.size =
      m.symbols.size + m.problem.userPins.length := size_foldl_addHelper _
  have hcovers : t.Covers m.symbols.size := fun k hk => (ht.1 k).mpr (by omega)
  have hi := hover.pinned i spin hpin
  have hcovers' : Assignment.Covers (Function.update t i (some spin)) m.symbols.size := by
    intro k hk
    by_cases hki : k = i
    · exact ⟨spin, by rw [hki, Function.update_self]⟩
    · rw [Function.update_of_ne hki]
      exact hcovers k hk
  -- meeting the pin gains more than it costs
  have hle := mem_optima_le hmode hover hstrength.le ht hcovers'
  have hcost := energy_update_le hmode hover hcovers hi spin
  have hgain := length_broken_update m.problem hpin hne
  rw [userPins_eq hhelpers] at hle
  have hgain : ((broken m.problem.pinned.entries
      (Function.update t i (some spin))).length : ℚ) + 1 ≤
        (broken m.problem.pinned.entries t).length := by exact_mod_cast hgain
  have hpos : 0 < |strength| := abs_pos.mpr hstrength.ne
  nlinarith

/-- All pins are held at every optimum exactly if no assignment gains as much by the pins it breaks
as that costs. -/
theorem forall_optima_meetsPins_iff :
    (∀ t ∈ minimizers (m.pinWithHelpers strength).problem.energy
        {t | t.IsOver (m.pinWithHelpers strength).symbols.size},
      (m.pinWithHelpers strength).problem.MeetsPins t) ↔
    ∀ s : Assignment, s.Covers m.symbols.size → ¬ m.problem.MeetsPins s →
      ∃ s' : Assignment, s'.Covers m.symbols.size ∧ m.problem.MeetsPins s' ∧
        m.problem.energy s' <
          m.problem.energy s + 2 * |strength| * (broken m.problem.userPins s).length := by
  have hsize : (m.pinWithHelpers strength).symbols.size =
      m.symbols.size + m.problem.userPins.length := size_foldl_addHelper _
  have hcovers : ∀ t : Assignment, t.IsOver (m.pinWithHelpers strength).symbols.size →
      t.Covers m.symbols.size := fun t ht k hk => (ht k).mpr (by omega)
  have hnone : ∀ s, m.problem.MeetsPins s → ((broken m.problem.userPins s).length : ℚ) = 0 := by
    intro s hs
    rw [Nat.cast_eq_zero, List.length_eq_zero_iff]
    exact (meetsPins_iff_broken hhelpers s).mp hs
  constructor
  · intro hheld s hs hbreaks
    obtain ⟨t, ht⟩ : (minimizers (m.pinWithHelpers strength).problem.energy
        {t | t.IsOver (m.pinWithHelpers strength).symbols.size}).Nonempty :=
      exists_mem_minimizers _ Set.Subset.rfl ⟨_, Assignment.isOver_const .up _⟩
    have hmeets := ((meetsPins_pinWithHelpers_iff hover).mp (hheld t ht)).1
    refine ⟨t, hcovers t ht.1, hmeets, ?_⟩
    by_contra hge
    -- then the assignment would be an optimum itself, with a broken pin
    have hmem := withHelpers_mem_optima hmode hover hstrength.le ht hs (by
      rw [hnone t hmeets, mul_zero, add_zero]
      exact not_lt.mp hge)
    have hmeets' := ((meetsPins_pinWithHelpers_iff hover).mp (hheld _ hmem)).1
    refine hbreaks fun i spin hi => ?_
    rw [← hmeets' i spin hi, withHelpers_of_lt (hover.pinned i spin hi)]
  · intro hgains t ht
    have hmeets : m.problem.MeetsPins t := by
      by_contra hbreaks
      obtain ⟨s, hs, hpins, hlt⟩ := hgains t (hcovers t ht.1) hbreaks
      have hle := mem_optima_le hmode hover hstrength.le ht hs
      rw [hnone s hpins, mul_zero, add_zero] at hle
      exact absurd hlt (not_lt.mpr hle)
    refine (meetsPins_pinWithHelpers_iff hover).mpr ⟨hmeets, ?_⟩
    have husers : ∀ e ∈ m.problem.userPins, t e.1 = some e.2 := fun e he =>
      hmeets _ _ (pinned_of_mem_userPins he)
    refine met_of_helperEnergy_le hstrength husers (fun k hk => (ht.1 _).mpr (by omega)) ?_
    have hle := ht.2 (m.withHelpers t) (isOver_withHelpers (hcovers t ht.1))
    rw [energy_withHelpers hmode hover (hcovers t ht.1), hnone t hmeets, sub_zero] at hle
    unfold pinWithHelpers at hle
    rw [energy_foldl_addHelper hmode fun e he => ⟨_, husers e he⟩] at hle
    linarith

end Held

/-- The default strength of a chain is twice a bound on all coefficients. -/
theorem exists_defaultChain (p : Problem ℚ) : ∃ bound : ℚ, 0 < bound ∧
    p.defaultChainStrength = -(2 * bound) ∧
      (∀ i w, p.weights.get? i = some w → |w| ≤ bound) ∧
      ∀ q j, p.strengths.get? q = some j → |j| ≤ bound := by
  let largest := max p.maxAbsWeight p.maxAbsStrength
  have hlargest : 0 ≤ largest :=
    (Coefficient.largestMagnitude_nonneg p.weights.values).trans (le_max_left _ _)
  have hchain : ∀ bound, bound = (if largest = 0 then 1 else largest) →
      p.defaultChainStrength = -(2 * bound) := by
    rintro _ rfl
    simp only [Problem.defaultChainStrength, Coefficient.larger_eq_max, Coefficient.isZero_iff,
      Coefficient.one_eq, Coefficient.ofNat_eq]
    push_cast
    ring
  have hle : largest ≤ if largest = 0 then 1 else largest := by
    split
    · next hzero => exact hzero.le.trans zero_le_one
    · exact le_rfl
  refine ⟨_, ?_, hchain _ rfl, fun i w hi => ?_, fun q j hq => ?_⟩
  · split
    · exact one_pos
    · next hne => exact lt_of_le_of_ne hlargest (Ne.symm hne)
  · have hmax : |w| ≤ p.maxAbsWeight :=
      Coefficient.abs_le_largestMagnitude (Table.mem_values_of_get? hi)
    exact hmax.trans ((le_max_left _ _).trans hle)
  · have hmax : |j| ≤ p.maxAbsStrength :=
      Coefficient.abs_le_largestMagnitude (Table.mem_values_of_get? hq)
    exact hmax.trans ((le_max_right _ _).trans hle)

/-- The default strength of a pin is four times a bound on all coefficients. -/
theorem exists_defaultPin (p : Problem ℚ) : ∃ bound : ℚ, 0 < bound ∧
    (p.assignStrengths none none).pin = -(4 * bound) ∧ ∀ i, |p.weight i| ≤ bound ∧
      ∀ e ∈ p.incident i, |e.2| ≤ bound := by
  obtain ⟨bound, hbound, hchain, hweights, hstrengths⟩ := exists_defaultChain p
  refine ⟨bound, hbound, ?_, fun i => ⟨?_, fun e he => ?_⟩⟩
  · simp only [Problem.assignStrengths, Option.getD_none, hchain, Coefficient.ofNat_eq]
    push_cast
    ring
  · unfold Problem.weight
    cases hi : p.weights.get? i with
    | none =>
      rw [Option.getD_none, abs_zero]
      exact hbound.le
    | some w => exact hweights i w hi
  · obtain ⟨entry, hentry, rfl⟩ := List.mem_map.mp he
    exact hstrengths _ _ (Table.get?_eq_some_iff.mpr (List.mem_filter.mp hentry).1)

/-- Couplings that are bounded weigh as much as the bound for each together. -/
theorem sum_incident_le {p : Problem ℚ} {i : Nat} {bound : ℚ}
    (h : ∀ e ∈ p.incident i, |e.2| ≤ bound) :
    ((p.incident i).map fun e => |e.2|).sum ≤ (p.incident i).length * bound := by
  have hbound : ∀ x ∈ (p.incident i).map fun e => |e.2|, x ≤ bound := by
    intro x hx
    obtain ⟨e, he, rfl⟩ := List.mem_map.mp hx
    exact h e he
  have hle := List.sum_le_card_nsmul _ bound hbound
  rwa [List.length_map, nsmul_eq_mul] at hle

/-- What helpers of the default strength hold: every pin whose variable has at most two couplings,
or whose terms weigh less than the strength together. They hold all pins exactly if no assignment
gains as much by the pins it breaks as that costs. -/
theorem held_of_defaultPin {m : Model ℚ} {strength : ℚ} (hmode : m.problem.mode = .ising)
    (hover : m.problem.Over (· < m.symbols.size)) (hhelpers : m.problem.pinHelpers = .empty)
    (hstrength : (m.problem.assignStrengths none none).pin = strength) :
    (∀ t ∈ minimizers (m.pinWithHelpers strength).problem.energy
        {t | t.IsOver (m.pinWithHelpers strength).symbols.size},
      ∀ i spin, m.problem.pinned.get? i = some spin →
        (m.problem.incident i).length ≤ 2 ∨
          |m.problem.weight i| + ((m.problem.incident i).map fun e => |e.2|).sum < |strength| →
        t i = some spin) ∧
    ((∀ t ∈ minimizers (m.pinWithHelpers strength).problem.energy
          {t | t.IsOver (m.pinWithHelpers strength).symbols.size},
        (m.pinWithHelpers strength).problem.MeetsPins t) ↔
      ∀ s : Assignment, s.Covers m.symbols.size → ¬ m.problem.MeetsPins s →
        ∃ s' : Assignment, s'.Covers m.symbols.size ∧ m.problem.MeetsPins s' ∧
          m.problem.energy s' <
            m.problem.energy s + 2 * |strength| * (broken m.problem.userPins s).length) := by
  obtain ⟨bound, hbound, hpin, hcoefficients⟩ := exists_defaultPin m.problem
  rw [hstrength] at hpin
  have hneg : strength < 0 := by linarith
  refine ⟨fun t ht i spin hi hweighs => ?_, forall_optima_meetsPins_iff hmode hover hhelpers hneg⟩
  refine held_of_mem_optima hmode hover hhelpers hneg ht hi (hweighs.elim (fun hfew => ?_) id)
  -- a weight and two couplings make up three quarters of the strength at most
  obtain ⟨hweight, hincident⟩ := hcoefficients i
  have hfew : ((m.problem.incident i).length : ℚ) * bound ≤ 2 * bound :=
    mul_le_mul_of_nonneg_right (Nat.cast_le_ofNat.mpr hfew) hbound.le
  have hsum := (sum_incident_le hincident).trans hfew
  have hfour : |strength| = 4 * bound := by
    rw [hpin, abs_neg, abs_of_pos (mul_pos four_pos hbound)]
  linarith only [hweight, hsum, hfour, hbound]

/-- A variable that is pinned up and has a number of neighbours that pull it down. -/
def pulled (neighbours : Nat) : Model ℚ where
  problem :=
    let p := (List.range neighbours).foldl
      (fun p k => (p.addWeight (k + 1) (-1)).addStrength 0 (k + 1) 1)
      ((Problem.empty .ising).addWeight 0 1)
    { p with pinned := p.pinned.insert 0 .up }
  symbols := ⟨.ofList ((List.range (neighbours + 1)).map fun k => ("A" ++ toString k, k)),
    neighbours + 1, .empty, 0⟩

theorem over_pulled (neighbours : Nat) :
    (pulled neighbours).problem.Over (· < (pulled neighbours).symbols.size) := by
  have hzero : 0 < neighbours + 1 := Nat.zero_lt_succ _
  have hterms := List.foldlRecOn (List.range neighbours)
    (fun (p : Problem ℚ) k => (p.addWeight (k + 1) (-1)).addStrength 0 (k + 1) 1)
    (motive := fun p => p.Over (· < neighbours + 1))
    ((Problem.over_empty (K := ℚ) .ising).addWeight (i := 0) hzero 1) fun p hp k hk => by
      have hk : k + 1 < neighbours + 1 := Nat.succ_lt_succ (List.mem_range.mp hk)
      exact (hp.addWeight hk (-1)).addStrength hzero hk 1
  exact hterms.insertPin hzero .up

/-- Two neighbours do not pull a variable away from its pin. -/
theorem held_of_defaultPin_pulled :
    ((pulled 2).problem.assignStrengths none none).pin = -4 ∧
      ∀ t ∈ minimizers ((pulled 2).pinWithHelpers (-4)).problem.energy
        {t | t.IsOver ((pulled 2).pinWithHelpers (-4)).symbols.size}, t 0 = some .up := by
  have hstrength : ((pulled 2).problem.assignStrengths none none).pin = -4 := by decide +kernel
  refine ⟨hstrength, fun t ht => ?_⟩
  obtain ⟨hheld, _⟩ := held_of_defaultPin rfl (over_pulled 2) rfl hstrength
  exact hheld t ht 0 .up rfl (.inl (by decide +kernel))

/-- Four neighbours do: the default strength does not hold all pins. -/
theorem exists_broken_optimum :
    ¬ ∀ (m : Model ℚ) (strength : ℚ), m.problem.mode = .ising →
      m.problem.Over (· < m.symbols.size) → m.problem.pinHelpers = .empty →
      m.problem.chains = .empty → (m.problem.assignStrengths none none).pin = strength →
      ∀ t ∈ minimizers (m.pinWithHelpers strength).problem.energy
          {t | t.IsOver (m.pinWithHelpers strength).symbols.size},
        (m.pinWithHelpers strength).problem.MeetsPins t := by
  intro hall
  have hheld := hall (pulled 4) (-4) rfl (over_pulled 4) rfl rfl (by decide +kernel)
  let outvoted : Assignment := fun i =>
    if i = 0 then some .down else if i < 5 then some .up else none
  have hcovers : outvoted.Covers 5 := by
    intro i hi
    simp only [outvoted, if_pos hi]
    split
    · exact ⟨_, rfl⟩
    · exact ⟨_, rfl⟩
  obtain ⟨s, hs, hpins, hlt⟩ := (forall_optima_meetsPins_iff rfl (over_pulled 4) rfl
    (by norm_num)).mp hheld outvoted hcovers fun hmeets => absurd (hmeets 0 .up rfl) (by decide)
  -- where the pin is met, the neighbours do not matter
  have henergy : (pulled 4).problem.energy s = 1 := by
    have hfirst : s 0 = some .up := hpins 0 .up rfl
    obtain ⟨a, ha⟩ := hs 1 (by decide)
    obtain ⟨b, hb⟩ := hs 2 (by decide)
    obtain ⟨c, hc⟩ := hs 3 (by decide)
    obtain ⟨d, hd⟩ := hs 4 (by decide)
    rw [(over_pulled 4).energy_congr (t := fun i => [.up, a, b, c, d][i]?) fun i hi => ?_]
    · cases a <;> cases b <;> cases c <;> cases d <;> decide +kernel
    · have hi : i < 5 := hi
      obtain rfl | rfl | rfl | rfl | rfl : i = 0 ∨ i = 1 ∨ i = 2 ∨ i = 3 ∨ i = 4 := by omega
      · exact hfirst
      · exact ha
      · exact hb
      · exact hc
      · exact hd
  rw [henergy] at hlt
  exact absurd hlt (by decide +kernel)

end SpinGlass.Model

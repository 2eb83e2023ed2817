import SpinGlass.Proofs.Simplify.Dominance

/-!
# Dominance by energies

A spin dominates if it is better than the other by more than the margin in every environment. The
worst environment has each neighbour at the spin that its coupling resents most, so the bound that a
simplification computes from the couplings is no coarser than that.
-/

namespace SpinGlass

/-- The other end of a pair of two indices. -/
theorem Pair.other_of {a b : Nat} (hne : a ≠ b) : (of a b).other a = b := by
  unfold of other
  split
  · exact if_pos rfl
  · exact if_neg (Ne.symm hne)

namespace Problem

variable {p : Problem ℚ} {live : Nat → Prop} {i : Nat} {spin : Spin}

/-- Only live variables are coupled, and none to itself. -/
theorem Over.of_strength_ne_zero {a b : Nat} (hp : p.Over live) (h : p.strength a b ≠ 0) :
    a ≠ b ∧ live a ∧ live b := by
  cases hget : p.strengths.get? (.of a b) with
  | none =>
    unfold strength at h
    rw [hget] at h
    exact absurd rfl h
  | some j => exact Pair.joins_of_iff.mp (hp.strengths _ _ hget)

/-- The quadratic terms of a variable are those stored under a pair with it. -/
theorem mem_incident_iff {K : Type} [Coefficient K] {p : Problem K} (hp : p.Over live)
    {t : Nat × K} : t ∈ p.incident i ↔ t.1 ≠ i ∧ p.strengths.get? (.of i t.1) = some t.2 := by
  unfold incident
  rw [List.mem_map]
  constructor
  · rintro ⟨e, he, rfl⟩
    obtain ⟨hmem, hi⟩ := List.mem_filter.mp he
    have hget := Table.get?_eq_some_iff.mpr hmem
    have hlt := (hp.strengths e.1 e.2 hget).1
    refine ⟨Pair.other_ne hlt, ?_⟩
    rw [Pair.of_other hlt hi, hget]
  · rintro ⟨hne, hget⟩
    refine ⟨(.of i t.1, t.2), List.mem_filter.mpr ⟨Table.get?_eq_some_iff.mp hget, ?_⟩, ?_⟩
    · exact Pair.contains_of.mpr (.inl rfl)
    · rw [Pair.other_of (Ne.symm hne)]

/-- What a dominating linear term has to outweigh. -/
theorem dominatingSpin_eq_some_iff (hmode : p.mode = .ising) :
    p.dominatingSpin i (p.incident i) = some spin ↔
      dominanceMargin < -Coefficient.ofSpin spin * p.weight i -
        ((p.incident i).map fun t => |t.2|).sum := by
  have hmargin := dominanceMargin_pos
  have hsum := sum_abs_nonneg p i
  unfold dominatingSpin
  simp only [hmode, Coefficient.magnitude_eq_abs, Coefficient.sum_eq]
  by_cases hpos : 0 < p.weight i
  · rw [abs_of_pos hpos, if_pos hpos]
    cases spin with
    | down =>
      rw [Coefficient.ofSpin_down, neg_neg, one_mul, ite_eq_left_iff]
      simp [lt_sub_iff_add_lt]
    | up =>
      rw [Coefficient.ofSpin_up]
      constructor
      · intro h
        split at h <;> cases h
      · intro h
        linarith
  · rw [abs_of_nonpos (not_lt.mp hpos), if_neg hpos]
    cases spin with
    | up =>
      rw [Coefficient.ofSpin_up, neg_one_mul, ite_eq_left_iff]
      simp [lt_sub_iff_add_lt]
    | down =>
      rw [Coefficient.ofSpin_down]
      constructor
      · intro h
        split at h <;> cases h
      · intro h
        linarith

/-- A variable whose spin is forced is active: it is pinned, or it has a linear term. -/
theorem mem_activeIndices_of_forcedSpin {foldDominated : Bool} (hmode : p.mode = .ising)
    (h : p.forcedSpin foldDominated i = some spin) : i ∈ p.activeIndices := by
  rw [mem_activeIndices_iff]
  unfold forcedSpin at h
  rcases Option.or_eq_some_iff.mp h with hreleased | ⟨_, hdominated⟩
  · unfold releasedPin at hreleased
    split at hreleased
    · exact .inr (.inr ⟨spin, hreleased⟩)
    · cases hreleased
  · split at hdominated
    · have hmargin := dominanceMargin_pos
      have hlt := (dominatingSpin_eq_some_iff hmode).mp hdominated
      have hsum := sum_abs_nonneg p i
      cases hweight : p.weights.get? i with
      | some w => exact .inl ⟨w, rfl⟩
      | none =>
        have hzero : p.weight i = 0 := by
          unfold weight
          rw [hweight, Option.getD_none]
        rw [hzero, mul_zero] at hlt
        linarith
    · cases hdominated

/-- A spin dominates if the slope favours it by more than the margin whatever the neighbours are. -/
theorem dominatingSpin_iff_field (hp : p.Over live) (hmode : p.mode = .ising) :
    p.dominatingSpin i (p.incident i) = some spin ↔
      ∀ others : Nat → Spin, dominanceMargin <
        -Coefficient.ofSpin spin * p.field i fun k => Coefficient.ofSpin (others k) := by
  rw [dominatingSpin_eq_some_iff hmode]
  constructor
  · intro h others
    have hbound := abs_le.mp (abs_field_sub_weight_le (p := p) (i := i)
      (x := fun k => Coefficient.ofSpin (others k)) fun t _ => Mode.isValue_ofSpinIn .ising _)
    generalize p.field i _ = field at hbound ⊢
    cases spin with
    | down =>
      rw [Coefficient.ofSpin_down] at h ⊢
      linarith [hbound.1]
    | up =>
      rw [Coefficient.ofSpin_up] at h ⊢
      linarith [hbound.2]
  · intro h
    -- each neighbour at the spin that its coupling resents most
    let worst (k : Nat) : Spin := if 0 < p.strength i k then spin else spin.flip
    have hterm : ∀ t ∈ p.incident i,
        t.2 * Coefficient.ofSpin (worst t.1) = Coefficient.ofSpin spin * |t.2| := by
      intro t ht
      have hstrength : p.strength i t.1 = t.2 := by
        unfold strength
        rw [((mem_incident_iff hp).mp ht).2, Option.getD_some]
      simp only [worst, hstrength]
      split
      · next hpos =>
        rw [abs_of_pos hpos, mul_comm]
      · next hpos =>
        rw [abs_of_nonpos (not_lt.mp hpos)]
        cases spin <;> simp [Spin.flip, Coefficient.ofSpin]
    have hfield : p.field i (fun k => Coefficient.ofSpin (worst k)) =
        p.weight i + Coefficient.ofSpin spin * ((p.incident i).map fun t => |t.2|).sum := by
      unfold field
      rw [← List.sum_map_mul_left, List.map_congr_left hterm]
    have hworst := h worst
    rw [hfield] at hworst
    cases spin with
    | down =>
      rw [Coefficient.ofSpin_down] at hworst ⊢
      linarith
    | up =>
      rw [Coefficient.ofSpin_up] at hworst ⊢
      linarith

/-- The energies of two assignments that differ in one variable. -/
theorem energy_sub_of_flip (hp : p.Over live) (hmode : p.mode = .ising) {s t : Assignment}
    (hs : s i = some spin) (ht : t i = some spin.flip) (hsame : ∀ k, live k → k ≠ i → s k = t k)
    {others : Nat → Spin} (hothers : ∀ k, live k → k ≠ i → s k = some (others k)) :
    p.energy t - p.energy s =
      2 * (-Coefficient.ofSpin spin * p.field i fun k => Coefficient.ofSpin (others k)) := by
  let x : Nat → ℚ := fun k => Coefficient.ofSpin (others k)
  obtain ⟨rest, hlinear⟩ := objective_eq_add_field hp i x
  have henergy : ∀ (u : Assignment) (spin : Spin), u i = some spin →
      (∀ k, live k → k ≠ i → u k = some (others k)) →
      p.energy u = rest + Coefficient.ofSpin spin * p.field i x := by
    intro u spin hi hu
    have hvalue : ∀ k, live k →
        value p.mode u k = Function.update x i (Coefficient.ofSpin spin) k := by
      intro k hk
      by_cases hki : k = i
      · rw [hki, Function.update_self, value_of_eq_some _ hi, hmode]
        rfl
      · rw [Function.update_of_ne hki, value_of_eq_some _ (hu k hk hki), hmode]
        rfl
    rw [energy_eq_objective, objective_congr (fun k w hk => hvalue k (hp.weights k w hk))
      fun q j hq => ⟨hvalue _ (hp.strengths q j hq).2.1, hvalue _ (hp.strengths q j hq).2.2⟩,
      hlinear _ fun k hk => Function.update_of_ne hk _ _, Function.update_self]
  rw [henergy s spin hs hothers,
    henergy t spin.flip ht fun k hk hne => (hsame k hk hne).symm.trans (hothers k hk hne)]
  have hflip : (Coefficient.ofSpin spin.flip : ℚ) = -Coefficient.ofSpin spin := by
    cases spin <;> simp [Spin.flip, Coefficient.ofSpin]
  rw [hflip]
  ring

end Problem

end SpinGlass

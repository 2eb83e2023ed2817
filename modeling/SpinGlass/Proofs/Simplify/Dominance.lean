import SpinGlass.Problem.Simplify
import SpinGlass.Proofs.Problem.Indices
import Mathlib.Algebra.Order.BigOperators.Group.List

/-!
# Dominance

As a function of one variable alone, the objective is linear, and its slope is the linear term plus
the couplings to the other variables. A dominating linear term gives the slope its sign whatever the
others are, so one spin is strictly better than the other. The bounds on the couplings differ by
mode.
-/

namespace SpinGlass

namespace Mode

theorem eq_or_eq_of_isValue_ising {x : ℚ} (h : ising.IsValue x) : x = 1 ∨ x = -1 :=
  mul_self_eq_one_iff.mp h

theorem eq_or_eq_of_isValue_qubo {x : ℚ} (h : qubo.IsValue x) : x = 0 ∨ x = 1 := by
  have hfactor : x * (x - 1) = 0 := by
    rw [mul_sub, mul_one, sub_eq_zero]
    exact h
  rcases mul_eq_zero.mp hfactor with hx | hx
  · exact .inl hx
  · exact .inr (sub_eq_zero.mp hx)

end Mode

namespace Problem

theorem dominanceMargin_pos : (0 : ℚ) < dominanceMargin := by
  unfold dominanceMargin
  simp

/-- The slope of the objective in one variable. -/
def field (p : Problem ℚ) (i : Nat) (x : Nat → ℚ) : ℚ :=
  p.weight i + ((p.incident i).map fun t => t.2 * x t.1).sum

variable {p : Problem ℚ} {live : Nat → Prop} {i : Nat} {x : Nat → ℚ}

/-- The neighbours of a variable are live, and not the variable. -/
theorem mem_incident (hp : p.Over live) {t : Nat × ℚ} (ht : t ∈ p.incident i) :
    live t.1 ∧ t.1 ≠ i := by
  obtain ⟨e, he, rfl⟩ := List.mem_map.mp ht
  have hjoins := hp.strengths e.1 e.2 (Table.get?_eq_some_iff.mpr (List.mem_filter.mp he).1)
  exact ⟨hjoins.other i, Pair.other_ne hjoins.1⟩

/-- The quadratic terms of a variable, with the variable taken out. -/
theorem total_touching (hp : p.Over live) {y : Nat → ℚ} (hy : ∀ k, k ≠ i → y k = x k) :
    (p.strengths.filter fun q _ => q.contains i).total (fun q j => j * y q.lo * y q.hi) =
      y i * ((p.incident i).map fun t => t.2 * x t.1).sum := by
  unfold Table.total incident Table.filter
  rw [List.map_map, ← List.sum_map_mul_left]
  congr 1
  refine List.map_congr_left fun e he => ?_
  obtain ⟨hmem, hi⟩ := List.mem_filter.mp he
  have hlt := (hp.strengths e.1 e.2 (Table.get?_eq_some_iff.mpr hmem)).1
  have hproduct : y e.1.lo * y e.1.hi = y i * x (e.1.other i) := by
    rw [← hy _ (Pair.other_ne hlt), ← Pair.mul_of y i, Pair.of_other hlt hi]
  simp only [Function.comp_apply, mul_assoc, hproduct]
  ring

/-- The objective is linear in one variable when the others stay. -/
theorem objective_eq_add_field (hp : p.Over live) (i : Nat) (x : Nat → ℚ) :
    ∃ rest, ∀ y : Nat → ℚ, (∀ k, k ≠ i → y k = x k) →
      p.objective y = rest + y i * p.field i x := by
  refine ⟨(p.weights.erase i).total (fun k w => w * x k) +
    (p.strengths.filter fun q _ => !q.contains i).total (fun q j => j * x q.lo * x q.hi) + p.offset,
    fun y hy => ?_⟩
  have hweights : p.weights.total (fun k w => w * y k) =
      (p.weights.erase i).total (fun k w => w * x k) + p.weight i * y i := by
    have herase := Table.total_erase p.weights i fun k w => w * y k
    have hsame : (p.weights.erase i).total (fun k w => w * y k) =
        (p.weights.erase i).total fun k w => w * x k := by
      refine Table.total_congr fun k w hk => ?_
      rw [Table.get?_erase] at hk
      split at hk
      · cases hk
      · next hne => rw [hy k hne]
    rw [← hsame, herase]
    unfold weight
    cases p.weights.get? i <;> simp
  have hstrengths : p.strengths.total (fun q j => j * y q.lo * y q.hi) =
      y i * ((p.incident i).map fun t => t.2 * x t.1).sum +
        (p.strengths.filter fun q _ => !q.contains i).total fun q j => j * x q.lo * x q.hi := by
    rw [← total_touching hp hy, ← Table.total_filter_add_total_filter_not p.strengths
      (fun q _ => q.contains i)]
    congr 1
    refine Table.total_congr fun q j hq => ?_
    rw [Table.get?_filter, Option.filter_eq_some_iff] at hq
    have hnot : ¬ q.contains i = true := by simpa using hq.2
    simp only [Pair.contains, Bool.or_eq_true, beq_iff_eq, not_or] at hnot
    rw [hy _ hnot.1, hy _ hnot.2]
  unfold objective field
  rw [hweights, hstrengths]
  ring

theorem sum_abs_nonneg (p : Problem ℚ) (i : Nat) :
    0 ≤ ((p.incident i).map fun t => |t.2|).sum := by
  refine List.sum_nonneg fun x hx => ?_
  obtain ⟨t, _, rfl⟩ := List.mem_map.mp hx
  exact abs_nonneg t.2

/-- The couplings of spins are bounded by their magnitudes. -/
theorem abs_field_sub_weight_le (hx : ∀ t ∈ p.incident i, Mode.ising.IsValue (x t.1)) :
    |p.field i x - p.weight i| ≤ ((p.incident i).map fun t => |t.2|).sum := by
  unfold field
  rw [add_sub_cancel_left]
  have h : ∀ ts : List (Nat × ℚ), (∀ t ∈ ts, Mode.ising.IsValue (x t.1)) →
      |(ts.map fun t => t.2 * x t.1).sum| ≤ (ts.map fun t => |t.2|).sum := by
    intro ts hts
    induction ts with
    | nil => simp
    | cons t rest ih =>
      have hhead : |t.2 * x t.1| = |t.2| := by
        rcases Mode.eq_or_eq_of_isValue_ising (hts t List.mem_cons_self) with hx | hx <;> simp [hx]
      have htail := ih fun t ht => hts t (List.mem_cons_of_mem _ ht)
      rw [List.map_cons, List.sum_cons, List.map_cons, List.sum_cons]
      exact (abs_add_le _ _).trans (by rw [hhead]; linarith)
  exact h _ hx

/-- The couplings of bits are bounded by their negative and their positive parts. -/
theorem field_sub_weight_mem (hx : ∀ t ∈ p.incident i, Mode.qubo.IsValue (x t.1)) :
    ((p.incident i).map fun t => min t.2 0).sum ≤ p.field i x - p.weight i ∧
      p.field i x - p.weight i ≤ ((p.incident i).map fun t => max t.2 0).sum := by
  unfold field
  rw [add_sub_cancel_left]
  constructor <;> refine List.sum_le_sum fun t ht => ?_
  · rcases Mode.eq_or_eq_of_isValue_qubo (hx t ht) with h | h <;> simp [h]
  · rcases Mode.eq_or_eq_of_isValue_qubo (hx t ht) with h | h <;> simp [h]

/-- A dominating spin is strictly better than the other one, whatever the neighbours are. -/
theorem lt_of_dominatingSpin {spin other : Spin}
    (h : p.dominatingSpin i (p.incident i) = some spin) (hne : other ≠ spin)
    (hx : ∀ t ∈ p.incident i, p.mode.IsValue (x t.1)) :
    Coefficient.ofSpinIn p.mode spin * p.field i x <
      Coefficient.ofSpinIn p.mode other * p.field i x := by
  have hmargin := dominanceMargin_pos
  unfold dominatingSpin at h
  cases hmode : p.mode with
  | ising =>
    have hbound := abs_le.mp (abs_field_sub_weight_le (p := p) (x := x) (by rwa [hmode] at hx))
    simp only [hmode, Coefficient.magnitude_eq_abs, Coefficient.sum_eq] at h
    split at h
    · next hdominates =>
      cases Option.some.inj h
      by_cases hpos : 0 < p.weight i
      · rw [abs_of_pos hpos] at hdominates
        have hup : other = .up := by cases other <;> simp_all
        simp only [hpos, if_true, hup, Coefficient.ofSpinIn, Coefficient.ofSpin, Coefficient.one_eq]
        linarith [hbound.1]
      · rw [abs_of_nonpos (not_lt.mp hpos)] at hdominates
        have hdown : other = .down := by cases other <;> simp_all
        simp only [hpos, if_false, hdown, Coefficient.ofSpinIn, Coefficient.ofSpin,
          Coefficient.one_eq]
        linarith [hbound.2]
    · cases h
  | qubo =>
    have hbound := field_sub_weight_mem (p := p) (x := x) (by rwa [hmode] at hx)
    simp only [hmode, Coefficient.smaller_eq_min, Coefficient.larger_eq_max,
      Coefficient.sum_eq] at h
    split at h
    · next hleast =>
      cases Option.some.inj h
      have hup : other = .up := by cases other <;> simp_all
      simp only [hup, Coefficient.ofSpinIn, Coefficient.one_eq]
      linarith [hbound.1]
    · split at h
      · next hgreatest =>
        cases Option.some.inj h
        have hdown : other = .down := by cases other <;> simp_all
        simp only [hdown, Coefficient.ofSpinIn, Coefficient.one_eq]
        linarith [hbound.2]
      · cases h

end Problem

end SpinGlass

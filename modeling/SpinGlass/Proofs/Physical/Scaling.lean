import SpinGlass.Proofs.Physical.Placement
import SpinGlass.Proofs.Simplify.Dominance
import Mathlib.Algebra.Order.Ring.Abs
import Mathlib.Order.Filter.Extr

/-!
# Scaling into limits

Weights and strengths have limits of their own but share one factor, so that scaling only changes
the unit of all energies. The factor takes the coefficient that exceeds its limit most exactly to
it, and is one if none exceeds its limit.
-/

namespace SpinGlass

namespace PhysicalProblem

/-- All coefficients are within their limits. -/
structure Fits (p : PhysicalProblem ℚ) (limits : Limits ℚ) : Prop where
  weight : ∀ q w, p.weights.get? q = some w → |w| ≤ limits.weight
  strength : ∀ e j, p.strengths.get? e = some j → |j| ≤ limits.strength

/-- Some coefficient is as large as its limit. -/
def Touches (p : PhysicalProblem ℚ) (limits : Limits ℚ) : Prop :=
  (∃ q w, p.weights.get? q = some w ∧ |w| = limits.weight) ∨
    ∃ e j, p.strengths.get? e = some j ∧ |j| = limits.strength

section Ratio

variable {limit magnitude : ℚ}

theorem ratio_pos (hlimit : 0 < limit) : 0 < ratio limit magnitude := by
  unfold ratio
  split
  · next hmagnitude => exact div_pos hlimit hmagnitude
  · simp

/-- The factor takes a magnitude to its limit at most. -/
theorem ratio_mul_le (hlimit : 0 < limit) : ratio limit magnitude * magnitude ≤ limit := by
  unfold ratio
  split
  · next hmagnitude => exact (div_mul_cancel₀ limit hmagnitude.ne').le
  · next hmagnitude =>
    rw [Coefficient.one_eq, one_mul]
    exact (not_lt.mp hmagnitude).trans hlimit.le

/-- There is nothing to shrink exactly if a magnitude is within its limit. -/
theorem one_le_ratio_iff (hlimit : 0 < limit) : 1 ≤ ratio limit magnitude ↔ magnitude ≤ limit := by
  unfold ratio
  split
  · next hmagnitude => rw [le_div_iff₀ hmagnitude, one_mul]
  · next hmagnitude =>
    simp [(not_lt.mp hmagnitude).trans hlimit.le]

/-- A factor that shrinks takes a magnitude exactly to its limit. -/
theorem ratio_mul_eq (h : ratio limit magnitude < 1) :
    0 < magnitude ∧ ratio limit magnitude * magnitude = limit := by
  unfold ratio at h ⊢
  by_cases hmagnitude : 0 < magnitude
  · rw [if_pos hmagnitude]
    exact ⟨hmagnitude, div_mul_cancel₀ limit hmagnitude.ne'⟩
  · rw [if_neg hmagnitude, Coefficient.one_eq] at h
    exact absurd h (lt_irrefl 1)

/-- A factor that is small enough takes a coefficient to its limit at most. -/
theorem abs_mul_le {factor x : ℚ} (hlimit : 0 < limit) (hfactor : 0 ≤ factor)
    (hle : factor ≤ ratio limit magnitude) (hx : |x| ≤ magnitude) : |x * factor| ≤ limit := by
  calc |x * factor| = factor * |x| := by rw [abs_mul, abs_of_nonneg hfactor, mul_comm]
    _ ≤ ratio limit magnitude * magnitude :=
      mul_le_mul hle hx (abs_nonneg x) (ratio_pos hlimit).le
    _ ≤ limit := ratio_mul_le hlimit

end Ratio

section Table

variable {α : Type} [Ord α] [Std.LawfulEqOrd α] {t : Table α ℚ} {limit : ℚ}

/-- The largest magnitude in a table is within a limit exactly if all values are. -/
theorem largestMagnitude_values_le_iff (hlimit : 0 ≤ limit) :
    Coefficient.largestMagnitude t.values ≤ limit ↔ ∀ a x, t.get? a = some x → |x| ≤ limit := by
  constructor
  · intro h a x hx
    exact (Coefficient.abs_le_largestMagnitude (Table.mem_values_of_get? hx)).trans h
  · intro h
    rcases (Coefficient.largestMagnitude_nonneg t.values).eq_or_lt with hzero | hpos
    · exact hzero ▸ hlimit
    · obtain ⟨x, hx, heq⟩ := Coefficient.exists_abs_eq_largestMagnitude hpos
      obtain ⟨⟨a, _⟩, hmem, rfl⟩ := List.mem_map.mp hx
      exact heq ▸ h a _ (Table.get?_eq_some_iff.mpr hmem)

/-- A factor that shrinks takes the largest value of a table exactly to its limit. -/
theorem exists_get?_abs_mul_eq (hlimit : 0 < limit)
    (h : ratio limit (Coefficient.largestMagnitude t.values) < 1) :
    ∃ a x, t.get? a = some x ∧
      |x * ratio limit (Coefficient.largestMagnitude t.values)| = limit := by
  obtain ⟨hpos, hproduct⟩ := ratio_mul_eq h
  obtain ⟨x, hx, heq⟩ := Coefficient.exists_abs_eq_largestMagnitude hpos
  obtain ⟨⟨a, _⟩, hmem, rfl⟩ := List.mem_map.mp hx
  refine ⟨a, _, Table.get?_eq_some_iff.mpr hmem, ?_⟩
  rw [abs_mul, heq, abs_of_pos (ratio_pos hlimit), mul_comm, hproduct]

end Table

section Scale

variable {p : PhysicalProblem ℚ} {limits : Limits ℚ} {factor : ℚ}

theorem fits_iff (hweight : 0 ≤ limits.weight) (hstrength : 0 ≤ limits.strength) :
    p.Fits limits ↔ p.maxAbsWeight ≤ limits.weight ∧ p.maxAbsStrength ≤ limits.strength := by
  unfold maxAbsWeight maxAbsStrength
  rw [largestMagnitude_values_le_iff hweight, largestMagnitude_values_le_iff hstrength]
  exact ⟨fun h => ⟨h.weight, h.strength⟩, fun h => ⟨h.1, h.2⟩⟩

theorem scalingFactor_eq (p : PhysicalProblem ℚ) (limits : Limits ℚ) :
    p.scalingFactor limits = min (ratio limits.weight p.maxAbsWeight)
      (ratio limits.strength p.maxAbsStrength) :=
  Coefficient.smaller_eq_min _ _

theorem scalingFactor_pos (hweight : 0 < limits.weight) (hstrength : 0 < limits.strength) :
    0 < p.scalingFactor limits := by
  rw [scalingFactor_eq, lt_min_iff]
  exact ⟨ratio_pos hweight, ratio_pos hstrength⟩

/-- The factor does not shrink exactly if all coefficients are within their limits. -/
theorem one_le_scalingFactor_iff (hweight : 0 < limits.weight) (hstrength : 0 < limits.strength) :
    1 ≤ p.scalingFactor limits ↔ p.Fits limits := by
  rw [scalingFactor_eq, le_min_iff, one_le_ratio_iff hweight, one_le_ratio_iff hstrength,
    fits_iff hweight.le hstrength.le]

/-- A problem is left as it is if it fits, and multiplied by the factor otherwise. -/
theorem scale_cases (hweight : 0 < limits.weight) (hstrength : 0 < limits.strength)
    (p : PhysicalProblem ℚ) :
    (p.Fits limits ∧ p.scale limits = (1, p)) ∨
      p.scalingFactor limits < 1 ∧
        p.scale limits = (p.scalingFactor limits, p.scaleBy (p.scalingFactor limits)) := by
  unfold scale
  simp only [Coefficient.one_eq]
  by_cases hfits : 1 ≤ p.scalingFactor limits
  · exact .inl ⟨(one_le_scalingFactor_iff hweight hstrength).mp hfits, if_pos hfits⟩
  · exact .inr ⟨not_le.mp hfits, if_neg hfits⟩

/-- A problem that fits is left as it is. -/
theorem scale_of_fits (hweight : 0 < limits.weight) (hstrength : 0 < limits.strength)
    (hfits : p.Fits limits) : p.scale limits = (1, p) :=
  (scale_cases hweight hstrength p).elim And.right fun h =>
    absurd h.1 (not_lt.mpr ((one_le_scalingFactor_iff hweight hstrength).mpr hfits))

theorem get?_weights_scaleBy (p : PhysicalProblem ℚ) (factor : ℚ) (q : Nat) :
    (p.scaleBy factor).weights.get? q = (p.weights.get? q).map (· * factor) :=
  Table.get?_mapValues _ _ _

theorem get?_strengths_scaleBy (p : PhysicalProblem ℚ) (factor : ℚ) (e : Pair) :
    (p.scaleBy factor).strengths.get? e = (p.strengths.get? e).map (· * factor) :=
  Table.get?_mapValues _ _ _

/-- The factor one changes nothing. -/
theorem scaleBy_one (p : PhysicalProblem ℚ) : p.scaleBy 1 = p := by
  have hweights : (p.scaleBy 1).weights = p.weights :=
    Table.ext_get? fun q => by simp [get?_weights_scaleBy]
  have hstrengths : (p.scaleBy 1).strengths = p.strengths :=
    Table.ext_get? fun e => by simp [get?_strengths_scaleBy]
  have hfields : p.scaleBy 1 = { p with
      weights := (p.scaleBy 1).weights
      strengths := (p.scaleBy 1).strengths
      scaleFactor := p.scaleFactor * 1 } := rfl
  rw [hfields, hweights, hstrengths, mul_one]

/-- All energies are multiplied by the factor. -/
theorem sampleEnergy_scaleBy (p : PhysicalProblem ℚ) (factor : ℚ) (v : Assignment) :
    (p.scaleBy factor).sampleEnergy v = factor * p.sampleEnergy v := by
  rw [sampleEnergy_eq, sampleEnergy_eq, mul_add, ← Table.total_mul_left, ← Table.total_mul_left]
  simp only [scaleBy, Table.total_mapValues]
  congr 2
  · funext q w
    ring
  · funext e j
    ring

/-- Multiplied by the factor, all coefficients are within their limits. -/
theorem fits_scaleBy_scalingFactor (hweight : 0 < limits.weight)
    (hstrength : 0 < limits.strength) : (p.scaleBy (p.scalingFactor limits)).Fits limits := by
  have hfactor : 0 < p.scalingFactor limits := scalingFactor_pos hweight hstrength
  have hle : p.scalingFactor limits ≤ ratio limits.weight p.maxAbsWeight ∧
      p.scalingFactor limits ≤ ratio limits.strength p.maxAbsStrength :=
    le_min_iff.mp (scalingFactor_eq p limits).le
  constructor
  · intro q w hw
    rw [get?_weights_scaleBy, Option.map_eq_some_iff] at hw
    obtain ⟨w, hw, rfl⟩ := hw
    have hmax : |w| ≤ p.maxAbsWeight :=
      Coefficient.abs_le_largestMagnitude (Table.mem_values_of_get? hw)
    exact abs_mul_le hweight hfactor.le hle.1 hmax
  · intro e j hj
    rw [get?_strengths_scaleBy, Option.map_eq_some_iff] at hj
    obtain ⟨j, hj, rfl⟩ := hj
    have hmax : |j| ≤ p.maxAbsStrength :=
      Coefficient.abs_le_largestMagnitude (Table.mem_values_of_get? hj)
    exact abs_mul_le hstrength hfactor.le hle.2 hmax

/-- A factor that shrinks takes some coefficient exactly to its limit. -/
theorem touches_scaleBy_scalingFactor (hweight : 0 < limits.weight)
    (hstrength : 0 < limits.strength) (hfactor : p.scalingFactor limits < 1) :
    (p.scaleBy (p.scalingFactor limits)).Touches limits := by
  have hweights := get?_weights_scaleBy p (p.scalingFactor limits)
  have hstrengths := get?_strengths_scaleBy p (p.scalingFactor limits)
  rcases min_choice (ratio limits.weight p.maxAbsWeight)
      (ratio limits.strength p.maxAbsStrength) with heq | heq <;>
    rw [← scalingFactor_eq] at heq
  · left
    rw [heq] at hfactor hweights ⊢
    obtain ⟨q, w, hw, habs⟩ := exists_get?_abs_mul_eq hweight hfactor
    exact ⟨q, w * _, by rw [hweights, hw]; rfl, habs⟩
  · right
    rw [heq] at hfactor hstrengths ⊢
    obtain ⟨e, j, hj, habs⟩ := exists_get?_abs_mul_eq hstrength hfactor
    exact ⟨e, j * _, by rw [hstrengths, hj]; rfl, habs⟩

/-- Scaling multiplies all coefficients by a positive factor. -/
theorem exists_scale_eq (hweight : 0 < limits.weight) (hstrength : 0 < limits.strength)
    (p : PhysicalProblem ℚ) : ∃ factor : ℚ, 0 < factor ∧ (p.scale limits).2 = p.scaleBy factor := by
  rcases scale_cases hweight hstrength p with ⟨_, heq⟩ | ⟨_, heq⟩ <;> rw [heq]
  · exact ⟨1, one_pos, (scaleBy_one p).symm⟩
  · exact ⟨_, scalingFactor_pos hweight hstrength, rfl⟩

/-- Scaling multiplies all energies by a positive factor. -/
theorem scale_spec (hweight : 0 < limits.weight) (hstrength : 0 < limits.strength)
    (p : PhysicalProblem ℚ) :
    ∃ factor : ℚ, 0 < factor ∧ (p.scale limits).2.scaleFactor = p.scaleFactor * factor ∧
      ∀ v, (p.scale limits).2.sampleEnergy v = factor * p.sampleEnergy v := by
  obtain ⟨factor, hfactor, heq⟩ := exists_scale_eq hweight hstrength p
  rw [heq]
  exact ⟨factor, hfactor, rfl, sampleEnergy_scaleBy p factor⟩

/-- Scaling is multiplication by one factor in `(0, 1]` that takes all coefficients into their
limits: no energy but for the unit, and no comparison of energies, is changed. The factor is one
exactly if all coefficients fit, and some coefficient is at its limit otherwise. A second scaling
changes nothing. -/
theorem scale_shrinks {limits : Limits ℚ} (hweight : 0 < limits.weight)
    (hstrength : 0 < limits.strength) (p : PhysicalProblem ℚ) :
    (0 < (p.scale limits).1 ∧ (p.scale limits).1 ≤ 1) ∧
    (p.scale limits).2 = p.scaleBy (p.scale limits).1 ∧
    (p.scale limits).2.scaleFactor = p.scaleFactor * (p.scale limits).1 ∧
    (p.scale limits).2.offset = p.offset ∧
    (p.scale limits).2.Fits limits ∧
    (∀ v, (p.scale limits).2.sampleEnergy v = (p.scale limits).1 * p.sampleEnergy v) ∧
    (∀ v v', (p.scale limits).2.sampleEnergy v < (p.scale limits).2.sampleEnergy v' ↔
      p.sampleEnergy v < p.sampleEnergy v') ∧
    (∀ S v, IsMinOn (p.scale limits).2.sampleEnergy S v ↔ IsMinOn p.sampleEnergy S v) ∧
    ((p.scale limits).1 = 1 ↔ p.Fits limits) ∧
    ((p.scale limits).1 ≠ 1 → (p.scale limits).2.Touches limits) ∧
    (p.scale limits).2.scale limits = (1, (p.scale limits).2) := by
  obtain ⟨hpos, hle, hscaled, hfits, hone, htouches⟩ :
      0 < (p.scale limits).1 ∧ (p.scale limits).1 ≤ 1 ∧
        (p.scale limits).2 = p.scaleBy (p.scale limits).1 ∧ (p.scale limits).2.Fits limits ∧
        ((p.scale limits).1 = 1 ↔ p.Fits limits) ∧
        ((p.scale limits).1 ≠ 1 → (p.scale limits).2.Touches limits) := by
    rcases scale_cases hweight hstrength p with ⟨hfits, heq⟩ | ⟨hfactor, heq⟩ <;> rw [heq]
    · exact ⟨one_pos, le_rfl, (scaleBy_one p).symm, hfits, by simpa using hfits,
        fun hne => absurd rfl hne⟩
    · refine ⟨scalingFactor_pos hweight hstrength, hfactor.le, rfl,
        fits_scaleBy_scalingFactor hweight hstrength, ?_,
        fun _ => touches_scaleBy_scalingFactor hweight hstrength hfactor⟩
      rw [← one_le_scalingFactor_iff hweight hstrength]
      exact ⟨Eq.ge, fun hge => absurd hfactor (not_lt.mpr hge)⟩
  have henergy : ∀ v, (p.scale limits).2.sampleEnergy v =
      (p.scale limits).1 * p.sampleEnergy v := fun v => by
    rw [hscaled, sampleEnergy_scaleBy]
  refine ⟨⟨hpos, hle⟩, hscaled, ?multiplied, ?constant, hfits, henergy, fun v v' => ?order,
    fun S v => ?minimum, hone, htouches, scale_of_fits hweight hstrength hfits⟩
  case multiplied => rw [hscaled]; rfl
  case constant => rw [hscaled]; rfl
  case order => rw [henergy, henergy, mul_lt_mul_iff_right₀ hpos]
  case minimum =>
    simp only [isMinOn_iff, henergy]
    exact forall₂_congr fun v' _ => mul_le_mul_iff_right₀ hpos

/-- Of the two coefficients of a coupled pair the coupling exceeds its limit more, so it is the one
that ends at its limit. -/
theorem scale_shrinks_pair :
    ∃ p : PhysicalProblem ℚ,
      p = ((empty (.ofChains [[3], [7]]) 7).addWeight 3 4).addStrength (.of 3 7) (-3) ∧
      (p.scale .default).1 = 1 / 3 ∧ (p.scale .default).2.Fits .default ∧
      (p.scale .default).2.Touches .default ∧
      ((p.scale .default).2.scale .default).1 = 1 := by
  obtain ⟨_, _, _, _, hfits, _, _, _, _, htouches, hagain⟩ := scale_shrinks
    (by decide +kernel : 0 < (Limits.default : Limits ℚ).weight)
    (by decide +kernel : 0 < (Limits.default : Limits ℚ).strength)
    (((empty (.ofChains [[3], [7]]) 7).addWeight 3 4).addStrength (.of 3 7) (-3))
  refine ⟨_, rfl, by decide +kernel, hfits, htouches (by decide +kernel), ?_⟩
  rw [hagain]

end Scale

end PhysicalProblem

end SpinGlass

import SpinGlass.Coefficient
import Mathlib.Algebra.BigOperators.Group.List.Basic
import Mathlib.Algebra.Order.Floor.Ring
import Mathlib.Data.Rat.Floor
import Mathlib.Tactic.Linarith
import Mathlib.Tactic.Ring

/-!
# Exact coefficients

With rational coefficients the operations of the compiler are the usual ones: its sum, its power by
repeated squaring, its magnitude, its order and the extremes by it, and its rounding.
-/

namespace SpinGlass

namespace Coefficient

section Arithmetic

@[simp] theorem isZero_iff {x : ℚ} : isZero x = true ↔ x = 0 := by simp [isZero]

@[simp] theorem ofNat_eq (n : Nat) : (ofNat n : ℚ) = n := rfl

@[simp] theorem one_eq : (one : ℚ) = 1 := by simp [one]

theorem ofSpin_down : (ofSpin .down : ℚ) = -1 := rfl

theorem ofSpin_up : (ofSpin .up : ℚ) = 1 := rfl

/-- A sum of rationals is their sum. -/
theorem sum_eq (xs : List ℚ) : sum xs = xs.sum := by
  have h : ∀ start : ℚ, xs.foldl (· + ·) start = start + xs.sum := by
    induction xs with
    | nil => simp
    | cons x xs ih =>
      intro start
      simp [ih, add_assoc]
  exact (h 0).trans (zero_add _)

/-- Repeated squaring is the power. -/
theorem powerLoop_eq (base acc : ℚ) (n : Nat) : powerLoop base acc n = acc * base ^ n := by
  induction n using Nat.strong_induction_on generalizing base acc with
  | _ n ih =>
    have hdigits : base ^ n = (base * base) ^ (n / 2) * base ^ (n % 2) := by
      rw [← sq, ← pow_mul, ← pow_add, Nat.div_add_mod]
    have hacc : (if n % 2 = 1 then acc * base else acc) = acc * base ^ (n % 2) := by
      rcases Nat.mod_two_eq_zero_or_one n with heven | hodd
      · simp [heven]
      · simp [hodd]
    rw [powerLoop, hacc, hdigits]
    split
    · next hzero => simp [hzero]
    · rw [ih (n / 2) (by omega)]
      ring

theorem power_eq_pow (base : ℚ) (n : Nat) : power base n = base ^ n := by
  rw [power, powerLoop_eq, one_eq, one_mul]

end Arithmetic

section Order

/-- On rationals the total order is the usual one. -/
theorem isLE_totalCompare {x y : ℚ} : (totalCompare x y).isLE = true ↔ x ≤ y := by
  simp only [totalCompare]
  split
  · next hlt => simpa using hlt.le
  · next hge =>
    split
    · next hgt => simpa using hgt
    · next hle => simpa using not_lt.mp hle

theorem magnitude_eq_abs (x : ℚ) : magnitude x = |x| := by
  change (if x < 0 then -x else x) = |x|
  split
  · next h => exact (abs_of_neg h).symm
  · next h => exact (abs_of_nonneg (not_lt.mp h)).symm

theorem smaller_eq_min (x y : ℚ) : smaller x y = min x y := by
  unfold smaller
  split
  · next h => exact (min_eq_right h.le).symm
  · next h => simp [min_eq_left (not_lt.mp h)]

theorem larger_eq_max (x y : ℚ) : larger x y = max x y := by
  unfold larger
  split
  · next h => exact (max_eq_right h.le).symm
  · next h => simp [max_eq_left (not_lt.mp h)]

/-- The largest magnitude of some coefficients and a start is at least each of them. -/
theorem le_foldl_larger (xs : List ℚ) (start : ℚ) :
    start ≤ xs.foldl (fun m x => larger m (magnitude x)) start ∧
      ∀ x ∈ xs, |x| ≤ xs.foldl (fun m x => larger m (magnitude x)) start := by
  induction xs generalizing start with
  | nil => simp
  | cons x rest ih =>
    obtain ⟨hstart, hrest⟩ := ih (max start |x|)
    rw [List.foldl_cons, List.forall_mem_cons, larger_eq_max, magnitude_eq_abs]
    exact ⟨(le_max_left _ _).trans hstart, (le_max_right _ _).trans hstart, hrest⟩

theorem largestMagnitude_nonneg (xs : List ℚ) : 0 ≤ largestMagnitude xs := (le_foldl_larger xs 0).1

theorem abs_le_largestMagnitude {xs : List ℚ} {x : ℚ} (hx : x ∈ xs) : |x| ≤ largestMagnitude xs :=
  (le_foldl_larger xs 0).2 x hx

/-- The largest magnitude of some coefficients and a start is one of theirs. -/
theorem foldl_larger_eq (xs : List ℚ) (start : ℚ) :
    xs.foldl (fun m x => larger m (magnitude x)) start = start ∨
      ∃ x ∈ xs, |x| = xs.foldl (fun m x => larger m (magnitude x)) start := by
  induction xs generalizing start with
  | nil => exact .inl rfl
  | cons x rest ih =>
    simp only [List.foldl_cons, List.mem_cons, exists_eq_or_imp]
    rw [larger_eq_max, magnitude_eq_abs]
    rcases ih (max start |x|) with heq | hrest
    · rw [heq]
      exact (max_choice start |x|).imp_right fun hx => .inl hx.symm
    · exact .inr (.inr hrest)

/-- The largest magnitude is that of a coefficient, unless all are zero. -/
theorem exists_abs_eq_largestMagnitude {xs : List ℚ} (h : 0 < largestMagnitude xs) :
    ∃ x ∈ xs, |x| = largestMagnitude xs :=
  (foldl_larger_eq xs 0).resolve_left h.ne'

end Order

section Rounding

variable {x y : ℚ} {n : Nat}

theorem nearestNat_le_iff : nearestNat x ≤ n ↔ x + 1 / 2 < n + 1 := by
  have hfloor : nearestNat x = ⌊x + 1 / 2⌋.toNat := rfl
  rw [hfloor, Int.toNat_le, ← Int.lt_add_one_iff, Int.floor_lt]
  norm_cast

theorem nearestNat_mono (h : x ≤ y) : nearestNat x ≤ nearestNat y :=
  nearestNat_le_iff.mpr <|
    (add_le_add_left h (1 / 2)).trans_lt (nearestNat_le_iff.mp (le_refl (nearestNat y)))

theorem nearestNat_le_of_le (h : x ≤ n) : nearestNat x ≤ n :=
  nearestNat_le_iff.mpr (by linarith)

end Rounding

end Coefficient

end SpinGlass

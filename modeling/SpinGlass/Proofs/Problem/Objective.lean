import SpinGlass.Problem.Energy
import SpinGlass.Proofs.Coefficient
import SpinGlass.Proofs.Table.Total

/-!
# Objectives with exact coefficients

With rational coefficients the energy of a problem is a quadratic polynomial in the values of its
variables. This file states what adding a term does to the polynomial. A term on a single variable
collapses, which only a value of the domain allows: a bit is its own square, and the square of a
spin is one.
-/

namespace SpinGlass

namespace Mode

/-- The numbers that a variable can have in a mode, by what their squares are. -/
def IsValue (mode : Mode) (x : ℚ) : Prop :=
  match mode with
  | .qubo => x * x = x
  | .ising => x * x = 1

/-- The value of a spin is a value of the mode. -/
theorem isValue_ofSpinIn (mode : Mode) (s : Spin) : mode.IsValue (Coefficient.ofSpinIn mode s) := by
  cases mode <;> cases s <;> simp [IsValue, Coefficient.ofSpinIn, Coefficient.ofSpin]

end Mode

namespace Pair

theorem of_lo_lt_hi {a b : Nat} (h : a ≠ b) : (of a b).lo < (of a b).hi := by
  unfold of
  split <;> simp <;> omega

theorem of_comm (a b : Nat) : of a b = of b a := by
  unfold of
  rcases Nat.lt_trichotomy a b with h | rfl | h
  · simp [h, Nat.not_lt.mpr h.le]
  · rfl
  · simp [h, Nat.not_lt.mpr h.le]

theorem of_eq_of_iff {a b c d : Nat} : of a b = of c d ↔ a = c ∧ b = d ∨ a = d ∧ b = c := by
  unfold of
  split <;> split <;> simp only [mk.injEq] <;> omega

theorem of_of_lt {a b : Nat} (h : a < b) : of a b = ⟨a, b⟩ := if_pos h

/-- Pairs are compared by their lower ends first. -/
theorem compare_eq_lt_iff {p q : Pair} :
    compare p q = .lt ↔ p.lo < q.lo ∨ p.lo = q.lo ∧ p.hi < q.hi := by
  have h : compare p q = (compare p.lo q.lo).then (compare p.hi q.hi) := rfl
  rw [h, Ordering.then_eq_lt, Nat.compare_eq_lt, Nat.compare_eq_eq, Nat.compare_eq_lt]

/-- A product over the ends of a pair does not depend on which end is the lower one. -/
theorem mul_of (x : Nat → ℚ) (a b : Nat) : x (of a b).lo * x (of a b).hi = x a * x b := by
  unfold of
  split
  · rfl
  · exact mul_comm _ _

@[simp] theorem contains_of {a b i : Nat} : (of a b).contains i = true ↔ i = a ∨ i = b := by
  unfold of contains
  split <;> simp only [Bool.or_eq_true, beq_iff_eq] <;> omega

/-- The ends of a pair that contains `i` are `i` and the other end. -/
theorem of_other {q : Pair} {i : Nat} (hq : q.lo < q.hi) (h : q.contains i = true) :
    of i (q.other i) = q := by
  obtain ⟨lo, hi⟩ := q
  simp only [contains, Bool.or_eq_true, beq_iff_eq] at h
  rcases h with rfl | rfl
  · simp [other, of_of_lt hq]
  · have hne : lo ≠ hi := Nat.ne_of_lt hq
    simp [other, hne, of_comm, of_of_lt hq]

/-- The other end is not `i`. -/
theorem other_ne {q : Pair} {i : Nat} (hq : q.lo < q.hi) : q.other i ≠ i := by
  unfold other
  split <;> omega

end Pair

/-- The entries that are not zero answer a lookup with a value that is not zero. -/
theorem Table.get?_nonzero {α : Type} [Ord α] [Std.LawfulEqOrd α] {t : Table α ℚ} {a : α} {x : ℚ} :
    t.nonzero.get? a = some x ↔ t.get? a = some x ∧ x ≠ 0 := by
  rw [nonzero, get?_filter, Option.filter_eq_some_iff, Bool.not_eq_true', ← Bool.not_eq_true,
    Coefficient.isZero_iff]

/-- Entries that are zero do not count in a total whose summand vanishes there. -/
theorem Table.total_nonzero {α : Type} [Ord α] [Std.LawfulEqOrd α] {f : α → ℚ → ℚ}
    (t : Table α ℚ) (hzero : ∀ a, f a 0 = 0) : t.nonzero.total f = t.total f := by
  refine Table.total_filter fun a w _ h => ?_
  have hw : w = 0 := by simpa using h
  rw [hw, hzero]

namespace Problem

/-- The objective as a polynomial in the values of the variables. -/
def objective (p : Problem ℚ) (x : Nat → ℚ) : ℚ :=
  p.weights.total (fun i w => w * x i) + p.strengths.total (fun q j => j * x q.lo * x q.hi) +
    p.offset

/-- The energy of an assignment is the objective at its values. -/
theorem energy_eq_objective (p : Problem ℚ) (s : Assignment) :
    p.energy s = p.objective (value p.mode s) := by
  simp [energy, objective, Table.total, Coefficient.sum_eq]

/-- Only the values of variables in terms matter to the objective. -/
theorem objective_congr {p : Problem ℚ} {x y : Nat → ℚ}
    (hweights : ∀ i w, p.weights.get? i = some w → x i = y i)
    (hstrengths : ∀ q j, p.strengths.get? q = some j → x q.lo = y q.lo ∧ x q.hi = y q.hi) :
    p.objective x = p.objective y := by
  unfold objective
  congr 2
  · exact Table.total_congr fun i w h => by rw [hweights i w h]
  · exact Table.total_congr fun q j h => by rw [(hstrengths q j h).1, (hstrengths q j h).2]

/-- Zero terms do not count. -/
theorem objective_pruneZeros (p : Problem ℚ) (x : Nat → ℚ) :
    p.pruneZeros.objective x = p.objective x := by
  unfold objective pruneZeros
  simp [Table.total_nonzero]

/-- A linear term adds its value. -/
theorem objective_addWeight (p : Problem ℚ) (i : Nat) (w : ℚ) (x : Nat → ℚ) :
    (p.addWeight i w).objective x = p.objective x + w * x i := by
  unfold objective addWeight
  simp only [Table.total_alter]
  cases p.weights.get? i <;> simp <;> ring

/-- A constant adds itself. -/
theorem objective_addOffset (p : Problem ℚ) (c : ℚ) (x : Nat → ℚ) :
    (p.addOffset c).objective x = p.objective x + c := by
  unfold objective addOffset
  ring

/-- A quadratic term adds its value, also where it collapses. -/
theorem objective_addStrength (p : Problem ℚ) (a b : Nat) (j : ℚ) (x : Nat → ℚ)
    (hx : a = b → p.mode.IsValue (x a)) :
    (p.addStrength a b j).objective x = p.objective x + j * x a * x b := by
  unfold addStrength
  split
  · next heq =>
    subst heq
    have hvalue := hx rfl
    cases hmode : p.mode with
    | qubo =>
      have hsquare : x a * x a = x a := by simpa [Mode.IsValue, hmode] using hvalue
      simp only
      rw [objective_addWeight, mul_assoc, hsquare]
    | ising =>
      have hsquare : x a * x a = 1 := by simpa [Mode.IsValue, hmode] using hvalue
      simp only
      rw [mul_assoc, hsquare, mul_one]
      exact objective_addOffset p j x
  · have hproduct := Pair.mul_of x a b
    unfold objective
    simp only [Table.total_alter, mul_assoc, hproduct]
    cases p.strengths.get? (.of a b) <;> simp <;> ring

/-- An erased quadratic term is missing from the objective. -/
theorem objective_eraseStrength {p : Problem ℚ} {q : Pair} {j : ℚ}
    (h : p.strengths.get? q = some j) (x : Nat → ℚ) :
    { p with strengths := p.strengths.erase q }.objective x =
      p.objective x - j * x q.lo * x q.hi := by
  unfold objective
  simp only [Table.total_erase, h, Option.elim_some]
  ring

/-- An erased linear term is missing from the objective. -/
theorem objective_eraseWeight (p : Problem ℚ) (i : Nat) (x : Nat → ℚ) :
    { p with weights := p.weights.erase i }.objective x = p.objective x - p.weight i * x i := by
  unfold objective weight
  simp only [Table.total_erase]
  cases p.weights.get? i <;> simp
  ring

end Problem

end SpinGlass

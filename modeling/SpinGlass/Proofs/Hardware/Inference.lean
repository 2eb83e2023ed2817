import SpinGlass.Proofs.Hardware.Chimera
import Mathlib.Order.Bounds.Basic
import Mathlib.Tactic.Ring

/-!
# Inferring the shape of a graph

The side of a shape that is inferred is a root, rounded up: that of the number of cells that the
greatest qubit asks for. So the shape is the least square with room for all qubits. Losing qubits
does not change it while one of them is left that the next smaller square has no room for.
-/

namespace SpinGlass

section Root

/-- The square of the result is large enough, and no smaller number's is. -/
theorem ceilSqrt_spec (n : Nat) :
    n ≤ ceilSqrt n * ceilSqrt n ∧ ∀ m < ceilSqrt n, m * m < n := by
  induction n using Nat.strong_induction_on with
  | _ n ih =>
    by_cases hsmall : n ≤ 1
    · have hroot : ceilSqrt n = n := by rw [ceilSqrt, if_pos hsmall]
      rw [hroot]
      rcases Nat.le_one_iff_eq_zero_or_eq_one.mp hsmall with rfl | rfl <;> simp
    · obtain ⟨hle, hlt⟩ := ih ((n + 3) / 4) (by omega)
      rw [ceilSqrt, if_neg hsmall]
      dsimp only
      generalize ceilSqrt ((n + 3) / 4) = root at hle hlt
      -- a quarter of something has a positive root, and one less is too small for the quarter
      obtain ⟨q, rfl⟩ : ∃ q, root = q + 1 := Nat.exists_eq_succ_of_ne_zero fun hzero => by
        rw [hzero] at hle
        omega
      have hquarter : q * q < (n + 3) / 4 := hlt q (Nat.lt_succ_self q)
      have hdouble : 2 * (q + 1) * (2 * (q + 1)) = 4 * ((q + 1) * (q + 1)) := by ring
      have hodd : 2 * (q + 1) - 1 = 2 * q + 1 := by omega
      rw [hodd]
      split
      · next henough =>
        refine ⟨henough, fun m hm => ?_⟩
        have hsquare : m * m ≤ 2 * q * (2 * q) :=
          Nat.mul_self_le_mul_self (Nat.le_of_lt_succ hm)
        have heven : 2 * q * (2 * q) = 4 * (q * q) := by ring
        omega
      · next hshort =>
        refine ⟨by omega, fun m hm => ?_⟩
        have hsquare : m * m ≤ (2 * q + 1) * (2 * q + 1) :=
          Nat.mul_self_le_mul_self (by omega)
        omega

/-- A root rounded up is at most a number if the square of the number is large enough. -/
theorem ceilSqrt_le_iff {n m : Nat} : ceilSqrt n ≤ m ↔ n ≤ m * m := by
  obtain ⟨hle, hlt⟩ := ceilSqrt_spec n
  constructor
  · exact fun hm => hle.trans (Nat.mul_self_le_mul_self hm)
  · intro hm
    by_contra hless
    exact absurd (hlt m (not_le.mp hless)) (not_lt.mpr hm)

/-- Rounding up is taking the integer root and going on while its square is too small. -/
theorem ceilSqrt_eq_sqrt (n : Nat) :
    ceilSqrt n = if n.sqrt * n.sqrt < n then n.sqrt + 1 else n.sqrt := by
  refine eq_of_forall_ge_iff fun m => ?_
  rw [ceilSqrt_le_iff]
  split
  · next hshort =>
    rw [Nat.succ_le_iff, Nat.sqrt_lt]
    refine ⟨fun hle => hle.lt_of_ne ?_, le_of_lt⟩
    rintro rfl
    rw [Nat.sqrt_eq] at hshort
    exact lt_irrefl _ hshort
  · next hsquare =>
    have heq : n.sqrt * n.sqrt = n := le_antisymm n.sqrt_le (not_lt.mp hsquare)
    conv_lhs => rw [← heq]
    exact Nat.mul_self_le_mul_self_iff

end Root

/-- The number of the cell of a qubit, counted row by row. -/
def Chimera.cellNumber (s : Chimera) (q : Nat) : Nat := (s.cellOf q).1 * s.cols + (s.cellOf q).2

theorem Chimera.cellNumber_eq (s : Chimera) (q : Nat) : s.cellNumber q = q / (2 * s.shore) :=
  Nat.div_add_mod' (q / (2 * s.shore)) s.cols

/-- A square has room for a qubit if it has its cell. -/
theorem Chimera.lt_size_iff {n shore q : Nat} (hshore : 0 < shore) :
    q < (Chimera.mk n n shore).size ↔ q / (2 * shore) < n * n := by
  rw [Nat.div_lt_iff_lt_mul (Nat.mul_pos Nat.two_pos hshore), ← Nat.mul_assoc]
  rfl

theorem Chimera.isEdge_comm (s : Chimera) (a b : Nat) : s.isEdge a b = s.isEdge b a := by
  rw [Bool.eq_iff_iff, isEdge_iff, isEdge_iff, or_comm, and_left_comm]

namespace Target

/-- The graphs that can be made: from edges, by declaring dimensions and by removing qubits. -/
inductive Built : Target → Prop
  | ofEdges (edges : List (Nat × Nat)) : Built (ofEdges edges)
  | withShape {t : Target} (h : Built t) (shape : Chimera) : Built (t.withShape shape)
  | withoutQubits {t : Target} (h : Built t) (removed : List Nat) : Built (t.withoutQubits removed)

theorem Built.chimera (shape : Chimera) : Built (chimera shape) :=
  (ofEdges shape.couplers).withShape shape

theorem Built.lawful {t : Target} (h : t.Built) : t.Lawful := by
  induction h with
  | ofEdges edges => exact lawful_ofEdges edges
  | withShape _ shape ih => exact ih.withShape shape
  | withoutQubits _ removed _ => exact lawful_withoutQubits _ removed

/-- No qubit is without a coupler. -/
theorem Built.exists_hasEdge {t : Target} (h : t.Built) {q : Nat} (hq : t.contains q = true) :
    ∃ r, t.hasEdge q r = true := by
  induction h with
  | ofEdges edges => exact contains_ofEdges_iff.mp hq
  | withShape _ shape ih => exact ih hq
  | withoutQubits _ removed _ => exact contains_ofEdges_iff.mp hq

section Inference

variable {t : Target} {shore greatest : Nat}

/-- The last qubit is the greatest. -/
theorem Lawful.isGreatest_back (h : t.Lawful) (hback : t.qubits.back? = some greatest) :
    IsGreatest {q | t.contains q = true} greatest := by
  rw [Array.back?_eq_getElem?] at hback
  obtain ⟨hlast, hgreatest⟩ := Array.getElem?_eq_some_iff.mp hback
  have hlast : t.qubits.size - 1 < t.size := hlast
  have hqubit : t.qubit (t.qubits.size - 1) = greatest := by simp [qubit, hback]
  refine ⟨contains_iff.mpr ⟨_, hlast, hqubit⟩, fun q hq => ?_⟩
  obtain ⟨s, hs, rfl⟩ := contains_iff.mp hq
  rw [← hqubit]
  rcases Nat.lt_or_eq_of_le (Nat.le_sub_one_of_lt hs) with hlt | heq
  · exact (h.qubit_lt s _ hlt hlast).le
  · exact (congrArg t.qubit heq).le

/-- The sides of the square shapes with room for all qubits. -/
def squareSides (t : Target) (shore : Nat) : Set Nat :=
  {n | ∀ q, t.contains q = true → q < (Chimera.mk n n shore).size}

/-- The side that is inferred is the least with room for the greatest qubit. -/
theorem Lawful.isLeast_squareSides (h : t.Lawful) (hshore : 0 < shore)
    (hback : t.qubits.back? = some greatest) :
    IsLeast (t.squareSides shore)
      (ceilSqrt ((greatest + 1 + 2 * shore - 1) / (2 * shore))) := by
  obtain ⟨hcontains, hle⟩ := h.isGreatest_back hback
  have hiff : ∀ n, n ∈ t.squareSides shore ↔
      ceilSqrt ((greatest + 1 + 2 * shore - 1) / (2 * shore)) ≤ n := by
    intro n
    have hcells : (greatest + 1 + 2 * shore - 1) / (2 * shore) = greatest / (2 * shore) + 1 := by
      rw [show greatest + 1 + 2 * shore - 1 = greatest + 2 * shore by omega,
        Nat.add_div_right _ (Nat.mul_pos Nat.two_pos hshore)]
    rw [ceilSqrt_le_iff, hcells, Nat.succ_le_iff]
    constructor
    · exact fun hn => (Chimera.lt_size_iff hshore).mp (hn greatest hcontains)
    · exact fun hn q hq => (hle hq).trans_lt ((Chimera.lt_size_iff hshore).mpr hn)
  exact ⟨(hiff _).mpr le_rfl, fun n hn => (hiff n).mp hn⟩

/-- All edges are couplers of a shape if coupled qubits are. -/
theorem Lawful.all_isEdge_iff (h : t.Lawful) {s : Chimera} :
    (t.edges.all fun e => s.isEdge e.1 e.2) = true ↔
      ∀ a b, t.hasEdge a b = true → s.isEdge a b = true := by
  rw [List.all_eq_true]
  constructor
  · intro hall a b hedge
    rcases Nat.lt_or_gt_of_ne (h.ne_of_hasEdge hedge) with hlt | hgt
    · exact hall (a, b) (h.mem_edges_iff.mpr ⟨hlt, hedge⟩)
    · rw [s.isEdge_comm]
      exact hall (b, a) (h.mem_edges_iff.mpr ⟨hgt, h.hasEdge_symm hedge⟩)
  · exact fun hall e he => hall e.1 e.2 (h.mem_edges_iff.mp he).2

/-- What is inferred is the least square shape with room for all qubits, if it has the couplers. -/
theorem Lawful.inferChimera_eq_some_iff (h : t.Lawful) (hshore : 0 < shore) {shape : Chimera} :
    t.inferChimera shore = some shape ↔ (∃ q, t.contains q = true) ∧
      ∃ n, shape = ⟨n, n, shore⟩ ∧ IsLeast (t.squareSides shore) n ∧
        ∀ a b, t.hasEdge a b = true → shape.isEdge a b = true := by
  unfold inferChimera
  cases hback : t.qubits.back? with
  | none =>
    refine iff_of_false (by simp) ?_
    rintro ⟨⟨q, hq⟩, _⟩
    obtain ⟨s, hs, _⟩ := contains_iff.mp hq
    rw [Array.back?_eq_none_iff] at hback
    simp [size, hback] at hs
  | some greatest =>
    have hleast := h.isLeast_squareSides hshore hback
    simp only [hshore.ne', if_false, Option.ite_none_right_eq_some, Option.some.injEq,
      h.all_isEdge_iff]
    constructor
    · rintro ⟨hall, rfl⟩
      exact ⟨⟨greatest, (h.isGreatest_back hback).1⟩, _, rfl, hleast, hall⟩
    · rintro ⟨_, n, rfl, hn, hall⟩
      rw [hleast.unique hn]
      exact ⟨hall, rfl⟩

/-- What is inferred is the least square shape with room for all qubits, and it has the couplers.
A graph that is not empty, with couplers of a square shape only, and with a qubit in a cell beyond
the next smaller square, has that shape inferred, whatever else it lost. -/
theorem inferChimera_recovers (ht : t.Built) (hshore : 1 ≤ shore) :
    (∀ shape, t.inferChimera shore = some shape →
      (∃ n, shape = ⟨n, n, shore⟩ ∧
        IsLeast {m | ∀ q, t.contains q = true → q < (Chimera.mk m m shore).size} n) ∧
      ∀ a b, t.hasEdge a b = true → shape.isEdge a b = true) ∧
    ∀ n, 1 ≤ n → (∀ a b, t.hasEdge a b = true → (Chimera.mk n n shore).isEdge a b = true) →
      (∃ q, t.contains q = true ∧ (n - 1) ^ 2 ≤ (Chimera.mk n n shore).cellNumber q) →
      t.inferChimera shore = some ⟨n, n, shore⟩ := by
  refine ⟨fun shape hshape => ?_, fun n hn hedges ⟨q, hq, hcell⟩ => ?_⟩
  · obtain ⟨_, n, rfl, hleast, hall⟩ := (ht.lawful.inferChimera_eq_some_iff hshore).mp hshape
    exact ⟨⟨n, rfl, hleast⟩, hall⟩
  · refine (ht.lawful.inferChimera_eq_some_iff hshore).mpr
      ⟨⟨q, hq⟩, n, rfl, ⟨fun r hr => ?_, fun m hm => ?_⟩, hedges⟩
    · obtain ⟨r', hedge⟩ := ht.exists_hasEdge hr
      exact (Chimera.isEdge_iff.mp (hedges r r' hedge)).1
    · have hless := (Chimera.lt_size_iff hshore).mp (hm q hq)
      rw [Chimera.cellNumber_eq] at hcell
      by_contra hlt
      have hsquare : m * m ≤ (n - 1) ^ 2 := by
        rw [sq]
        exact Nat.mul_self_le_mul_self (Nat.le_sub_one_of_lt (not_le.mp hlt))
      exact absurd (hless.trans_le (hsquare.trans hcell)) (lt_irrefl _)

/-- Of two rows of two cells the second row is lost. A qubit in the second cell is enough to infer
two rows all the same, and that is the least square with room for it. -/
theorem inferChimera_recovers_lostRow :
    ((chimera ⟨2, 2, 1⟩).withoutQubits [4, 5, 6, 7]).inferChimera 1 = some ⟨2, 2, 1⟩ ∧
    2 ∈ lowerBounds {m | ∀ q, ((chimera ⟨2, 2, 1⟩).withoutQubits [4, 5, 6, 7]).contains q = true →
      q < (Chimera.mk m m 1).size} := by
  have hbuilt : ((chimera ⟨2, 2, 1⟩).withoutQubits [4, 5, 6, 7]).Built :=
    (Built.chimera _).withoutQubits _
  obtain ⟨hleast, hrecovers⟩ := inferChimera_recovers hbuilt (show 1 ≤ 1 by decide)
  have hedges := hbuilt.lawful.all_isEdge_iff.mp (show (((chimera ⟨2, 2, 1⟩).withoutQubits
    [4, 5, 6, 7]).edges.all fun e => Chimera.isEdge ⟨2, 2, 1⟩ e.1 e.2) = true by decide +kernel)
  have hshape := hrecovers 2 (by decide) hedges ⟨2, by decide +kernel, by decide +kernel⟩
  obtain ⟨⟨n, heq, hn⟩, _⟩ := hleast _ hshape
  obtain rfl : 2 = n := congrArg Chimera.rows heq
  exact ⟨hshape, hn.2⟩

end Inference

end Target

end SpinGlass

import SpinGlass.Proofs.Hardware.Target

/-!
# Numbering qubits

Qubits of a Chimera graph are numbered by row, column, side and position, like the digits of a
number in mixed bases. The generator lists the couplers of each cell by their coordinates, and the
test for a coupler reads the coordinates off the numbers. The two agree for all dimensions.
-/

namespace SpinGlass

namespace Chimera

/-- A place in the grid of a Chimera graph. -/
structure Within (s : Chimera) (c : Coordinates) : Prop where
  row_lt : c.row < s.rows
  col_lt : c.col < s.cols
  side_lt : c.side < 2
  k_lt : c.k < s.shore

/-- The number of a qubit by its place. -/
def number (s : Chimera) (c : Coordinates) : Nat := s.linear c.row c.col c.side c.k

/-- A coupler, from the vertical side of a cell to its horizontal one, down or to the right. -/
inductive Coupler : Coordinates → Coordinates → Prop
  | across (row col k k' : Nat) : Coupler ⟨row, col, 0, k⟩ ⟨row, col, 1, k'⟩
  | down (row col k : Nat) : Coupler ⟨row, col, 0, k⟩ ⟨row + 1, col, 0, k⟩
  | right (row col k : Nat) : Coupler ⟨row, col, 1, k⟩ ⟨row, col + 1, 1, k⟩

variable {s : Chimera} {p q : Coordinates} {a b : Nat}

section Numbering

variable {x y m n : Nat}

/-- A digit before another one makes a number below the product of their bases. -/
theorem mul_add_lt (hx : x < m) (hy : y < n) : x * n + y < m * n :=
  calc x * n + y < x * n + n := Nat.add_lt_add_left hy _
    _ = (x + 1) * n := (Nat.succ_mul x n).symm
    _ ≤ m * n := Nat.mul_le_mul_right n hx

/-- A last digit is read off by division with remainder. -/
theorem mul_add_div_mod (hy : y < n) : (x * n + y) / n = x ∧ (x * n + y) % n = y := by
  rw [Nat.add_comm, Nat.add_mul_div_right _ _ (Nat.zero_lt_of_lt hy), Nat.add_mul_mod_self_right,
    Nat.div_eq_of_lt hy, Nat.mod_eq_of_lt hy]
  exact ⟨Nat.zero_add x, rfl⟩

/-- Division by a base leaves a number below the rest of the product, and a digit. -/
theorem div_lt_mod_lt (h : x < m * n) : x / n < m ∧ x % n < n := by
  have hn : 0 < n := Nat.pos_of_mul_pos_left (Nat.zero_lt_of_lt h)
  exact ⟨(Nat.div_lt_iff_lt_mul hn).mpr h, Nat.mod_lt x hn⟩

theorem number_lt_size (h : s.Within p) : s.number p < s.size :=
  mul_add_lt (mul_add_lt (mul_add_lt h.row_lt h.col_lt) h.side_lt) h.k_lt

/-- The coordinates of a number, one division after the other. -/
theorem coordinates_eq (s : Chimera) (a : Nat) : s.coordinates a =
    ⟨a / s.shore / 2 / s.cols, a / s.shore / 2 % s.cols, a / s.shore % 2, a % s.shore⟩ := by
  rw [coordinates, Nat.mul_comm 2, ← Nat.div_div_eq_div_mul]

theorem coordinates_number (h : s.Within p) : s.coordinates (s.number p) = p := by
  obtain ⟨hshore, hk⟩ := mul_add_div_mod (x := (p.row * s.cols + p.col) * 2 + p.side) h.k_lt
  obtain ⟨hhalf, hside⟩ := mul_add_div_mod (x := p.row * s.cols + p.col) h.side_lt
  obtain ⟨hrow, hcol⟩ := mul_add_div_mod (x := p.row) h.col_lt
  rw [coordinates_eq, number, linear, hshore, hk, hhalf, hside, hrow, hcol]

theorem number_coordinates (s : Chimera) (a : Nat) : s.number (s.coordinates a) = a := by
  rw [coordinates_eq, number, linear, Nat.div_add_mod', Nat.div_add_mod', Nat.div_add_mod']

theorem within_coordinates (h : a < s.size) : s.Within (s.coordinates a) := by
  obtain ⟨hshore, hk⟩ := div_lt_mod_lt h
  obtain ⟨hhalf, hside⟩ := div_lt_mod_lt hshore
  obtain ⟨hrow, hcol⟩ := div_lt_mod_lt hhalf
  rw [coordinates_eq]
  exact ⟨hrow, hcol, hside, hk⟩

/-- Where there is a place there are columns and qubits in a cell. -/
theorem coordinates?_of_within (h : s.Within p) (a : Nat) :
    s.coordinates? a = some (s.coordinates a) := by
  have hcol := h.col_lt
  have hk := h.k_lt
  exact if_neg (by omega)

end Numbering

section Couplers

/-- The three kinds of couplers by their coordinates. -/
theorem coupler_iff : Coupler p q ↔
    p.row = q.row ∧ p.col = q.col ∧ p.side = 0 ∧ q.side = 1 ∨
    q.row = p.row + 1 ∧ p.col = q.col ∧ p.side = 0 ∧ q.side = 0 ∧ p.k = q.k ∨
    p.row = q.row ∧ q.col = p.col + 1 ∧ p.side = 1 ∧ q.side = 1 ∧ p.k = q.k := by
  constructor
  · rintro (_ | _ | _) <;> simp
  · obtain ⟨row, col, side, k⟩ := p
    obtain ⟨row', col', side', k'⟩ := q
    rintro (⟨rfl, rfl, rfl, rfl⟩ | ⟨rfl, rfl, rfl, rfl, rfl⟩ | ⟨rfl, rfl, rfl, rfl, rfl⟩)
    · exact .across row col k k'
    · exact .down row col k
    · exact .right row col k

theorem Coupler.ne (h : Coupler p q) : p ≠ q := by
  rintro rfl
  have := coupler_iff.mp h
  omega

/-- The couplers are listed by the places of their ends. -/
theorem mem_couplers_iff : (a, b) ∈ s.couplers ↔
    ∃ p q, s.Within p ∧ s.Within q ∧ Coupler p q ∧ s.number p = a ∧ s.number q = b := by
  unfold couplers couplersAt
  simp only [List.mem_flatMap, List.mem_range, List.mem_append, List.mem_map, Prod.mk.injEq,
    List.mem_ite_nil_right, List.mem_singleton]
  constructor
  · rintro ⟨row, hrow, col, hcol, k, hk, (⟨k', hk', rfl, rfl⟩ | ⟨hdown, rfl, rfl⟩) |
      ⟨hright, rfl, rfl⟩⟩
    · exact ⟨_, _, ⟨hrow, hcol, Nat.zero_lt_two, hk⟩, ⟨hrow, hcol, Nat.one_lt_two, hk'⟩,
        .across row col k k', rfl, rfl⟩
    · exact ⟨_, _, ⟨hrow, hcol, Nat.zero_lt_two, hk⟩, ⟨hdown, hcol, Nat.zero_lt_two, hk⟩,
        .down row col k, rfl, rfl⟩
    · exact ⟨_, _, ⟨hrow, hcol, Nat.one_lt_two, hk⟩, ⟨hrow, hright, Nat.one_lt_two, hk⟩,
        .right row col k, rfl, rfl⟩
  · rintro ⟨p, q, hp, hq, hcoupler, rfl, rfl⟩
    cases hcoupler with
    | across row col k k' =>
      exact ⟨row, hp.row_lt, col, hp.col_lt, k, hp.k_lt, .inl (.inl ⟨k', hq.k_lt, rfl, rfl⟩)⟩
    | down row col k =>
      exact ⟨row, hp.row_lt, col, hp.col_lt, k, hp.k_lt, .inl (.inr ⟨hq.row_lt, rfl, rfl⟩)⟩
    | right row col k =>
      exact ⟨row, hp.row_lt, col, hp.col_lt, k, hp.k_lt, .inr ⟨hq.col_lt, rfl, rfl⟩⟩

theorem distance_eq_one_iff {m n : Nat} : distance m n = 1 ↔ m = n + 1 ∨ n = m + 1 := by
  unfold distance
  omega

/-- Whether two places are coupled, decided from their coordinates. -/
theorem coupler_or_coupler_iff (hp : p.side < 2) (hq : q.side < 2) :
    Coupler p q ∨ Coupler q p ↔
      if p.row = q.row ∧ p.col = q.col then p.side ≠ q.side
      else ¬ (p.side ≠ q.side ∨ p.k ≠ q.k) ∧
        if p.side = 0 then p.col = q.col ∧ distance p.row q.row = 1
        else p.row = q.row ∧ distance p.col q.col = 1 := by
  obtain ⟨row, col, side, k⟩ := p
  obtain ⟨row', col', side', k'⟩ := q
  rcases Nat.le_one_iff_eq_zero_or_eq_one.mp (Nat.le_of_lt_succ hp) with rfl | rfl <;>
    rcases Nat.le_one_iff_eq_zero_or_eq_one.mp (Nat.le_of_lt_succ hq) with rfl | rfl <;>
    simp [coupler_iff, distance_eq_one_iff] <;> omega

/-- The test for a coupler reads the coordinates off the numbers. -/
theorem isEdge_iff : s.isEdge a b = true ↔ a < s.size ∧ b < s.size ∧
    (Coupler (s.coordinates a) (s.coordinates b) ∨
      Coupler (s.coordinates b) (s.coordinates a)) := by
  unfold isEdge
  by_cases hrange : s.size ≤ a ∨ s.size ≤ b ∨ a = b
  · rw [if_pos hrange]
    refine iff_of_false Bool.false_ne_true ?_
    rintro ⟨ha, hb, hcoupler⟩
    obtain rfl : a = b := by omega
    exact hcoupler.elim (fun h => h.ne rfl) (fun h => h.ne rfl)
  · rw [if_neg hrange]
    push Not at hrange
    obtain ⟨ha, hb, _⟩ := hrange
    rw [coupler_or_coupler_iff (within_coordinates ha).side_lt (within_coordinates hb).side_lt]
    simp only [ha, hb, true_and]
    split
    · exact bne_iff_ne
    · split
      · next hdiffer => simp [hdiffer]
      · next hsame => split <;> simp [hsame]

/-- The listed couplers are those between the places of two numbers. -/
theorem mem_couplers_iff_coupler : (a, b) ∈ s.couplers ↔
    a < s.size ∧ b < s.size ∧ Coupler (s.coordinates a) (s.coordinates b) := by
  rw [mem_couplers_iff]
  constructor
  · rintro ⟨p, q, hp, hq, hcoupler, rfl, rfl⟩
    rw [coordinates_number hp, coordinates_number hq]
    exact ⟨number_lt_size hp, number_lt_size hq, hcoupler⟩
  · rintro ⟨ha, hb, hcoupler⟩
    exact ⟨_, _, within_coordinates ha, within_coordinates hb, hcoupler, number_coordinates s a,
      number_coordinates s b⟩

/-- Every place is coupled across its cell. -/
theorem exists_coupler (h : s.Within p) : ∃ q, s.Within q ∧ (Coupler p q ∨ Coupler q p) := by
  obtain ⟨row, col, side, k⟩ := p
  rcases Nat.le_one_iff_eq_zero_or_eq_one.mp (Nat.le_of_lt_succ h.side_lt) with rfl | rfl
  · exact ⟨⟨row, col, 1, k⟩, ⟨h.row_lt, h.col_lt, Nat.one_lt_two, h.k_lt⟩,
      .inl (.across row col k k)⟩
  · exact ⟨⟨row, col, 0, k⟩, ⟨h.row_lt, h.col_lt, Nat.zero_lt_two, h.k_lt⟩,
      .inr (.across row col k k)⟩

end Couplers

end Chimera

namespace Target

open Chimera

variable {s : Chimera} {a b q : Nat}

/-- The couplers of the complete graph are those that the test finds. -/
theorem hasEdge_chimera_iff : (chimera s).hasEdge a b = true ↔ s.isEdge a b = true := by
  have hedges : (chimera s).hasEdge a b = true ↔
      a ≠ b ∧ ((a, b) ∈ s.couplers ∨ (b, a) ∈ s.couplers) := hasEdge_ofEdges_iff
  rw [hedges, mem_couplers_iff_coupler, mem_couplers_iff_coupler, isEdge_iff]
  constructor
  · rintro ⟨_, ⟨ha, hb, hcoupler⟩ | ⟨hb, ha, hcoupler⟩⟩
    · exact ⟨ha, hb, .inl hcoupler⟩
    · exact ⟨ha, hb, .inr hcoupler⟩
  · rintro ⟨ha, hb, hcoupler⟩
    refine ⟨?_, hcoupler.imp (⟨ha, hb, ·⟩) (⟨hb, ha, ·⟩)⟩
    rintro rfl
    exact hcoupler.elim (fun h => h.ne rfl) (fun h => h.ne rfl)

/-- The qubits of the complete graph are the numbers below its size. -/
theorem contains_chimera_iff : (chimera s).contains q = true ↔ q < s.size := by
  have hcoupled : (chimera s).contains q = true ↔ ∃ r, (chimera s).hasEdge q r = true :=
    contains_ofEdges_iff
  rw [hcoupled]
  simp only [hasEdge_chimera_iff, isEdge_iff]
  constructor
  · rintro ⟨r, hq, _⟩
    exact hq
  · intro hq
    obtain ⟨p, hp, hcoupler⟩ := exists_coupler (within_coordinates hq)
    refine ⟨s.number p, hq, number_lt_size hp, ?_⟩
    rwa [coordinates_number hp]

/-- The complete graph has a coupler exactly where the test finds one, whatever the dimensions, and
its qubits are the numbers below its size. Numbers and places determine each other: reading the
place off the number of a place gives it back, and a number below the size is that of its place. -/
theorem chimera_agrees (s : Chimera) :
    (∀ a b, (chimera s).hasEdge a b = s.isEdge a b) ∧
    (∀ q, (chimera s).contains q = true ↔ q < s.size) ∧
    (∀ c, s.Within c → s.coordinates? (s.linear c.row c.col c.side c.k) = some c) ∧
    ∀ q < s.size, ∃ c, s.coordinates? q = some c ∧ s.Within c ∧
      s.linear c.row c.col c.side c.k = q := by
  refine ⟨fun a b => Bool.eq_iff_iff.mpr hasEdge_chimera_iff, fun q => contains_chimera_iff,
    fun c hc => ?_, fun q hq => ?_⟩
  · rw [coordinates?_of_within hc]
    exact congrArg some (coordinates_number hc)
  · have hplace := within_coordinates hq
    exact ⟨_, coordinates?_of_within hplace q, hplace, number_coordinates s q⟩

/-- In two rows of three cells the horizontal qubit at the end of the first row has the number
eleven. It is coupled to its left, but not to the first cell of the next row. -/
theorem chimera_agrees_grid :
    (⟨2, 3, 1⟩ : Chimera).coordinates? 5 = some ⟨0, 2, 1, 0⟩ ∧
    (chimera ⟨2, 3, 1⟩).hasEdge 5 3 = true ∧ (chimera ⟨2, 3, 1⟩).hasEdge 5 7 = false := by
  obtain ⟨hedge, _, hlinear, _⟩ := chimera_agrees ⟨2, 3, 1⟩
  refine ⟨hlinear ⟨0, 2, 1, 0⟩ ⟨by decide, by decide, by decide, by decide⟩, ?_, ?_⟩
  · rw [hedge]
    decide
  · rw [hedge]
    decide

end Target

end SpinGlass

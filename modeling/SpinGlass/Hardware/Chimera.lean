/-!
# Chimera graphs

A grid of cells, each a complete bipartite graph between a vertical and a horizontal side.
Vertical qubits are coupled to those of the cells above and below, horizontal ones to those of
the cells left and right.
-/

namespace SpinGlass

/-- The dimensions of a Chimera graph: `rows * cols` cells with `shore` qubits on each side. -/
structure Chimera where
  rows : Nat
  cols : Nat
  shore : Nat
  deriving DecidableEq, Repr

namespace Chimera

/-- The number of qubits. -/
def size (s : Chimera) : Nat := s.rows * s.cols * 2 * s.shore

/-- Whether there is no qubit. -/
def isEmpty (s : Chimera) : Bool := s.size == 0

/-- The number of qubit `k` on a side (0 for vertical, 1 for horizontal) of a cell. -/
def linear (s : Chimera) (row col side k : Nat) : Nat :=
  ((row * s.cols + col) * 2 + side) * s.shore + k

/-- The place of a qubit in its grid. -/
structure Coordinates where
  row : Nat
  col : Nat
  side : Nat
  k : Nat
  deriving DecidableEq, Repr

/-- The place of a qubit by its number. -/
def coordinates (s : Chimera) (q : Nat) : Coordinates :=
  let cell := q / (2 * s.shore)
  ⟨cell / s.cols, cell % s.cols, q / s.shore % 2, q % s.shore⟩

/-- The place of a qubit, if qubits can be numbered at all: without columns or qubits in a cell
they cannot. -/
def coordinates? (s : Chimera) (q : Nat) : Option Coordinates :=
  if s.shore = 0 ∨ s.cols = 0 then none else some (s.coordinates q)

/-- The row and column of a qubit's cell. -/
def cellOf (s : Chimera) (q : Nat) : Nat × Nat :=
  let c := s.coordinates q
  (c.row, c.col)

/-- The distance of two numbers. -/
def distance (a b : Nat) : Nat := (a - b) + (b - a)

/-- Whether two qubits are coupled. -/
def isEdge (s : Chimera) (a b : Nat) : Bool :=
  if s.size ≤ a ∨ s.size ≤ b ∨ a = b then false
  else
    let p := s.coordinates a
    let q := s.coordinates b
    if p.row = q.row ∧ p.col = q.col then p.side != q.side
    else if p.side ≠ q.side ∨ p.k ≠ q.k then false
    else if p.side = 0 then p.col == q.col && distance p.row q.row == 1
    else p.row == q.row && distance p.col q.col == 1

/-- The couplers at qubit `k` of both sides of a cell: those inside the cell, and those to the cell
below and to the right. -/
def couplersAt (s : Chimera) (row col k : Nat) : List (Nat × Nat) :=
  (List.range s.shore).map (fun k' => (s.linear row col 0 k, s.linear row col 1 k')) ++
    (if row + 1 < s.rows then [(s.linear row col 0 k, s.linear (row + 1) col 0 k)] else []) ++
    (if col + 1 < s.cols then [(s.linear row col 1 k, s.linear row (col + 1) 1 k)] else [])

/-- All couplers. -/
def couplers (s : Chimera) : List (Nat × Nat) :=
  (List.range s.rows).flatMap fun row =>
    (List.range s.cols).flatMap fun col =>
      (List.range s.shore).flatMap fun k => s.couplersAt row col k

end Chimera

end SpinGlass

import SpinGlass.Hardware.Chimera
import SpinGlass.Problem.Basic
import SpinGlass.Sorted

/-!
# Target graphs

The graph of a machine: qubits with arbitrary numbers, and couplers between them. Inside, the
qubits have slots, in the order of their numbers.
-/

namespace SpinGlass

/-- An undirected graph over qubits. -/
structure Target where
  /-- The qubits, increasing; the position of a qubit is its slot. -/
  qubits : Array Nat
  /-- The neighbours of each slot, as slots, increasing. -/
  adjacency : Array (List Nat)
  /-- The dimensions of the graph, if it is known to be part of a Chimera graph. -/
  declaredShape : Option Chimera
  deriving DecidableEq

/-- The least number whose square is at least `n`, found digit by digit in base two. -/
def ceilSqrt (n : Nat) : Nat :=
  if n ≤ 1 then n
  else
    -- twice the root of a quarter is at most one too large
    let r := 2 * ceilSqrt ((n + 3) / 4)
    if n ≤ (r - 1) * (r - 1) then r - 1 else r
termination_by n
decreasing_by omega

namespace Target

/-- The neighbours of a qubit in a list of couplers. If the couplers are sorted with their lower
end first, so are the neighbours. -/
def neighborsIn (couplers : List Pair) (q : Nat) : List Nat :=
  couplers.filterMap fun e => if e.hi = q then some e.lo else if e.lo = q then some e.hi else none

/-- The graph of a list of couplers. Loops are left out, and repetitions count once. -/
def ofEdges (edges : List (Nat × Nat)) : Target :=
  let couplers := sortDistinct ((edges.filter fun e => e.1 != e.2).map fun e => Pair.of e.1 e.2)
  let qubits := (sortDistinct (couplers.flatMap fun e => [e.lo, e.hi])).toArray
  { qubits
    adjacency := qubits.map fun q => (neighborsIn couplers q).filterMap (qubits.idxOf? ·)
    declaredShape := none }

/-- The graph with its dimensions declared. -/
def withShape (t : Target) (shape : Chimera) : Target := { t with declaredShape := some shape }

/-- The complete Chimera graph. -/
def chimera (shape : Chimera) : Target := (ofEdges shape.couplers).withShape shape

/-- The number of qubits. -/
def size (t : Target) : Nat := t.qubits.size

/-- The slot of a qubit. -/
def slot? (t : Target) (q : Nat) : Option Nat := t.qubits.idxOf? q

/-- The qubit of a slot. -/
def qubit (t : Target) (slot : Nat) : Nat := t.qubits.getD slot 0

/-- The neighbours of a slot, as slots. -/
def neighborSlots (t : Target) (slot : Nat) : List Nat := t.adjacency.getD slot []

/-- Whether a qubit is in the graph. -/
def contains (t : Target) (q : Nat) : Bool := t.qubits.contains q

/-- Whether two qubits are coupled. -/
def hasEdge (t : Target) (a b : Nat) : Bool :=
  match t.slot? a, t.slot? b with
  | some sa, some sb => (t.neighborSlots sa).contains sb
  | _, _ => false

/-- The neighbours of a qubit, increasing. -/
def neighbors (t : Target) (q : Nat) : List Nat :=
  match t.slot? q with
  | some slot => (t.neighborSlots slot).map t.qubit
  | none => []

/-- Every coupler once, its lower end first. -/
def edges (t : Target) : List (Nat × Nat) :=
  (List.range t.size).flatMap fun slot =>
    ((t.neighborSlots slot).filter (slot < ·)).map fun other => (t.qubit slot, t.qubit other)

/-- The number of couplers. -/
def edgeCount (t : Target) : Nat := t.adjacency.toList.flatten.length / 2

/-- The graph without some qubits. Qubits that lose all their couplers are gone as well. -/
def withoutQubits (t : Target) (removed : List Nat) : Target :=
  { ofEdges (t.edges.filter fun e => !removed.contains e.1 && !removed.contains e.2) with
    declaredShape := t.declaredShape }

/-- The known dimensions; those of an empty graph are as good as unknown. -/
def shape? (t : Target) : Option Chimera := t.declaredShape.filter fun s => !s.isEmpty

/-- The cell of a qubit, if the dimensions are known. -/
def cellOf? (t : Target) (q : Nat) : Option (Nat × Nat) := t.shape?.map (·.cellOf q)

/-- The least square Chimera graph with cells of a given size that has all the qubits, if it has
all the couplers too. -/
def inferChimera (t : Target) (shore : Nat) : Option Chimera :=
  match t.qubits.back? with
  | none => none
  | some greatest =>
    if shore = 0 then none
    else
      let cells := (greatest + 1 + 2 * shore - 1) / (2 * shore)
      let side := ceilSqrt cells
      let shape : Chimera := ⟨side, side, shore⟩
      if t.edges.all fun e => shape.isEdge e.1 e.2 then some shape else none

end Target

end SpinGlass

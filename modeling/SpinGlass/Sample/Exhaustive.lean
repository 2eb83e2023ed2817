import SpinGlass.Sample.Results

/-!
# Exhaustive search

A solver that goes through all assignments of a small problem and returns those of least energy.
-/

namespace SpinGlass

namespace Exhaustive

variable {K : Type} [Coefficient K]

/-- The greatest number of qubits. -/
def maxQubits : Nat := 20

/-- The vector in which the qubits have the spins that the binary digits of a mask give, the
first qubit the lowest digit. All other places are up. -/
def vector (qubits : List Nat) (width mask : Nat) : Array Int :=
  qubits.zipIdx.foldl
    (fun v (q, k) => v.setIfInBounds q (Spin.ofBool (mask.testBit k)).toInt)
    (Array.replicate width Spin.up.toInt)

/-- The masks of all assignments with their energies, by energy; of equal ones the lower mask
comes first. -/
@[specialize] def ranking (p : PhysicalProblem K) : List (K × Nat) :=
  let qubits := p.qubits
  let width := p.width
  let energies := (List.range (1 <<< qubits.length)).map fun mask =>
    (p.sampleEnergy (SampleSet.assignment (vector qubits width mask)), mask)
  energies.mergeSort fun a b => (Coefficient.totalCompare a.1 b.1).isLE

/-- Returns the assignments of least energy, each once. -/
@[specialize] def solve : Solver K := fun p params =>
  let qubits := p.qubits
  if maxQubits < qubits.length then
    .error (.rejected (toString qubits.length ++ " qubits is too many to enumerate"))
  else
    let best := (ranking p).take params.sampleCount
    .ok {
      vectors := best.map fun s => vector qubits p.width s.2
      energies := best.map (·.1)
      counts := best.map fun _ => 1
      brokenCount := 0 }

end Exhaustive

end SpinGlass

import SpinGlass.Decimal.Notation
import SpinGlass.Physical.Basic

/-!
# Samples

What a solver is asked and what it answers: vectors of spins over the qubits, with energies and
counts in lists beside them. A solver is outside the compiler, so that its answer has to be
checked.
-/

namespace SpinGlass

/-- What a solver does to a sample before it reports it. -/
inductive Postprocessing where
  | none
  | sampling
  | optimization
  deriving DecidableEq

/-- What a solver is asked for. -/
structure SolveParams (K : Type) where
  sampleCount : Nat
  /-- In microseconds. -/
  annealTime : K
  spinReversals : Nat
  postprocessing : Postprocessing
  /-- Whether samples with broken chains are to be left out. -/
  discardBroken : Bool

namespace SolveParams

/-- The parameters by default. -/
def default {K : Type} [Coefficient K] : SolveParams K :=
  ⟨1000, Coefficient.ofNat 20, 0, .none, false⟩

end SolveParams

/-- The samples of a solver, in parallel lists. -/
structure SampleSet (K : Type) where
  /-- The spin of each qubit, by its number. Qubits that the problem does not use may hold
  anything. -/
  vectors : List (Array Int)
  energies : List K
  /-- How often each vector was found. -/
  counts : List Nat
  /-- The number of samples left out because of broken chains. -/
  brokenCount : Nat

/-- What is wrong with the answer of a solver. -/
inductive SampleFault where
  /-- The lists have different lengths. -/
  | lengths (vectors energies counts : Nat)
  | noSpin (qubit : Nat)
  deriving DecidableEq

/-- The wording of a fault. -/
def SampleFault.message : SampleFault → String
  | lengths vectors energies counts =>
    s!"{vectors} samples, {energies} energies, {counts} occurrence counts"
  | noSpin qubit => s!"no spin for qubit {qubit}"

/-- Why there are no samples, or none of use. -/
inductive SolverError where
  | timeout (seconds : Float)
  | connection (reason : String)
  | rejected (reason : String)
  | malformed (fault : SampleFault)

/-- The wording of a solver error. -/
def SolverError.message : SolverError → String
  | timeout seconds => "solver timed out after " ++ plainText seconds ++ " s"
  | connection reason => "connection to solver failed: " ++ reason
  | rejected reason => "solver rejected the problem: " ++ reason
  | malformed fault => "malformed solver response: " ++ fault.message

/-- A source of samples of a problem. -/
abbrev Solver (K : Type) := PhysicalProblem K → SolveParams K → Except SolverError (SampleSet K)

namespace Solver

/-- A solver that only fails. -/
def failing {K : Type} (e : SolverError) : Solver K := fun _ _ => .error e

/-- A solver that cannot be reached. -/
def down {K : Type} : Solver K := failing (.connection "solver unreachable")

end Solver

namespace SampleSet

variable {K : Type}

/-- Checks that the lists have one length. -/
def check (s : SampleSet K) : Except SolverError Unit :=
  let n := s.vectors.length
  if s.energies.length = n ∧ s.counts.length = n then .ok ()
  else .error (.malformed (.lengths n s.energies.length s.counts.length))

/-- The spins that a vector assigns to the qubits. -/
def assignment (vector : Array Int) : Assignment := fun q => (vector[q]?).bind Spin.ofInt?

end SampleSet

namespace PhysicalProblem

variable {K : Type} [Coefficient K]

/-- The length of a vector that has a place for every qubit of a problem. -/
def width (p : PhysicalProblem K) : Nat :=
  match p.qubits.getLast? with
  | some q => q + 1
  | none => 0

end PhysicalProblem

end SpinGlass

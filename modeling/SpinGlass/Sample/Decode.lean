import SpinGlass.Expr.Eval
import SpinGlass.Sample.Results
import SpinGlass.Sample.SolutionId

/-!
# Decoding samples

A sample is read back through the chains. A chain whose qubits differ is broken and its variable
has no value. The samples are ranked by energy, filtered, and those that say the same are put
together.
-/

namespace SpinGlass

/-- Which solutions are reported. -/
structure DecodeOptions (K : Type) where
  /-- Report all solutions, even broken ones and those that fail an assertion. -/
  allSolutions : Bool
  /-- Report only valid solutions whose energy is within the tolerance of the least. -/
  lowestOnly : Bool
  energyTolerance : K

/-- The options by default. -/
def DecodeOptions.default {K : Type} [Coefficient K] : DecodeOptions K :=
  ⟨false, true, Coefficient.one / Coefficient.ofNat 200⟩

/-- The options with the tolerance read as another coefficient. -/
def DecodeOptions.map {K L : Type} (f : K → L) (o : DecodeOptions K) : DecodeOptions L :=
  ⟨o.allSolutions, o.lowestOnly, f o.energyTolerance⟩

/-- What a sample says, or several that say the same. -/
structure Solution (K : Type) where
  id : SolutionId
  /-- The energy that the solver reported, with the constant term. -/
  energy : K
  occurrences : Nat
  /-- The spins of the names that are not generated; none for a broken chain. -/
  values : Table String (Option Spin)
  brokenChains : List String
  brokenPins : List String
  assertions : List AssertOutcome

namespace Solution

variable {K : Type}

/-- Whether a chain or a pin is broken. -/
def isBroken (s : Solution K) : Bool := !s.brokenChains.isEmpty || !s.brokenPins.isEmpty

/-- Whether all assertions pass. -/
def passesAssertions (s : Solution K) : Bool := s.assertions.all (·.passed)

/-- Whether a solution is neither broken nor fails an assertion. -/
def isValid (s : Solution K) : Bool := !s.isBroken && s.passesAssertions

/-- The spin of a name. -/
def value (s : Solution K) (name : String) : Option Spin := (s.values.get? name).join

/-- The text of a spin in a mode. -/
def valueText (mode : Mode) : Option Spin → String
  | none => "?"
  | some s =>
    match mode with
    | .qubo => if s.toBool then "1" else "0"
    | .ising => toString s.toInt

/-- The values, one a line. -/
def render (s : Solution K) (mode : Mode) : String :=
  String.join (s.values.entries.map fun (name, v) => name ++ " = " ++ valueText mode v ++ "\n")

/-- Whether two solutions say the same. Broken chains read as down in the number, so that broken
solutions must be broken in the same way. -/
def agrees (s t : Solution K) : Bool :=
  s.id == t.id && s.brokenChains == t.brokenChains && s.brokenPins == t.brokenPins

/-- Adds a solution to the first that says the same, or else at the end. -/
def absorb (s : Solution K) : List (Solution K) → List (Solution K)
  | [] => [s]
  | t :: rest =>
    if t.agrees s then { t with occurrences := t.occurrences + s.occurrences } :: rest
    else t :: absorb s rest

/-- Puts the solutions together that say the same. -/
def distinct (solutions : List (Solution K)) : List (Solution K) :=
  solutions.foldl (fun done s => absorb s done) []

/-- How often any of the solutions was found. -/
def total (solutions : List (Solution K)) : Nat :=
  solutions.foldl (fun n s => n + s.occurrences) 0

section

variable [Coefficient K]

/-- By energy; what has the same energy keeps its order. -/
def rank (solutions : List (Solution K)) : List (Solution K) :=
  solutions.mergeSort fun a b => (Coefficient.totalCompare a.energy b.energy).isLE

/-- Those whose energy is within a tolerance of the first. -/
def lowest (tolerance : K) (solutions : List (Solution K)) : List (Solution K) :=
  match solutions with
  | [] => []
  | first :: _ => solutions.filter fun s => s.energy - first.energy ≤ tolerance

end

end Solution

/-- Counts of samples. -/
structure DecodeStatistics where
  total : Nat
  /-- Left out by the solver because of broken chains. -/
  discarded : Nat
  notBroken : Nat
  /-- Not broken, and within the tolerance of the least energy of those. -/
  atMinEnergy : Nat
  /-- Not broken, but failing an assertion. -/
  assertionFailures : Nat
  /-- The number of solutions reported. -/
  distinct : Nat
  deriving DecidableEq

/-- The solutions of a set of samples. -/
structure DecodeReport (K : Type) where
  mode : Mode
  /-- By energy, the least first. -/
  solutions : List (Solution K)
  statistics : DecodeStatistics

/-- The first of the reported solutions. -/
def DecodeReport.best? {K : Type} (r : DecodeReport K) : Option (Solution K) := r.solutions.head?

/-- What samples are read by. -/
structure Decoder (K : Type) where
  model : Model K
  embedding : Embedding
  /-- The mode of the program. -/
  mode : Mode

namespace Decoder

variable {K : Type}

/-- The decoder for energies of another type. -/
def map {L : Type} (f : K → L) (d : Decoder K) : Decoder L :=
  ⟨⟨d.model.problem.map f, d.model.symbols⟩, d.embedding, d.mode⟩

/-- The spin of a qubit in a vector. -/
def spinAt (vector : Array Int) (q : Nat) : Except SolverError Spin :=
  match SampleSet.assignment vector q with
  | some s => .ok s
  | none => .error (.malformed (.noSpin q))

/-- The spin that all members of a chain have. -/
def consensus? : List Spin → Option Spin
  | [] => none
  | s :: rest => if rest.all (· == s) then some s else none

/-- Whether the members of a chain differ. -/
def isSplit (chain : List Spin) : Bool := !chain.isEmpty && (consensus? chain).isNone

/-- The spins of the chains of all variables. -/
def readChains (d : Decoder K) (vector : Array Int) : Except SolverError (List (List Spin)) :=
  (List.range d.model.symbols.size).mapM fun i => (d.embedding.chain i).mapM (spinAt vector)

/-- The name to show for an index, its number if it has none. -/
def displayName (d : Decoder K) (i : Nat) : String :=
  match d.model.symbols.nameOf i with
  | .ok name => name
  | .error _ => "#" ++ toString i

/-- The variables whose chains are broken. -/
def brokenChains (d : Decoder K) (chains : List (List Spin)) : List String :=
  (chains.zipIdx.filter fun e => isSplit e.1).map fun e => d.displayName e.2

/-- The pinned variables that have the other spin, sorted; a helper counts for its user. -/
def brokenPins (d : Decoder K) (spins : Assignment) : List String :=
  let p := d.model.problem
  let broken := p.pinned.entries.filter fun (i, pin) => spins i == some (-pin)
  sortDistinct (broken.map fun (i, _) => d.displayName ((p.pinHelpers.get? i).getD i))

/-- The names whose value is known, without the generated ones. -/
def knownValues (d : Decoder K) : List (String × Spin) :=
  d.model.problem.knownValues.entries.filter fun e => !isInternalName e.1

/-- The spins of all names that are not generated. -/
def values (d : Decoder K) (spins : Assignment) : Table String (Option Spin) :=
  let named := d.model.symbols.entries.filter fun e => !isInternalName e.1
  .ofList (named.map (fun (n, i) => (n, spins i)) ++ d.knownValues.map fun (n, s) => (n, some s))

/-- The bits of a solution: of the variables, and then of the known values. -/
def bits (d : Decoder K) (spins : Assignment) : List Bool :=
  let symbols := d.model.symbols
  let vars := (List.range symbols.size).filter fun i => !symbols.isInternal i
  vars.map (fun i => spins i == some .up) ++ d.knownValues.map (·.2.toBool)

section

variable [Coefficient K]

/-- Decodes one sample. -/
def decodeSample (d : Decoder K) (vector : Array Int) (energy : K) (occurrences : Nat) :
    Except SolverError (Solution K) := do
  let chains ← d.readChains vector
  let logical := (chains.map consensus?).toArray
  let spins : Assignment := fun i => (logical[i]?).join
  let values := d.values spins
  let bit (name : String) : Option Bool := (values.get? name).join.map Spin.toBool
  return {
    id := .ofBits (d.bits spins)
    energy := energy + d.model.problem.offset
    occurrences
    values
    brokenChains := d.brokenChains chains
    brokenPins := d.brokenPins spins
    assertions := d.model.problem.assertions.map (Expr.check bit) }

/-- Decodes all samples, in their order. -/
def decodeSamples (d : Decoder K) (raw : SampleSet K) : Except SolverError (List (Solution K)) := do
  raw.check
  (raw.vectors.zip (raw.energies.zip raw.counts)).mapM fun (vector, energy, count) =>
    d.decodeSample vector energy count

/-- The solutions to report out of ranked ones. -/
def select (options : DecodeOptions K) (ranked : List (Solution K)) : List (Solution K) :=
  if options.allSolutions then ranked
  else
    let valid := ranked.filter Solution.isValid
    if options.lowestOnly then Solution.lowest options.energyTolerance valid else valid

/-- Decodes, ranks and filters samples, and puts those together that say the same. -/
def decode (d : Decoder K) (raw : SampleSet K) (options : DecodeOptions K) :
    Except SolverError (DecodeReport K) := do
  let ranked := Solution.rank (← d.decodeSamples raw)
  let intact := ranked.filter fun s => !s.isBroken
  let solutions := Solution.distinct (select options ranked)
  return {
    mode := d.mode
    solutions
    statistics := {
      total := Solution.total ranked
      discarded := raw.brokenCount
      notBroken := Solution.total intact
      atMinEnergy := Solution.total (Solution.lowest options.energyTolerance intact)
      assertionFailures := Solution.total (intact.filter fun s => !s.passesAssertions)
      distinct := solutions.length } }

end

end Decoder

end SpinGlass

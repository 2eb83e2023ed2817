import SpinGlass.Physical.Json

/-!
# Statistics

The sizes of a problem before and after it is placed on a machine.
-/

namespace SpinGlass

open Json (Value)

/-- The sizes of a compiled problem. -/
structure Statistics (K : Type) where
  logicalVars : Nat
  /-- Quadratic terms that are not zero. -/
  logicalStrengths : Nat
  logicalChains : Nat
  logicalPins : Nat
  /-- Qubits in chains. -/
  physicalQubits : Nat
  physicalCouplers : Nat
  /-- Couplers that tie chains together. -/
  physicalChainCouplers : Nat
  /-- How many chains there are of each length. -/
  chainLengths : Table Nat Nat
  maxChainLength : Nat
  /-- How many chains have the greatest length. -/
  maxChainCount : Nat
  simplify : Option SimplifyReport
  scaleFactor : K

namespace Statistics

variable {K : Type} [Coefficient K]

/-- The sizes of a problem with `vars` variables and of its physical form. -/
def collect (logical : Problem K) (vars : Nat) (physical : PhysicalProblem K)
    (simplify : Option SimplifyReport) : Statistics K :=
  let chainLengths := physical.embedding.chainLengths
  let (maxLength, maxCount) := chainLengths.last?.getD (0, 0)
  { logicalVars := vars
    logicalStrengths := logical.strengths.nonzero.size
    logicalChains := Table.size logical.chains
    logicalPins := logical.pinned.size
    physicalQubits := physical.embedding.totalQubits
    physicalCouplers := physical.strengths.size
    physicalChainCouplers := Table.size physical.chains
    chainLengths
    maxChainLength := maxLength
    maxChainCount := maxCount
    simplify
    scaleFactor := physical.scaleFactor }

/-- The lines of the statistics. -/
def lines (s : Statistics Float) : List String :=
  [s!"logical:  {s.logicalVars} variables, {s.logicalStrengths} strengths, " ++
      s!"{s.logicalChains} chains, {s.logicalPins} pins",
    s!"physical: {s.physicalQubits} qubits, {s.physicalCouplers} couplers " ++
      s!"({s.physicalChainCouplers} in chains)"] ++
  (s.chainLengths.entries.map fun (length, n) => s!"  chains of length {length}: {n}") ++
  if s.scaleFactor != 1.0 then ["coefficients scaled by " ++ plainText s.scaleFactor] else []

/-- The statistics as text. -/
def text (s : Statistics Float) : String := String.join (s.lines.map (· ++ "\n"))

/-- The names of the fields of statistics. -/
def fieldNames : List String :=
  ["logical_vars", "logical_strengths", "logical_chains", "logical_pins", "physical_qubits",
    "physical_couplers", "physical_chain_couplers", "chain_lengths", "max_chain_len",
    "max_chain_count", "simplify", "scale_factor"]

/-- The document of statistics. -/
def toJson (s : Statistics Float) : Value :=
  .record (fieldNames.zip [.nat s.logicalVars, .nat s.logicalStrengths, .nat s.logicalChains,
    .nat s.logicalPins, .nat s.physicalQubits, .nat s.physicalCouplers,
    .nat s.physicalChainCouplers, .natTable .nat s.chainLengths, .nat s.maxChainLength,
    .nat s.maxChainCount, .option SimplifyReport.toJson s.simplify, .float s.scaleFactor])

/-- Reads statistics. -/
def ofJson? (v : Value) : Option (Statistics Float) := do
  let [vars, strengths, chains, pins, qubits, couplers, chainCouplers, lengths, maxLength, maxCount,
    simplify, scaleFactor] ← Json.slots fieldNames v | none
  return {
    logicalVars := ← vars.required Json.readNat
    logicalStrengths := ← strengths.required Json.readNat
    logicalChains := ← chains.required Json.readNat
    logicalPins := ← pins.required Json.readNat
    physicalQubits := ← qubits.required Json.readNat
    physicalCouplers := ← couplers.required Json.readNat
    physicalChainCouplers := ← chainCouplers.required Json.readNat
    chainLengths := ← lengths.required (Json.readNatTable Json.readNat)
    maxChainLength := ← maxLength.required Json.readNat
    maxChainCount := ← maxCount.required Json.readNat
    simplify := ← simplify.optional SimplifyReport.ofJson?
    scaleFactor := ← scaleFactor.required Json.readFloat }

end Statistics

end SpinGlass

import SpinGlass.Problem.Json
import SpinGlass.Sample.Decode

/-!
# Samples and solutions as documents

The forms in which requests, samples and reports are stored. Requests and options have defaults
for all their fields.
-/

namespace SpinGlass

open Json (Value)

namespace Postprocessing

/-- The word for a choice. -/
def name : Postprocessing → String
  | none => "none"
  | sampling => "sampling"
  | optimization => "optimization"

/-- The choice of a word. -/
def ofName? : String → Option Postprocessing
  | "none" => some none
  | "sampling" => some sampling
  | "optimization" => some optimization
  | _ => Option.none

end Postprocessing

namespace SolveParams

/-- The names of the fields of a request. -/
def fieldNames : List String :=
  ["sample_count", "anneal_time", "spin_reversal_transforms", "postprocessing", "discard_broken"]

/-- The document of a request. -/
def toJson (p : SolveParams Float) : Value :=
  .record (fieldNames.zip [.nat p.sampleCount, .float p.annealTime, .nat p.spinReversals,
    .string p.postprocessing.name, .bool p.discardBroken])

/-- Reads a request. -/
def ofJson? (v : Value) : Option (SolveParams Float) := do
  let [sampleCount, annealTime, spinReversals, postprocessing, discardBroken] ←
    Json.slots fieldNames v | none
  let usual : SolveParams Float := default
  return {
    sampleCount := ← sampleCount.orElse Json.readNat usual.sampleCount
    annealTime := ← annealTime.orElse Json.readFloat usual.annealTime
    spinReversals := ← spinReversals.orElse Json.readNat usual.spinReversals
    postprocessing := ← postprocessing.orElse (Json.readName Postprocessing.ofName?)
      usual.postprocessing
    discardBroken := ← discardBroken.orElse Json.readBool usual.discardBroken }

end SolveParams

namespace SampleSet

/-- The names of the fields of a set of samples. -/
def fieldNames : List String := ["spin_vectors", "energies", "occurrence_counts", "broken_count"]

/-- The document of a set of samples. -/
def toJson (s : SampleSet Float) : Value :=
  .record (fieldNames.zip [.list (fun v => .list .int v.toList) s.vectors, .list .float s.energies,
    .list .nat s.counts, .nat s.brokenCount])

/-- Reads a vector of numbers of eight bits. -/
def vectorOfJson? (v : Value) : Option (Array Int) := do
  return (← Json.readList (Json.readInt (-128) 127) v).toArray

/-- Reads a set of samples. -/
def ofJson? (v : Value) : Option (SampleSet Float) := do
  let [vectors, energies, counts, brokenCount] ← Json.slots fieldNames v | none
  return {
    vectors := ← vectors.required (Json.readList vectorOfJson?)
    energies := ← energies.required (Json.readList Json.readFloat)
    counts := ← counts.required (Json.readList Json.readNat)
    brokenCount := ← brokenCount.required Json.readNat }

end SampleSet

namespace DecodeOptions

/-- The names of the fields of decode options. -/
def fieldNames : List String := ["all_solutions", "lowest_only", "energy_tolerance"]

/-- The document of decode options. -/
def toJson (o : DecodeOptions Float) : Value :=
  .record (fieldNames.zip [.bool o.allSolutions, .bool o.lowestOnly, .float o.energyTolerance])

/-- Reads decode options. -/
def ofJson? (v : Value) : Option (DecodeOptions Float) := do
  let [allSolutions, lowestOnly, tolerance] ← Json.slots fieldNames v | none
  let usual : DecodeOptions Float := default
  return ⟨← allSolutions.orElse Json.readBool usual.allSolutions,
    ← lowestOnly.orElse Json.readBool usual.lowestOnly,
    ← tolerance.orElse Json.readFloat usual.energyTolerance⟩

end DecodeOptions

namespace SolutionId

/-- The document of a solution number: its limbs. -/
def toJson (id : SolutionId) : Value :=
  .record [("limbs", .list (fun limb : UInt64 => .nat limb.toNat) id.limbs)]

/-- Reads a solution number, its limbs as they are. -/
def ofJson? (v : Value) : Option SolutionId := do
  let [limbs] ← Json.slots ["limbs"] v | none
  return ⟨(← limbs.required (Json.readList Json.readNat)).map UInt64.ofNat⟩

end SolutionId

namespace Solution

/-- The names of the fields of a solution. -/
def fieldNames : List String :=
  ["id", "energy", "occurrences", "values", "broken_chains", "broken_pins", "assertions"]

/-- The document of a solution. -/
def toJson (s : Solution Float) : Value :=
  .record (fieldNames.zip [s.id.toJson, .float s.energy, .nat s.occurrences,
    .textTable (.option Spin.toJson) s.values, .list .string s.brokenChains,
    .list .string s.brokenPins, .list AssertOutcome.toJson s.assertions])

/-- Reads a solution. -/
def ofJson? (v : Value) : Option (Solution Float) := do
  let [id, energy, occurrences, values, brokenChains, brokenPins, assertions] ←
    Json.slots fieldNames v | none
  return {
    id := ← id.required SolutionId.ofJson?
    energy := ← energy.required Json.readFloat
    occurrences := ← occurrences.required Json.readNat
    values := ← values.required (Json.readTextTable (Json.readOption Spin.ofJson?))
    brokenChains := ← brokenChains.required (Json.readList Json.readText)
    brokenPins := ← brokenPins.required (Json.readList Json.readText)
    assertions := ← assertions.required (Json.readList AssertOutcome.ofJson?) }

end Solution

namespace DecodeStatistics

/-- The names of the fields of the counts. -/
def fieldNames : List String :=
  ["total", "discarded", "not_broken", "at_min_energy", "assertion_failures", "distinct"]

/-- The document of the counts. -/
def toJson (s : DecodeStatistics) : Value :=
  .record (fieldNames.zip ([s.total, s.discarded, s.notBroken, s.atMinEnergy, s.assertionFailures,
    s.distinct].map .nat))

/-- Reads the counts. -/
def ofJson? (v : Value) : Option DecodeStatistics := do
  let [total, discarded, notBroken, atMinEnergy, failures, distinct] ←
    Json.slots fieldNames v | none
  return ⟨← total.required Json.readNat, ← discarded.required Json.readNat,
    ← notBroken.required Json.readNat, ← atMinEnergy.required Json.readNat,
    ← failures.required Json.readNat, ← distinct.required Json.readNat⟩

end DecodeStatistics

namespace DecodeReport

/-- The names of the fields of a report. -/
def fieldNames : List String := ["mode", "solutions", "stats"]

/-- The document of a report. -/
def toJson (r : DecodeReport Float) : Value :=
  .record (fieldNames.zip [r.mode.toJson, .list Solution.toJson r.solutions, r.statistics.toJson])

/-- Reads a report. -/
def ofJson? (v : Value) : Option (DecodeReport Float) := do
  let [mode, solutions, statistics] ← Json.slots fieldNames v | none
  return ⟨← mode.required Mode.ofJson?, ← solutions.required (Json.readList Solution.ofJson?),
    ← statistics.required DecodeStatistics.ofJson?⟩

end DecodeReport

end SpinGlass

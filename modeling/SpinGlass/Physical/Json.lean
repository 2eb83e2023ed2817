import SpinGlass.Embedding.Json
import SpinGlass.Physical.Basic
import SpinGlass.Problem.Json

/-!
# Physical problems as documents

A physical problem is a record of its tables, and the limits of a machine are a record of two
numbers.
-/

namespace SpinGlass

open Json (Value)

namespace Limits

/-- The document of limits. -/
def toJson (limits : Limits Float) : Value :=
  .record [("weight", .float limits.weight), ("strength", .float limits.strength)]

/-- Reads limits. -/
def ofJson? (v : Value) : Option (Limits Float) := do
  let [weight, strength] ← Json.slots ["weight", "strength"] v | none
  return ⟨← weight.required Json.readFloat, ← strength.required Json.readFloat⟩

end Limits

namespace PhysicalProblem

/-- The names of the fields of a physical problem. -/
def fieldNames : List String :=
  ["weights", "strengths", "chains", "embedding", "simple_offset", "scale_factor"]

/-- The document of a physical problem. -/
def toJson? (p : PhysicalProblem Float) : Option Value := do
  return .record (fieldNames.zip [.natTable .float p.weights, ← Pair.tableToJson? p.strengths,
    Pair.setToJson p.chains, p.embedding.toJson, .float p.offset, .float p.scaleFactor])

/-- Reads a physical problem. -/
def ofJson? (v : Value) : Option (PhysicalProblem Float) := do
  let [weights, strengths, chains, embedding, offset, scaleFactor] ← Json.slots fieldNames v | none
  return {
    weights := ← weights.required (Json.readNatTable Json.readFloat)
    strengths := ← strengths.required Json.readEmptyTable
    chains := ← chains.required Pair.setOfJson?
    embedding := ← embedding.required Embedding.ofJson?
    offset := ← offset.required Json.readFloat
    scaleFactor := ← scaleFactor.required Json.readFloat }

end PhysicalProblem

end SpinGlass

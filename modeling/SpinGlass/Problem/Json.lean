import SpinGlass.Expr.Json
import SpinGlass.Problem.Simplify

/-!
# Problems as documents

A problem is a record of its tables. Tables over pairs have no written keys, so a document can
hold one only if it is empty.
-/

namespace SpinGlass

open Json (Value)

namespace Spin

/-- The spin of a name. -/
def ofName? : String → Option Spin
  | "Up" => some up
  | "Down" => some down
  | _ => none

/-- The document of a spin. -/
def toJson (s : Spin) : Value := .string s.name

/-- Reads a spin. -/
def ofJson? : Value → Option Spin := Json.readName ofName?

end Spin

namespace Mode

/-- The document of a mode. -/
def toJson (mode : Mode) : Value := .string mode.name

/-- Reads a mode. -/
def ofJson? : Value → Option Mode := Json.readName ofName?

end Mode

namespace Pair

/-- The document of a pair. -/
def toJson (p : Pair) : Value := .array [.nat p.lo, .nat p.hi]

/-- Reads a pair, its ends in the order in which they are given. -/
def ofJson? (v : Value) : Option Pair := do
  let (a, b) ← Json.readPair Json.readNat Json.readNat v
  return ⟨a, b⟩

/-- The document of a set of pairs. -/
def setToJson (pairs : KeySet Pair) : Value := .list toJson pairs.toList

/-- Reads a set of pairs. -/
def setOfJson? (v : Value) : Option (KeySet Pair) := do
  return KeySet.ofList (← Json.readList ofJson? v)

/-- The document of a table over pairs, which has one only if it is empty. -/
def tableToJson? (t : Table Pair Float) : Option Value :=
  if t.isEmpty then some (.object []) else none

end Pair

namespace Problem

/-- The names of the fields of a problem. -/
def fieldNames : List String :=
  ["mode", "weights", "strengths", "chains", "pinned", "pin_helpers", "assertions", "known_values",
    "simple_offset"]

/-- The document of a problem. -/
def toJson? (p : Problem Float) : Option Value := do
  return .record (fieldNames.zip [p.mode.toJson, .natTable .float p.weights,
    ← Pair.tableToJson? p.strengths, Pair.setToJson p.chains, .natTable Spin.toJson p.pinned,
    .natTable .nat p.pinHelpers, .list Expr.toJson p.assertions,
    .textTable Spin.toJson p.knownValues, .float p.offset])

/-- Reads a problem. -/
def ofJson? (v : Value) : Option (Problem Float) := do
  let [mode, weights, strengths, chains, pinned, pinHelpers, assertions, knownValues, offset] ←
    Json.slots fieldNames v | none
  return {
    mode := ← mode.required Mode.ofJson?
    weights := ← weights.required (Json.readNatTable Json.readFloat)
    strengths := ← strengths.required Json.readEmptyTable
    chains := ← chains.required Pair.setOfJson?
    pinned := ← pinned.required (Json.readNatTable Spin.ofJson?)
    pinHelpers := ← pinHelpers.required (Json.readNatTable Json.readNat)
    assertions := ← assertions.required (Json.readList (Expr.ofJson? (Json.nestingLimit - 2)))
    knownValues := ← knownValues.required (Json.readTextTable Spin.ofJson?)
    offset := ← offset.required Json.readFloat }

end Problem

namespace SimplifyReport

/-- The names of the fields of a report. -/
def fieldNames : List String := ["vars_before", "vars_after", "aliased", "fixed"]

/-- The document of a report. -/
def toJson (r : SimplifyReport) : Value :=
  .record (fieldNames.zip ([r.varsBefore, r.varsAfter, r.aliased, r.fixed].map .nat))

/-- Reads a report. -/
def ofJson? (v : Value) : Option SimplifyReport := do
  let [before, after, aliased, fixed] ← Json.slots fieldNames v | none
  return ⟨← before.required Json.readNat, ← after.required Json.readNat,
    ← aliased.required Json.readNat, ← fixed.required Json.readNat⟩

end SimplifyReport

end SpinGlass

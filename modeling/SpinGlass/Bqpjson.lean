import SpinGlass.Json.Printer
import SpinGlass.Json.Record
import SpinGlass.Physical.Basic

/-!
# bqpjson documents

The exchange format of quadratic problems. The value of a document at an assignment is
`scale * (offset + linear terms + quadratic terms)`, so that the scale can undo a scaling of the
coefficients.
-/

namespace SpinGlass

open Json (Value)

/-- A linear term of a document. -/
structure LinearTerm (K : Type) where
  id : Nat
  coeff : K

/-- A quadratic term of a document. -/
structure QuadraticTerm (K : Type) where
  tail : Nat
  head : Nat
  coeff : K

/-- A quadratic problem in the exchange format. -/
structure Bqpjson (K : Type) where
  version : String
  id : Nat
  metadata : Table String Value
  variableIds : List Nat
  /-- The word for the values of the variables. -/
  variableDomain : String
  scale : K
  offset : K
  linearTerms : List (LinearTerm K)
  quadraticTerms : List (QuadraticTerm K)

namespace Bqpjson

/-- The version of the format that is written. -/
def currentVersion : String := "1.0.0"

/-- The metadata that names the program which wrote a document, with one more member. -/
def metadataWith (name : String) (v : Value) : Table String Value :=
  .ofList [("generated_by", .string "spinasm"), (name, v)]

/-- The word for the values of the variables of a mode. -/
def domainOf : Mode → String
  | .qubo => "boolean"
  | .ising => "spin"

section

variable {K : Type} [Coefficient K]

/-- The linear terms of a table. -/
def linearTermsOf (weights : Table Nat K) : List (LinearTerm K) :=
  weights.entries.map fun (id, coeff) => ⟨id, coeff⟩

/-- The quadratic terms of a table. -/
def quadraticTermsOf (strengths : Table Pair K) : List (QuadraticTerm K) :=
  strengths.entries.map fun (q, coeff) => ⟨q.lo, q.hi, coeff⟩

/-- The document of a problem, without terms that are zero. The metadata keeps the names. -/
def ofModel (m : Model K) : Bqpjson K where
  version := currentVersion
  id := 0
  metadata := metadataWith "variable_names" <|
    .record (m.symbols.entries.map fun e => (e.1, .nat e.2))
  variableIds := List.range m.symbols.size
  variableDomain := domainOf m.problem.mode
  scale := Coefficient.one
  offset := m.problem.offset
  linearTerms := linearTermsOf m.problem.weights.nonzero
  quadraticTerms := quadraticTermsOf m.problem.strengths.nonzero

/-- The document of a physical problem. The metadata keeps the chains, and the scale undoes the
scaling of the coefficients. -/
def ofPhysical (p : PhysicalProblem K) : Bqpjson K where
  version := currentVersion
  id := 0
  metadata := metadataWith "chains" (.list (.list .nat) p.embedding.chains)
  variableIds := p.qubits
  variableDomain := domainOf .ising
  scale := Coefficient.one / p.scaleFactor
  offset := p.offset * p.scaleFactor
  linearTerms := linearTermsOf p.weights
  quadraticTerms := quadraticTermsOf p.strengths

end

/-- The document tree of a linear term. -/
def linearToJson (t : LinearTerm Float) : Value :=
  .record [("id", .nat t.id), ("coeff", .float t.coeff)]

/-- The document tree of a quadratic term. -/
def quadraticToJson (t : QuadraticTerm Float) : Value :=
  .record [("id_tail", .nat t.tail), ("id_head", .nat t.head), ("coeff", .float t.coeff)]

/-- Reads a linear term. -/
def linearOfJson? (v : Value) : Option (LinearTerm Float) := do
  let [id, coeff] ← Json.slots ["id", "coeff"] v | none
  return ⟨← id.required Json.readNat, ← coeff.required Json.readFloat⟩

/-- Reads a quadratic term. -/
def quadraticOfJson? (v : Value) : Option (QuadraticTerm Float) := do
  let [tail, head, coeff] ← Json.slots ["id_tail", "id_head", "coeff"] v | none
  return ⟨← tail.required Json.readNat, ← head.required Json.readNat,
    ← coeff.required Json.readFloat⟩

/-- Reads a value of the metadata whose containers are nested at most `limit` deep. -/
def metadataOfJson? (limit : Nat) (v : Value) : Option Value :=
  if v.isUsable limit then some v.sortMembers else none

/-- The names of the fields of a document. -/
def fieldNames : List String :=
  ["version", "id", "metadata", "variable_ids", "variable_domain", "scale", "offset",
    "linear_terms", "quadratic_terms"]

/-- The document tree of a problem. -/
def toJson (b : Bqpjson Float) : Value :=
  .record (fieldNames.zip [.string b.version, .nat b.id, .textTable (fun v => v) b.metadata,
    .list .nat b.variableIds, .string b.variableDomain, .float b.scale, .float b.offset,
    .list linearToJson b.linearTerms, .list quadraticToJson b.quadraticTerms])

/-- The text of the document of a problem, over several lines. -/
def jsonText (b : Bqpjson Float) : String := b.toJson.indented

/-- Reads a document. -/
def ofJson? (v : Value) : Option (Bqpjson Float) := do
  let [version, id, metadata, variableIds, variableDomain, scale, offset, linearTerms,
    quadraticTerms] ← Json.slots fieldNames v | none
  return {
    version := ← version.required Json.readText
    id := ← id.required Json.readNat
    metadata := ← metadata.required
      (Json.readTextTable (metadataOfJson? (Json.nestingLimit - 2)))
    variableIds := ← variableIds.required (Json.readList Json.readNat)
    variableDomain := ← variableDomain.required Json.readText
    scale := ← scale.required Json.readFloat
    offset := ← offset.required Json.readFloat
    linearTerms := ← linearTerms.required (Json.readList linearOfJson?)
    quadraticTerms := ← quadraticTerms.required (Json.readList quadraticOfJson?) }

end Bqpjson

end SpinGlass

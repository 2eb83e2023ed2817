import SpinGlass.Embedding.Strategy
import SpinGlass.Json.Record

/-!
# Embeddings and strategies as documents

An embedding is stored as its chains. The choice of a strategy names the strategy in a field of
its own, beside the parameters, and most parameters have defaults.
-/

namespace SpinGlass

open Json (Value)

namespace Embedding

/-- The document of an embedding. -/
def toJson (e : Embedding) : Value := .record [("chains", .list (.list .nat) e.chains)]

/-- Reads an embedding, its chains as they are. -/
def ofJson? (v : Value) : Option Embedding := do
  let [chains] ← Json.slots ["chains"] v | none
  return ⟨← chains.required (Json.readList (Json.readList Json.readNat))⟩

end Embedding

namespace EmbedOptions

/-- The document of a point. -/
def pointToJson (point : Float × Float) : Value := .array [.float point.1, .float point.2]

/-- The document of a choice of strategy. -/
def toJson : EmbedOptions Float → Value
  | dense trials seed maxRounds =>
    .record [("strategy", .string "dense"), ("trials", .nat trials), ("seed", .nat seed.toNat),
      ("max_rounds", .nat maxRounds)]
  | layout locations seed maxRounds radius =>
    .record [("strategy", .string "layout"), ("locations", .textTable pointToJson locations),
      ("seed", .nat seed.toNat), ("max_rounds", .nat maxRounds), ("radius", .nat radius)]

/-- Reads a seed, zero by default. -/
def seedOf (slot : Json.Slot) : Option UInt64 := do
  return UInt64.ofNat (← slot.orElse Json.readNat 0)

/-- Reads the parameters of a strategy. -/
def caseOfJson? (strategy : String) (v : Value) : Option (EmbedOptions Float) := do
  match strategy with
  | "dense" =>
    let [_, trials, seed, maxRounds] ←
      Json.slots ["strategy", "trials", "seed", "max_rounds"] v | none
    return dense (← trials.orElse Json.readNat defaultTrials) (← seedOf seed)
      (← maxRounds.orElse Json.readNat defaultMaxRounds)
  | "layout" =>
    let [_, locations, seed, maxRounds, radius] ←
      Json.slots ["strategy", "locations", "seed", "max_rounds", "radius"] v | none
    return layout
      (← locations.required (Json.readTextTable (Json.readPair Json.readFloat Json.readFloat)))
      (← seedOf seed) (← maxRounds.orElse Json.readNat defaultMaxRounds)
      (← radius.orElse Json.readNat defaultRadius)
  | _ => none

/-- Reads a choice of strategy whose containers are nested at most `limit` deep. The strategy may
come after its parameters, so even members that it does not have must be readable. -/
def ofJson? (limit : Nat) (v : Value) : Option (EmbedOptions Float) := do
  if v.isUsable limit then caseOfJson? (← Json.readTag "strategy" v) v else none

end EmbedOptions

end SpinGlass

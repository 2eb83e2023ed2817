import SpinGlass.Embedding.Dense
import SpinGlass.Embedding.Layout

/-!
# Strategies

How an embedding is searched for, and the search with its checks.
-/

namespace SpinGlass

/-- The choice of a strategy, with places by name. -/
inductive EmbedOptions (K : Type) where
  | dense (trials : Nat) (seed : UInt64) (maxRounds : Nat)
  | layout (locations : Table String (K × K)) (seed : UInt64) (maxRounds radius : Nat)

/-- A strategy, with places by index. -/
inductive Strategy (K : Type) where
  | dense (trials : Nat) (seed : UInt64) (maxRounds : Nat)
  | layout (locations : Locations K) (seed : UInt64) (maxRounds radius : Nat)

namespace EmbedOptions

variable {K : Type}

/-- The number of trials by default. -/
def defaultTrials : Nat := 10

/-- The number of rounds by default. -/
def defaultMaxRounds : Nat := 32

/-- The radius by default. -/
def defaultRadius : Nat := 1

/-- The strategy by default. -/
def default : EmbedOptions K := .dense defaultTrials 0 defaultMaxRounds

/-- The strategy for the names of a table; places of names without an index are left out. -/
def resolve (options : EmbedOptions K) (symbols : Symbols) : Strategy K :=
  match options with
  | .dense trials seed maxRounds => .dense trials seed maxRounds
  | .layout locations seed maxRounds radius =>
    .layout
      (.ofList (locations.entries.filterMap fun (name, point) =>
        (symbols.lookup? name).map fun i => (i, point)))
      seed maxRounds radius

end EmbedOptions

namespace Strategy

variable {K : Type} [Coefficient K]

/-- The word for a strategy. -/
def name : Strategy K → String
  | dense .. => "dense"
  | layout .. => "layout"

/-- A layout with other places; a dense strategy has none. -/
def relocate (strategy : Strategy K) (locations : Locations K) : Strategy K :=
  match strategy with
  | dense trials seed maxRounds => dense trials seed maxRounds
  | layout _ seed maxRounds radius => layout locations seed maxRounds radius

/-- Runs a strategy as it is. -/
@[specialize] def search (strategy : Strategy K) (logical : LogicalGraph) (target : Target)
    (cancelled : Bool) : Except EmbedError Embedding :=
  match strategy with
  | dense trials seed maxRounds => Dense.embed K trials maxRounds seed logical target cancelled
  | layout locations seed maxRounds radius =>
    Layout.embed locations radius maxRounds seed logical target cancelled

/-- Runs a strategy after the cheap checks that an embedding is possible, and validates what it
finds. -/
@[specialize] def embed (strategy : Strategy K) (logical : LogicalGraph) (target : Target)
    (cancelled : Bool) : Except EmbedError Embedding := do
  if logical.size = 0 then return ⟨[]⟩
  if target.size = 0 then throw .emptyTarget
  if target.size < logical.size then throw (.tooLarge logical.size target.size)
  let embedding ← strategy.search logical target cancelled
  embedding.validate logical target
  return embedding

end Strategy

end SpinGlass

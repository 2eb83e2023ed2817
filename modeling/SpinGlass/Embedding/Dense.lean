import SpinGlass.Embedding.Router

/-!
# Dense embedding

Several routing trials without bias, each with a seed of its own. The smallest result is kept,
and of equally small ones the first.
-/

namespace SpinGlass

namespace Dense

/-- One trial: the order of placement is random as well. -/
@[specialize] def trial (K : Type) [Coefficient K] (logical : LogicalGraph) (target : Target)
    (maxRounds : Nat) (cancelled : Bool) (seed : UInt64) : Option (List (List Nat)) :=
  let (order, _) := (Generator.ofSeed seed).shuffle (List.range logical.size)
  Routing.run (⟨logical, target, RootBias.none⟩ : RoutingTask K) order maxRounds seed cancelled

/-- The number of slots in a list of chains. -/
def slotCount (chains : List (List Nat)) : Nat := chains.flatten.length

/-- The first of the smallest results. -/
def smallest? (results : List (List (List Nat))) : Option (List (List Nat)) :=
  results.foldl
    (fun best chains =>
      match best with
      | some known => if slotCount chains < slotCount known then some chains else best
      | none => some chains)
    none

/-- The best result of the trials; there is one trial at least. -/
@[specialize] def embed (K : Type) [Coefficient K] (trials maxRounds : Nat) (seed : UInt64)
    (logical : LogicalGraph) (target : Target) (cancelled : Bool) : Except EmbedError Embedding :=
  let trials := max trials 1
  let results := (List.range trials).filterMap fun t =>
    trial K logical target maxRounds cancelled (seed + UInt64.ofNat t)
  match smallest? results with
  | some chains => .ok (.ofSlots target chains)
  | none => .error (if cancelled then .cancelled else .noEmbedding trials)

end Dense

end SpinGlass

import SpinGlass.Coefficient
import SpinGlass.Hardware.Target

/-!
# Shortest paths from a chain

Entering a slot has a cost, and a path costs as much as the slots after its start. The search
settles slots in the order of their distance, slots of equal distance in their own order.
-/

namespace SpinGlass

/-- Distances from a set of slots, and the way back. -/
structure Search (K : Type) where
  /-- The least known cost of each slot; none where no path is known. -/
  distances : Array (Option K)
  /-- The slot before each slot on its path. -/
  parents : Array (Option Nat)
  /-- Slots to settle with their cost when they were entered here, in order. A slot that was
  entered again at a lower cost is still here with the old one. -/
  frontier : List (K × Nat)

namespace Search

variable {K : Type} [Coefficient K]

/-- The least known cost of a slot. -/
def distance? (s : Search K) (slot : Nat) : Option K := (s.distances[slot]?).join

/-- The slot before a slot on its path. -/
def parent? (s : Search K) (slot : Nat) : Option Nat := (s.parents[slot]?).join

/-- Whether an entry comes before another: the cheaper one, or the lower slot. -/
@[specialize] def comesBefore (a b : K × Nat) : Bool :=
  match Coefficient.totalCompare a.1 b.1 with
  | .lt => true
  | .gt => false
  | .eq => a.2 < b.2

/-- Puts an entry at its place. -/
@[specialize] def enqueue (entry : K × Nat) : List (K × Nat) → List (K × Nat)
  | [] => [entry]
  | other :: rest =>
    if comesBefore entry other then entry :: other :: rest else other :: enqueue entry rest

/-- The search at its start: the sources cost nothing. -/
@[specialize] def start (size : Nat) (sources : List Nat) : Search K :=
  { distances := sources.foldl (fun d s => d.setIfInBounds s (some 0)) (Array.replicate size none)
    parents := Array.replicate size none
    frontier := sources.foldl (fun f s => enqueue (0, s) f) [] }

/-- Enters slot `t` from `slot` if that is cheaper than all ways known. -/
@[specialize] def relax (costs : Array K) (slot : Nat) (reached : K) (s : Search K) (t : Nat) :
    Search K :=
  let cost := reached + costs.getD t 0
  let improves :=
    match s.distance? t with
    | none => Coefficient.isFinite cost
    | some known => decide (cost < known)
  if improves then
    { distances := s.distances.setIfInBounds t (some cost)
      parents := s.parents.setIfInBounds t (some slot)
      frontier := enqueue (cost, t) s.frontier }
  else s

/-- Whether an entry has been overtaken by a cheaper one for its slot. -/
@[specialize] def isStale (s : Search K) (entry : K × Nat) : Bool :=
  match s.distance? entry.2 with
  | some known => decide (known < entry.1)
  | none => false

/-- Settles slots, one a round, until the frontier is empty. -/
@[specialize] def settle (target : Target) (costs : Array K) : Nat → Search K → Search K
  | 0, s => s
  | rounds + 1, s =>
    match s.frontier.dropWhile s.isStale with
    | [] => { s with frontier := [] }
    | (reached, slot) :: rest =>
      settle target costs rounds
        ((target.neighborSlots slot).foldl (relax costs slot reached) { s with frontier := rest })

/-- The shortest paths from a list of slots. A slot is settled once, and a source once for each time
that it is listed, so as many rounds as there are slots and sources are enough. -/
@[specialize] def run (target : Target) (costs : Array K) (sources : List Nat) : Search K :=
  settle target costs (costs.size + sources.length) (start costs.size sources)

/-- The slots on the way from a slot back to the sources, the source left out. No slot comes
twice, so `fuel` may be the number of slots. -/
@[specialize] def walk (s : Search K) : Nat → Nat → List Nat
  | 0, _ => []
  | fuel + 1, slot =>
    match s.distance? slot with
    | none => []
    | some d =>
      if 0 < d then
        match s.parent? slot with
        | some parent => slot :: walk s fuel parent
        | none => [slot]
      else []

end Search

end SpinGlass

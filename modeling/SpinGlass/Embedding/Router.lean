import SpinGlass.Embedding.Basic
import SpinGlass.Embedding.ShortestPath
import SpinGlass.Random.Generator

/-!
# Routing chains

A variable is placed by searching outwards from the chains of its neighbours. The slot with the
least sum of distances becomes the root, and the chain is the union of the paths back. A slot in
use costs the penalty to the power of its uses, so that rounds of placing every variable anew
push the chains apart until they share nothing.
-/

namespace SpinGlass

/-- A bias on where the root of a chain may lie. -/
structure RootBias (K : Type) where
  /-- The extra cost of a root in an attempt, for a variable and a slot; none if the slot is out
  of bounds. -/
  cost : Nat → Nat → Nat → Option K
  /-- The number of attempts, each with wider bounds. -/
  attempts : Nat

/-- What a routing works on. -/
structure RoutingTask (K : Type) where
  logical : LogicalGraph
  target : Target
  bias : RootBias K

/-- The chains so far. -/
structure Placement where
  /-- The slots of each variable, increasing; none while it is not placed. -/
  chains : Array (List Nat)
  /-- In how many chains each slot is. -/
  usage : Array Nat
  generator : Generator

namespace RootBias

/-- No bias. -/
def none {K : Type} [Coefficient K] : RootBias K := ⟨fun _ _ _ => some 0, 1⟩

end RootBias

namespace Placement

/-- The placement before any variable is placed. -/
def start (logical : LogicalGraph) (target : Target) (seed : UInt64) : Placement :=
  ⟨Array.replicate logical.size [], Array.replicate target.size 0, .ofSeed seed⟩

/-- The chain of a variable. -/
def chain (p : Placement) (v : Nat) : List Nat := p.chains.getD v []

/-- Takes the chain of a variable away. -/
def ripUp (p : Placement) (v : Nat) : Placement :=
  { p with
    chains := p.chains.setIfInBounds v []
    usage := (p.chain v).foldl (fun usage s => usage.modify s (· - 1)) p.usage }

/-- Gives a variable a chain. -/
def put (p : Placement) (v : Nat) (chain : List Nat) : Placement :=
  { p with
    chains := p.chains.setIfInBounds v chain
    usage := chain.foldl (fun usage s => usage.modify s (· + 1)) p.usage }

/-- The number of slots in more than one chain. -/
def overlaps (p : Placement) : Nat := (p.usage.toList.filter (1 < ·)).length

/-- The number of slots in chains, with repetitions. -/
def totalQubits (p : Placement) : Nat := p.chains.toList.flatten.length

/-- Whether a coupler joins the chains of two variables. -/
def touches (p : Placement) (target : Target) (a b : Nat) : Bool :=
  (p.chain a).any fun s => (target.neighborSlots s).any fun t => (p.chain b).contains t

/-- Whether every variable is placed, no slot is shared and every edge has a coupler. -/
def isValid (p : Placement) (logical : LogicalGraph) (target : Target) : Bool :=
  p.chains.all (fun c => !c.isEmpty) && p.overlaps == 0 &&
    logical.edges.all fun (a, b) => p.touches target a b

section Place

variable {K : Type} [Coefficient K]

/-- What entering each slot costs. -/
@[specialize] def slotCosts (p : Placement) (penalty : K) : Array K :=
  p.usage.map fun uses => if uses = 0 then Coefficient.one else Coefficient.power penalty uses

/-- The cost of a root: its own, and for each neighbour the rest of the path. A root that some
neighbour cannot reach has no cost. -/
@[specialize] def rootTotal (costs : Array K) (routes : List (Search K)) (slot : Nat) : Option K :=
  let own := costs.getD slot 0
  routes.foldl
    (fun total route =>
      match total, route.distance? slot with
      | some total, some d => if Coefficient.isZero d then some total else some (total + d - own)
      | _, _ => none)
    (some own)

/-- The cost of a root in an attempt, if it is within bounds and finite. -/
@[specialize] def rootCost (bias : RootBias K) (costs : Array K) (routes : List (Search K))
    (v attempt slot : Nat) : Option K :=
  match rootTotal costs routes slot with
  | none => none
  | some total =>
    if Coefficient.isFinite total then (bias.cost v slot attempt).map (total + ·) else none

/-- Costs closer than this are equal. -/
def tieMargin : K := Coefficient.one / Coefficient.ofNat 1000000000

/-- The best roots so far, latest first, and their cost. -/
structure Candidates (K : Type) where
  best : Option K
  roots : List Nat

/-- Takes a root into account: a cheaper one stands alone, an equal one joins. -/
@[specialize] def consider (c : Candidates K) (slot : Nat) (cost : K) : Candidates K :=
  match c.best with
  | none => ⟨some cost, [slot]⟩
  | some best =>
    if cost < best - tieMargin then ⟨some cost, [slot]⟩
    else if Coefficient.magnitude (cost - best) ≤ tieMargin then { c with roots := slot :: c.roots }
    else c

/-- The best roots in an attempt, in the order of slots. -/
@[specialize] def bestRoots (bias : RootBias K) (costs : Array K) (routes : List (Search K))
    (v attempt : Nat) : List Nat :=
  ((List.range costs.size).foldl
    (fun c slot =>
      match rootCost bias costs routes v attempt slot with
      | some cost => consider c slot cost
      | none => c)
    (⟨none, []⟩ : Candidates K)).roots.reverse

/-- Chooses a root in the first attempt that has any; `left` attempts follow. -/
@[specialize] def chooseRoot (bias : RootBias K) (costs : Array K) (routes : List (Search K))
    (v : Nat) : Nat → Nat → Generator → Option Nat × Generator
  | 0, _, g => (none, g)
  | left + 1, attempt, g =>
    match g.choose (bestRoots bias costs routes v attempt) with
    | (some root, g) => (some root, g)
    | (none, g) => chooseRoot bias costs routes v left (attempt + 1) g

/-- The chain of a root: the root and the paths back from it. -/
@[specialize] def chainOf (size root : Nat) (routes : List (Search K)) : List Nat :=
  sortDistinct (root :: routes.flatMap fun route => route.walk size root)

/-- Places a variable anew. It stays without a chain if no root is within reach of all its placed
neighbours. -/
@[specialize] def place (task : RoutingTask K) (p : Placement) (v : Nat) (penalty : K) :
    Placement :=
  let p := p.ripUp v
  let costs := p.slotCosts penalty
  let routes := ((task.logical.neighbors v).filter fun u => !(p.chain u).isEmpty).map fun u =>
    Search.run task.target costs (p.chain u)
  match chooseRoot task.bias costs routes v task.bias.attempts 0 p.generator with
  | (some root, g) => { p with generator := g }.put v (chainOf costs.size root routes)
  | (none, g) => { p with generator := g }

end Place

end Placement

/-- A placement and the best chains found on the way, with their number of slots. -/
structure Routing where
  placement : Placement
  best : Option (Nat × List (List Nat))

namespace Routing

/-- Keeps the chains of the placement if they are valid and fewer slots than the best so far.
Also returns whether it was so. -/
def improve (r : Routing) (logical : LogicalGraph) (target : Target) : Bool × Routing :=
  if !r.placement.isValid logical target then (false, r)
  else
    let size := r.placement.totalQubits
    let better : Bool :=
      match r.best with
      | some (least, _) => decide (size < least)
      | none => true
    if better then (true, { r with best := some (size, r.placement.chains.toList) }) else (false, r)

/-- Rounds without improvement that are tolerated once there is a valid placement. -/
def patience : Nat := 4

section

variable {K : Type} [Coefficient K]

/-- The penalty of the first round. -/
def initialPenalty : K := Coefficient.ofNat 2

/-- The penalty of a round. It grows until a valid placement is found; from then on, an overlap
costs more than the longest path without overlaps. -/
def penalty (target : Target) (r : Routing) (round : Nat) : K :=
  if r.best.isSome then Coefficient.ofNat target.size + Coefficient.one
  else initialPenalty + Coefficient.ofNat round

/-- Places all variables anew, in the given order. -/
@[specialize] def placeAll (task : RoutingTask K) (penalty : K) (order : List Nat) (p : Placement) :
    Placement :=
  order.foldl (fun p v => p.place task v penalty) p

/-- Rounds of placing all variables in a random order. `stale` counts the valid rounds without
improvement; `left` rounds follow. -/
@[specialize] def rounds (task : RoutingTask K) (cancelled : Bool) :
    Nat → Nat → Nat → List Nat → Routing → Routing
  | 0, _, _, _, r => r
  | left + 1, round, stale, order, r =>
    let valid := r.placement.isValid task.logical task.target
    let (improved, r) := r.improve task.logical task.target
    let stale := if valid then (if improved then 0 else stale + 1) else stale
    if (valid && patience ≤ stale) || cancelled then r
    else
      let (order, g) := r.placement.generator.shuffle order
      let placement := placeAll task (penalty task.target r round) order
        { r.placement with generator := g }
      rounds task cancelled left (round + 1) stale order { r with placement }

/-- Routes all variables, placed first in the given order. Returns the best valid chains of slots,
if any were found. -/
@[specialize] def run (task : RoutingTask K) (order : List Nat) (maxRounds : Nat) (seed : UInt64)
    (cancelled : Bool) : Option (List (List Nat)) :=
  let placement := placeAll task initialPenalty order (.start task.logical task.target seed)
  let r := rounds task cancelled maxRounds 0 0 order ⟨placement, none⟩
  ((r.improve task.logical task.target).2.best).map (·.2)

end

end Routing

end SpinGlass

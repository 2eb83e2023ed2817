import SpinGlass.Embedding.Basic
import SpinGlass.Problem.Energy

/-!
# Physical problems

A problem placed on a machine: coefficients over qubits and couplers. Weights go to the lowest
qubit of a chain, quadratic terms to the lowest coupler between two chains, and the couplers
inside a chain tie it together.
-/

namespace SpinGlass

/-- The largest magnitudes that a machine accepts. -/
structure Limits (K : Type) where
  weight : K
  strength : K

/-- A problem over spins on qubits. -/
structure PhysicalProblem (K : Type) where
  weights : Table Nat K
  /-- Quadratic terms and chain couplings, added up on each coupler. -/
  strengths : Table Pair K
  /-- The couplers that tie chains together. -/
  chains : KeySet Pair
  embedding : Embedding
  /-- The constant term, which scaling leaves alone. -/
  offset : K
  /-- The product of all scaling factors so far. -/
  scaleFactor : K

namespace Limits

variable {K : Type} [Coefficient K]

/-- One limit for both kinds of coefficients. -/
def uniform (limit : K) : Limits K := ⟨limit, limit⟩

/-- The limits by default. -/
def default : Limits K := ⟨Coefficient.ofNat 2, Coefficient.one⟩

end Limits

namespace PhysicalProblem

variable {K : Type} [Coefficient K]

/-- The problem without terms on an embedding. -/
def empty (embedding : Embedding) (offset : K) : PhysicalProblem K :=
  ⟨.empty, .empty, .empty, embedding, offset, Coefficient.one⟩

/-- Adds to the weight of a qubit. -/
def addWeight (p : PhysicalProblem K) (q : Nat) (w : K) : PhysicalProblem K :=
  { p with weights := p.weights.alter q fun old => old.getD 0 + w }

/-- Adds to the strength of a coupler. -/
def addStrength (p : PhysicalProblem K) (e : Pair) (j : K) : PhysicalProblem K :=
  { p with strengths := p.strengths.alter e fun old => old.getD 0 + j }

/-- Adds the chain strength to a coupler. -/
def addChain (strength : K) (p : PhysicalProblem K) (e : Pair) : PhysicalProblem K :=
  { p.addStrength e strength with chains := KeySet.insert p.chains e }

/-- The couplers between two chains. -/
def couplersBetween (target : Target) (a b : List Nat) : List Pair :=
  (a.flatMap fun qa => b.map fun qb => Pair.of qa qb).filter fun e => target.hasEdge e.lo e.hi

/-- The lowest coupler between two chains. -/
def lowestCoupler? (target : Target) (a b : List Nat) : Option Pair :=
  (sortDistinct (couplersBetween target a b)).head?

/-- The couplers inside a chain, by their ends. -/
def couplersInside (target : Target) : List Nat → List Pair
  | [] => []
  | a :: rest =>
    ((rest.filter (target.hasEdge a ·)).map (Pair.of a)) ++ couplersInside target rest

/-- The chain of a variable, which must not be empty. -/
def chainOf (embedding : Embedding) (v : Nat) : Except EmbedError (List Nat) :=
  match embedding.chain v with
  | [] => .error (.invalid (.noChain v))
  | chain => .ok chain

/-- The lowest coupler between the chains of two variables. -/
def couplerOf (embedding : Embedding) (target : Target) (q : Pair) (fault : EmbeddingFault) :
    Except EmbedError Pair := do
  let a ← chainOf embedding q.lo
  let b ← chainOf embedding q.hi
  match lowestCoupler? target a b with
  | some e => return e
  | none => throw (.invalid fault)

/-- Puts a linear term on the lowest qubit of the chain. -/
def placeWeight (embedding : Embedding) (p : PhysicalProblem K) (term : Nat × K) :
    Except EmbedError (PhysicalProblem K) := do
  let chain ← chainOf embedding term.1
  return p.addWeight (chain.headD 0) term.2

/-- Puts a quadratic term on the lowest coupler between the chains. -/
def placeStrength (embedding : Embedding) (target : Target) (p : PhysicalProblem K)
    (term : Pair × K) : Except EmbedError (PhysicalProblem K) := do
  let e ← couplerOf embedding target term.1 (.noCouplerForTerm term.1.lo term.1.hi)
  return p.addStrength e term.2

/-- Ties two chained variables by the lowest coupler between their chains. -/
def placeChain (embedding : Embedding) (target : Target) (strength : K) (p : PhysicalProblem K)
    (q : Pair) : Except EmbedError (PhysicalProblem K) := do
  let e ← couplerOf embedding target q (.noCouplerForChain q.lo q.hi)
  return p.addChain strength e

/-- Places a problem on an embedding. Terms that are zero, and couplers whose terms cancel, are
left out. -/
def reconcile (logical : Problem K) (embedding : Embedding) (target : Target) (chainStrength : K) :
    Except EmbedError (PhysicalProblem K) := do
  let logical := logical.toIsing
  let p := empty embedding logical.offset
  let p ← logical.weights.nonzero.entries.foldlM (placeWeight embedding) p
  let p ← logical.strengths.nonzero.entries.foldlM (placeStrength embedding target) p
  let p := (embedding.chains.flatMap (couplersInside target)).foldl (addChain chainStrength) p
  let p ← (KeySet.toList logical.chains).foldlM (placeChain embedding target chainStrength) p
  return { p with strengths := p.strengths.nonzero }

/-- The largest magnitude of a weight. -/
def maxAbsWeight (p : PhysicalProblem K) : K := Coefficient.largestMagnitude p.weights.values

/-- The largest magnitude of a strength. -/
def maxAbsStrength (p : PhysicalProblem K) : K := Coefficient.largestMagnitude p.strengths.values

/-- The factor that shrinks a magnitude to a limit, one if there is nothing to shrink. -/
def ratio (limit magnitude : K) : K := if 0 < magnitude then limit / magnitude else Coefficient.one

/-- The factor that takes the first coefficient to its limit; they all fit if it is one or more. -/
def scalingFactor (p : PhysicalProblem K) (limits : Limits K) : K :=
  Coefficient.smaller (ratio limits.weight p.maxAbsWeight) (ratio limits.strength p.maxAbsStrength)

/-- Multiplies all coefficients by a factor. -/
def scaleBy (p : PhysicalProblem K) (factor : K) : PhysicalProblem K :=
  { p with
    weights := p.weights.mapValues (· * factor)
    strengths := p.strengths.mapValues (· * factor)
    scaleFactor := p.scaleFactor * factor }

/-- Shrinks all coefficients by one factor into their limits, and returns the factor. -/
def scale (p : PhysicalProblem K) (limits : Limits K) : K × PhysicalProblem K :=
  let factor := p.scalingFactor limits
  if Coefficient.one ≤ factor then (Coefficient.one, p) else (factor, p.scaleBy factor)

/-- The quadratic terms of a qubit: the other qubit and the coefficient. A coupler is met from each
of its ends. -/
def terms (p : PhysicalProblem K) (q : Nat) : List (Nat × K) :=
  p.strengths.entries.flatMap fun (e, j) =>
    (if e.lo = q then [(e.hi, j)] else []) ++ (if e.hi = q then [(e.lo, j)] else [])

/-- The qubits in a chain or in a term, increasing. -/
def qubits (p : PhysicalProblem K) : List Nat :=
  sortDistinct (p.embedding.chains.flatten ++ p.weights.keys ++
    p.strengths.keys.flatMap fun e => [e.lo, e.hi])

/-- The energy that a machine reports for spins on its qubits: scaled coefficients, and no constant
term. -/
def sampleEnergy (p : PhysicalProblem K) (spins : Assignment) : K :=
  let value := Problem.value .ising spins
  Coefficient.sum (p.weights.entries.map fun (q, w) => w * value q) +
    Coefficient.sum (p.strengths.entries.map fun (e, j) => j * value e.lo * value e.hi)

end PhysicalProblem

end SpinGlass

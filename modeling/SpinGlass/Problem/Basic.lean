import SpinGlass.Coefficient
import SpinGlass.Expr.Basic
import SpinGlass.Symbols

/-!
# Problems

A quadratic objective over indexed variables, with the constraints that come with it: variables
chained together, variables pinned to a spin, and assertions that are only checked on solutions.
-/

namespace SpinGlass

/-- An unordered pair of indices, the lower one first. -/
structure Pair where
  lo : Nat
  hi : Nat
  deriving DecidableEq, Repr

namespace Pair

/-- The pair of two indices. -/
def of (a b : Nat) : Pair := if a < b then ⟨a, b⟩ else ⟨b, a⟩

/-- Whether an index is one of the two. -/
def contains (p : Pair) (i : Nat) : Bool := p.lo == i || p.hi == i

/-- The end that is not `i`. -/
def other (p : Pair) (i : Nat) : Nat := if p.lo = i then p.hi else p.lo

instance : Ord Pair := ⟨compareLex (compareOn lo) (compareOn hi)⟩

instance : Std.TransOrd Pair :=
  inferInstanceAs (Std.TransCmp (compareLex (compareOn lo) (compareOn hi)))

instance : Std.LawfulEqOrd Pair where
  eq_of_compare {a b} h := by
    have h : (compare a.lo b.lo).then (compare a.hi b.hi) = .eq := h
    rw [Ordering.then_eq_eq] at h
    obtain ⟨hlo, hhi⟩ := h
    cases a; cases b
    simp only [Nat.compare_eq_eq] at hlo hhi
    simp [hlo, hhi]

/-- The pair with both ends renumbered, if both still exist. -/
def renumber (r : Remap) (p : Pair) : Option Pair := do return of (← r.get? p.lo) (← r.get? p.hi)

end Pair

/-- The entries of a table that are not zero. -/
def Table.nonzero {α K : Type} [Ord α] [Coefficient K] (t : Table α K) : Table α K :=
  t.filter fun _ x => !Coefficient.isZero x

/-- A quadratic problem with coefficients in `K`. -/
structure Problem (K : Type) where
  /-- How variables are read. -/
  mode : Mode
  /-- Linear coefficients. -/
  weights : Table Nat K
  /-- Quadratic coefficients. -/
  strengths : Table Pair K
  /-- Pairs of variables that take the same value. -/
  chains : KeySet Pair
  /-- Variables with a fixed value. -/
  pinned : Table Nat Spin
  /-- The variable that each pin helper stands by. -/
  pinHelpers : Table Nat Nat
  assertions : List Expr
  /-- Names whose value became known, and which have no index any more. -/
  knownValues : Table String Spin
  /-- The constant term. -/
  offset : K

namespace Problem

variable {K : Type}

/-- The problem with its coefficients read as others. -/
def map {L : Type} (f : K → L) (p : Problem K) : Problem L where
  mode := p.mode
  weights := p.weights.mapValues f
  strengths := p.strengths.mapValues f
  chains := p.chains
  pinned := p.pinned
  pinHelpers := p.pinHelpers
  assertions := p.assertions
  knownValues := p.knownValues
  offset := f p.offset

variable [Coefficient K]

/-- The problem without terms and constraints. -/
def empty (mode : Mode) : Problem K :=
  ⟨mode, .empty, .empty, .empty, .empty, .empty, [], .empty, 0⟩

/-- The linear coefficient of a variable. -/
def weight (p : Problem K) (i : Nat) : K := (p.weights.get? i).getD 0

/-- The quadratic coefficient of two variables. -/
def strength (p : Problem K) (a b : Nat) : K := (p.strengths.get? (.of a b)).getD 0

/-- Adds a linear term. -/
def addWeight (p : Problem K) (i : Nat) (w : K) : Problem K :=
  { p with weights := p.weights.alter i fun old => old.getD 0 + w }

/-- Adds a quadratic term. On a single variable it is linear for bits, since `x * x = x`, and
constant for spins, since `s * s = 1`. -/
def addStrength (p : Problem K) (a b : Nat) (j : K) : Problem K :=
  if a = b then
    match p.mode with
    | .qubo => p.addWeight a j
    | .ising => { p with offset := p.offset + j }
  else { p with strengths := p.strengths.alter (.of a b) fun old => old.getD 0 + j }

/-- The quadratic terms of a variable: the other variable and the coefficient. -/
def incident (p : Problem K) (i : Nat) : List (Nat × K) :=
  (p.strengths.entries.filter fun e => e.1.contains i).map fun e => (e.1.other i, e.2)

/-- Whether a variable is chained to another. -/
def inChain (p : Problem K) (i : Nat) : Bool := (KeySet.toList p.chains).any (·.contains i)

/-- The variables that occur in a term, a chain or a pin, increasing. -/
def activeIndices (p : Problem K) : List Nat :=
  let pairs := p.strengths.keys ++ KeySet.toList p.chains
  KeySet.toList <| KeySet.ofList <|
    p.weights.keys ++ pairs.flatMap (fun q => [q.lo, q.hi]) ++ p.pinned.keys

/-- The largest magnitude of a linear coefficient. -/
def maxAbsWeight (p : Problem K) : K := Coefficient.largestMagnitude p.weights.values

/-- The largest magnitude of a quadratic coefficient. -/
def maxAbsStrength (p : Problem K) : K := Coefficient.largestMagnitude p.strengths.values

/-- Drops the terms whose coefficient is zero. -/
def pruneZeros (p : Problem K) : Problem K :=
  { p with weights := p.weights.nonzero, strengths := p.strengths.nonzero }

/-- Whether nothing is left to optimize. -/
def isDegenerate (p : Problem K) : Bool :=
  p.weights.values.all Coefficient.isZero && p.strengths.values.all Coefficient.isZero

/-- Renumbers every index; what mentions a retired one is dropped. -/
def renumber (p : Problem K) (r : Remap) : Problem K :=
  { p with
    weights := p.weights.filterMapKeys r.get?
    strengths := p.strengths.filterMapKeys (Pair.renumber r)
    chains := Table.filterMapKeys p.chains (Pair.renumber r)
    pinned := p.pinned.filterMapKeys r.get?
    pinHelpers := .ofList <| p.pinHelpers.entries.filterMap fun (helper, user) => do
      return (← r.get? helper, ← r.get? user) }

end Problem

/-- A problem and the names of its variables. -/
structure Model (K : Type) where
  problem : Problem K
  symbols : Symbols

end SpinGlass

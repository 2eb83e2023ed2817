import SpinGlass.Problem.Basic

/-!
# Interaction graphs

The graph of a problem: its variables, and an edge between two that share a term or a chain.
-/

namespace SpinGlass

/-- An undirected graph over indices from zero. -/
structure LogicalGraph where
  /-- The neighbours of each variable. -/
  adjacency : Array (KeySet Nat)
  deriving DecidableEq

namespace LogicalGraph

/-- The graph with `size` variables and no edges. -/
def empty (size : Nat) : LogicalGraph := ⟨Array.replicate size .empty⟩

/-- The number of variables. -/
def size (g : LogicalGraph) : Nat := g.adjacency.size

/-- The neighbours of a variable, increasing. -/
def neighbors (g : LogicalGraph) (v : Nat) : List Nat :=
  KeySet.toList (g.adjacency.getD v .empty)

/-- Adds variables, without edges, up to a size. -/
def grow (g : LogicalGraph) (size : Nat) : LogicalGraph :=
  ⟨g.adjacency ++ Array.replicate (size - g.size) .empty⟩

/-- Adds `b` to the neighbours of `a`. -/
def addNeighbor (g : LogicalGraph) (a b : Nat) : LogicalGraph :=
  ⟨g.adjacency.modify a fun set => KeySet.insert set b⟩

/-- Adds an edge, and its ends if they are new; a loop changes nothing. -/
def addEdge (g : LogicalGraph) (a b : Nat) : LogicalGraph :=
  if a = b then g
  else ((g.grow (max a b + 1)).addNeighbor a b).addNeighbor b a

/-- Every edge once, its lower end first, in order. -/
def edges (g : LogicalGraph) : List (Nat × Nat) :=
  (List.range g.size).flatMap fun a => ((g.neighbors a).filter (a < ·)).map fun b => (a, b)

/-- The graph of a problem with `size` variables: an edge for every quadratic term that is not
zero, and for every chain. -/
def ofProblem {K : Type} [Coefficient K] (p : Problem K) (size : Nat) : LogicalGraph :=
  let pairs := p.strengths.nonzero.keys ++ KeySet.toList p.chains
  pairs.foldl (fun g q => g.addEdge q.lo q.hi) (empty size)

end LogicalGraph

end SpinGlass

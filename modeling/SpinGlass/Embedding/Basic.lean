import SpinGlass.Embedding.LogicalGraph
import SpinGlass.Hardware.Target

/-!
# Minor embeddings

Each variable is represented by a chain of qubits. An embedding is valid if the chains are
nonempty, disjoint and connected in the target, and every edge between two variables has a
coupler between their chains.
-/

namespace SpinGlass

/-- What is wrong with an embedding. -/
inductive EmbeddingFault where
  | chainCount (chains vars : Nat)
  | emptyChain (var : Nat)
  | notInTarget (qubit : Nat)
  | shared (qubit first second : Nat)
  | disconnectedChain (var : Nat)
  /-- No coupler for an edge of the interaction graph. -/
  | noCoupler (a b : Nat)
  /-- A variable with a term but without a chain. -/
  | noChain (var : Nat)
  /-- No coupler to put a quadratic term on. -/
  | noCouplerForTerm (a b : Nat)
  /-- No coupler to tie two chained variables with. -/
  | noCouplerForChain (a b : Nat)
  deriving DecidableEq

/-- The wording of a fault. -/
def EmbeddingFault.message : EmbeddingFault → String
  | chainCount chains vars => s!"{chains} chains for {vars} variables"
  | emptyChain var => s!"variable {var} has an empty chain"
  | notInTarget qubit => s!"qubit {qubit} is not in the target"
  | shared qubit first second => s!"qubit {qubit} is shared by {first} and {second}"
  | disconnectedChain var => s!"chain of variable {var} is disconnected"
  | noCoupler a b => s!"edge ({a}, {b}) has no coupler"
  | noChain var => s!"variable {var} has no chain"
  | noCouplerForTerm a b => s!"no coupler between chains of {a} and {b}"
  | noCouplerForChain a b => s!"no coupler for chain {a} = {b}"

/-- Why there is no embedding. -/
inductive EmbedError where
  | noEmbedding (trials : Nat)
  | cancelled
  | emptyTarget
  | tooLarge (vars qubits : Nat)
  | missingLocations
  | notChimera
  | invalid (fault : EmbeddingFault)
  deriving DecidableEq

/-- The wording of an embedding error. -/
def EmbedError.message : EmbedError → String
  | noEmbedding trials => s!"no embedding found after {trials} trial(s)"
  | cancelled => "embedding was cancelled before any valid placement was found"
  | emptyTarget => "target graph has no qubits"
  | tooLarge vars qubits => s!"{vars} logical variables cannot fit on {qubits} qubits"
  | missingLocations => "layout embedding needs a location for at least one variable"
  | notChimera => "layout embedding needs a target with a known Chimera shape"
  | invalid fault => s!"invalid embedding: {fault.message}"

/-- A chain of qubits for each variable. -/
structure Embedding where
  chains : List (List Nat)
  deriving DecidableEq

namespace Embedding

/-- The embedding of a list of chains, each sorted and without repetitions. -/
def ofChains (chains : List (List Nat)) : Embedding := ⟨chains.map sortDistinct⟩

/-- The embedding of chains of slots. -/
def ofSlots (target : Target) (chains : List (List Nat)) : Embedding :=
  ofChains (chains.map fun chain => chain.map target.qubit)

/-- The chain of a variable, empty if there is none. -/
def chain (e : Embedding) (v : Nat) : List Nat := e.chains.getD v []

/-- The number of chains. -/
def size (e : Embedding) : Nat := e.chains.length

/-- The number of qubits, all chains taken together. -/
def totalQubits (e : Embedding) : Nat := e.chains.flatten.length

/-- The length of the longest chain. -/
def maxChainLength (e : Embedding) : Nat := (e.chains.map List.length).foldl max 0

/-- How many chains there are of each length. -/
def chainLengths (e : Embedding) : Table Nat Nat :=
  e.chains.foldl (fun h c => h.alter c.length fun n => n.getD 0 + 1) .empty

/-- Goes from the qubits on a stack to their neighbours in a chain, and returns the qubits seen.
Every qubit is on the stack once, so fuel of the length of the chain is enough. -/
def reach (target : Target) (chain : List Nat) : Nat → List Nat → List Nat → List Nat
  | 0, _, seen => seen
  | _, [], seen => seen
  | fuel + 1, q :: stack, seen =>
    let found := (target.neighbors q).filter fun r => chain.contains r && !seen.contains r
    reach target chain fuel (found ++ stack) (found ++ seen)

/-- Whether a chain is connected in the target. -/
def isConnected (target : Target) (chain : List Nat) : Bool :=
  match chain with
  | [] => true
  | first :: _ => (reach target chain chain.length [first] [first]).length == chain.length

/-- The variable that owns each qubit. -/
abbrev Owners := Table Nat Nat

/-- Notes the owner of a qubit, which has to be in the target and free. -/
def claimQubit (target : Target) (v : Nat) (owners : Owners) (q : Nat) : Except EmbedError Owners :=
  if !target.contains q then .error (.invalid (.notInTarget q))
  else
    match owners.get? q with
    | some u => .error (.invalid (.shared q u v))
    | none => .ok (owners.insert q v)

/-- Checks the chain of a variable and notes the owner of its qubits. -/
def claimChain (target : Target) (owners : Owners) (entry : List Nat × Nat) :
    Except EmbedError Owners := do
  let (chain, v) := entry
  if chain.isEmpty then throw (.invalid (.emptyChain v))
  let owners ← chain.foldlM (claimQubit target v) owners
  if !isConnected target chain then throw (.invalid (.disconnectedChain v))
  return owners

/-- Whether a coupler leads from a chain to a qubit of another variable. -/
def hasCoupler (target : Target) (owners : Owners) (chain : List Nat) (b : Nat) : Bool :=
  chain.any fun q => (target.neighbors q).any fun r => owners.get? r == some b

/-- Checks that the embedding is valid. -/
def validate (e : Embedding) (logical : LogicalGraph) (target : Target) :
    Except EmbedError Unit := do
  if e.size ≠ logical.size then throw (.invalid (.chainCount e.size logical.size))
  let owners ← e.chains.zipIdx.foldlM (claimChain target) .empty
  logical.edges.forM fun (a, b) =>
    if hasCoupler target owners (e.chain a) b then .ok () else .error (.invalid (.noCoupler a b))

end Embedding

end SpinGlass

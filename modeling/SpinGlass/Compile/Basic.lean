import SpinGlass.Bqpjson
import SpinGlass.Compile.Options
import SpinGlass.Physical.Statistics
import SpinGlass.Problem.Statements
import SpinGlass.Problem.Strength

/-!
# Compilation

From a program to a problem on a machine, and from the samples of a solver back to solutions of
the program.
-/

namespace SpinGlass

/-- Why a program cannot be compiled, or its samples not be read. -/
inductive CompileError where
  | build (e : BuildError)
  | simplify (e : SimplifyError)
  | embed (e : EmbedError)
  | solver (e : SolverError)
  | symbol (e : SymbolError)
  /-- There is no term. -/
  | nothingToDo
  /-- Variables without a coupling or a chain. -/
  | disconnected (names : List String)

/-- The wording of a compile error. -/
def CompileError.message : CompileError → String
  | build e => e.message
  | simplify e => e.message
  | embed e => e.message
  | solver e => e.message
  | symbol e => e.message
  | nothingToDo => "nothing to optimize: every weight and strength is zero"
  | disconnected names =>
    "variables with no coupling to anything else: " ++ ", ".intercalate names

/-- A program on a machine. -/
structure Compiled (K : Type) where
  /-- The problem over spins, as it was embedded, and its names. -/
  model : Model K
  physical : PhysicalProblem K
  strengths : Strengths K
  statistics : Statistics K
  options : CompileOptions K

/-- A row of the table of an embedding. -/
structure EmbeddingRow where
  index : Nat
  names : List String
  qubits : List Nat
  deriving DecidableEq

namespace CompileOptions

variable {K : Type} [Coefficient K]

/-- The statements of a program and the pins of the options. -/
def statements (o : CompileOptions K) (program : Program K) : Program K :=
  program ++ o.extraPins.entries.map fun (name, value) => .pin name value

/-- Simplifies a model, if the options ask for it. -/
def simplify (o : CompileOptions K) (m : Model K) :
    Except CompileError (Option SimplifyReport × Model K) :=
  if o.optimize then
    match m.simplify o.foldDominated with
    | .ok (report, m) => .ok (some report, m)
    | .error e => .error (.simplify e)
  else .ok (none, m)

/-- Checks that there is something to embed and that all of it takes part. -/
def checkEmbeddable (m : Model K) : Except CompileError Unit :=
  if m.problem.isDegenerate then .error .nothingToDo
  else
    match m.disconnected with
    | [] => .ok ()
    | names => .error (.disconnected names)

/-- Embeds a model and places it on the target, scaled into the limits. -/
@[specialize] def place (o : CompileOptions K) (m : Model K) (target : Target) (chainStrength : K)
    (cancelled : Bool) : Except EmbedError (PhysicalProblem K) := do
  let graph := LogicalGraph.ofProblem m.problem m.symbols.size
  let embedding ← (o.embed.resolve m.symbols).embed graph target cancelled
  let physical ← PhysicalProblem.reconcile m.problem embedding target chainStrength
  return (physical.scale o.limits).2

end CompileOptions

/-- Compiles a program for a target. -/
@[specialize] def compile {K : Type} [Coefficient K] (o : CompileOptions K) (program : Program K)
    (target : Target) (cancelled : Bool) : Except CompileError (Compiled K) := do
  let m ← (Model.build (o.statements program) o.mode .empty).mapError .build
  let m := m.mapProblem (·.toIsing)
  let strengths := m.problem.assignStrengths o.chainStrength o.pinStrength
  let (report, m) ← o.simplify (m.pinWithHelpers strengths.pin)
  CompileOptions.checkEmbeddable m
  let physical ← (o.place m target strengths.chain cancelled).mapError .embed
  return {
    model := m
    physical
    strengths
    statistics := .collect m.problem m.symbols.size physical report
    options := o }

namespace Compiled

variable {K : Type}

/-- The mode of the program. -/
def mode (c : Compiled K) : Mode := c.options.mode

/-- What the samples of a program are read by. -/
def decoder (c : Compiled K) : Decoder K := ⟨c.model, c.physical.embedding, c.mode⟩

/-- The names and the qubits of every variable. -/
def embeddingTable (c : Compiled K) : List EmbeddingRow :=
  (List.range c.model.symbols.size).map fun i =>
    ⟨i, c.model.symbols.namesOf i, c.physical.embedding.chain i⟩

variable [Coefficient K]

/-- Decodes samples. -/
def decode (c : Compiled K) (raw : SampleSet K) : Except CompileError (DecodeReport K) :=
  (c.decoder.decode raw c.options.decode).mapError .solver

/-- Decodes samples with energies of another type. -/
def decodeAs {L : Type} [Coefficient L] (f : K → L) (c : Compiled K) (raw : SampleSet L) :
    Except CompileError (DecodeReport L) :=
  ((c.decoder.map f).decode raw (c.options.decode.map f)).mapError .solver

/-- Has a solver find samples. -/
def solve (c : Compiled K) (solver : Solver K) (params : SolveParams K) :
    Except CompileError (SampleSet K) :=
  (solver c.physical params).mapError .solver

/-- Has a solver find samples and decodes them. -/
def run (c : Compiled K) (solver : Solver K) (params : SolveParams K) :
    Except CompileError (DecodeReport K) := do
  c.decode (← c.solve solver params)

/-- The exchange document of the problem on the machine. -/
def bqpjson (c : Compiled K) : Bqpjson K := .ofPhysical c.physical

/-- The program after simplification, in its own mode. -/
def programText (c : Compiled Float) : Except CompileError String :=
  (c.model.programText c.mode).mapError .symbol

end Compiled

end SpinGlass

import SpinGlass.Problem.Basic
import SpinGlass.Program.Statement

/-!
# From programs to problems

The statements of a program are folded, in order, into a problem and its symbols. Names in
assertions are checked at the end, since an assertion may come before the statements that
introduce its names.
-/

namespace SpinGlass

/-- Why a program makes no problem. -/
inductive BuildError where
  /-- An assertion mentions a name that no statement introduces. -/
  | unboundName (name assertion : String)
  /-- A variable is pinned both ways. -/
  | conflictingPin (name : String)
  deriving DecidableEq

/-- The wording of a build error. -/
def BuildError.message : BuildError → String
  | unboundName name assertion =>
    s!"assertion `{assertion}` refers to undefined variable `{name}`"
  | conflictingPin name => s!"variable `{name}` is pinned to both true and false"

namespace Model

variable {K : Type} [Coefficient K]

/-- The model without names and terms. -/
def empty (mode : Mode) : Model K := ⟨.empty mode, .empty⟩

/-- The index of a name, allocated if need be. -/
def intern (m : Model K) (name : String) : Nat × Model K :=
  let (i, symbols) := m.symbols.intern name
  (i, { m with symbols })

/-- Applies a change to the problem. -/
def mapProblem (m : Model K) (f : Problem K → Problem K) : Model K :=
  { m with problem := f m.problem }

/-- Pins a variable, unless it is pinned to the other spin already. -/
def pin (m : Model K) (name : String) (spin : Spin) : Except BuildError (Model K) :=
  let (i, m) := m.intern name
  match m.problem.pinned.get? i with
  | some previous =>
    if previous = spin then .ok m else .error (.conflictingPin name)
  | none => .ok (m.mapProblem fun p => { p with pinned := p.pinned.insert i spin })

/-- Chains two variables; a variable is not chained to itself. -/
def chain (m : Model K) (a b : String) : Model K :=
  let (i, m) := m.intern a
  let (j, m) := m.intern b
  if i = j then m
  else m.mapProblem fun p => { p with chains := KeySet.insert p.chains (.of i j) }

/-- Adds one statement. -/
def addStatement (m : Model K) : Statement K → Except BuildError (Model K)
  | .weight var value =>
    let (i, m) := m.intern var
    .ok (m.mapProblem (·.addWeight i value))
  | .strength a b value =>
    let (i, m) := m.intern a
    let (j, m) := m.intern b
    .ok (m.mapProblem (·.addStrength i j value))
  | .chain a b => .ok (m.chain a b)
  | .pin var value => m.pin var (.ofBool value)
  | .assert e => .ok (m.mapProblem fun p => { p with assertions := p.assertions ++ [e] })

/-- Checks that every name of an assertion has an index. -/
def checkAssertion (symbols : Symbols) (e : Expr) : Except BuildError Unit :=
  match e.names.find? fun name => (symbols.lookup? name).isNone with
  | some name => .error (.unboundName name e.text)
  | none => .ok ()

/-- Builds the problem of a program over a table of symbols. -/
def build (program : Program K) (mode : Mode) (symbols : Symbols) :
    Except BuildError (Model K) := do
  let m ← program.foldlM addStatement ⟨.empty mode, symbols⟩
  m.problem.assertions.forM (checkAssertion m.symbols)
  return m

end Model

end SpinGlass

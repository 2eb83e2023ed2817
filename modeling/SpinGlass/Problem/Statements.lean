import SpinGlass.Problem.Build
import SpinGlass.Problem.Energy

/-!
# From problems to programs

A problem is written as a program in either mode. Pin helpers are left out in favour of the pins
that they stand for, a second name of a variable becomes a chain, and a known value becomes a
pin.
-/

namespace SpinGlass

namespace Problem

variable {K : Type} [Coefficient K]

/-- The problem without everything that touches a pin helper. -/
def withoutHelpers (p : Problem K) : Problem K :=
  let isHelper (i : Nat) : Bool := p.pinHelpers.contains i
  let touches (q : Pair) : Bool := isHelper q.lo || isHelper q.hi
  { p with
    weights := p.weights.filter fun i _ => !isHelper i
    strengths := p.strengths.filter fun q _ => !touches q
    chains := KeySet.filter p.chains fun q => !touches q
    pinned := p.pinned.filter fun i _ => !isHelper i }

end Problem

namespace Model

variable {K : Type} [Coefficient K]

/-- The chains from the name shown for an index to its other names. -/
def nameChains (symbols : Symbols) (i : Nat) : Except SymbolError (Program K) := do
  let primary ← symbols.nameOf i
  return ((symbols.namesOf i).filter (· != primary)).map (.chain primary ·)

/-- The problem as a program in a mode. Helper terms are left out before the change of mode,
which would spread them over the weights of their users. -/
def statements (m : Model K) (mode : Mode) : Except SymbolError (Program K) := do
  let name := m.symbols.nameOf
  let p := m.problem.withoutHelpers.toMode mode
  let weights ← p.weights.nonzero.entries.mapM fun (i, w) => do
    return Statement.weight (← name i) w
  let strengths ← p.strengths.nonzero.entries.mapM fun (q, j) => do
    return Statement.strength (← name q.lo) (← name q.hi) j
  let chains ← (KeySet.toList p.chains).mapM fun q => do
    return Statement.chain (← name q.lo) (← name q.hi)
  let aliases ← ((List.range m.symbols.size).filter fun i => !p.pinHelpers.contains i).mapM
    (nameChains m.symbols)
  let pins ← p.pinned.entries.mapM fun (i, s) => do return Statement.pin (← name i) s.toBool
  let known := (p.knownValues.entries.filter fun e => !isInternalName e.1).map fun (n, s) =>
    Statement.pin n s.toBool
  return weights ++ strengths ++ chains ++ aliases.flatten ++ pins ++ known ++
    p.assertions.map .assert

/-- The names of variables that have neither a coupling nor a chain, sorted. -/
def disconnected (m : Model K) : List String :=
  let p := m.problem
  let pairs := p.strengths.nonzero.keys ++ KeySet.toList p.chains
  let loose := (List.range m.symbols.size).filter fun i => !pairs.any (·.contains i)
  KeySet.toList (KeySet.ofList (loose.flatMap m.symbols.namesOf))

end Model

/-- The problem as program text, one statement a line. -/
def Model.programText (m : Model Float) (mode : Mode) : Except SymbolError String := do
  return String.join ((← m.statements mode).map fun s => s.text ++ "\n")

end SpinGlass

import SpinGlass.Problem.Build

/-!
# Simplification

Rewrites that keep the objective. Chained variables become one variable, and a variable whose
value is forced moves into the constant term and the weights of its neighbours. Indices are
renumbered once, at the end.

A pinned variable that is coupled to its own helpers only is forced. If asked for, so is a
variable whose linear term outweighs all its couplings.
-/

namespace SpinGlass

/-- Why a model cannot be simplified. -/
inductive SimplifyError where
  /-- Constraints force two values onto one variable. -/
  | contradiction (names : List String) (first second : Spin)
  | symbol (e : SymbolError)
  /-- A name has an index that is not allocated, so that the indices cannot be renumbered. -/
  | strayName
  deriving DecidableEq

/-- The wording of a simplification error. -/
def SimplifyError.message : SimplifyError → String
  | contradiction names first second =>
    let names := ", ".intercalate names
    let first := Statement.truthText first.toBool
    let second := Statement.truthText second.toBool
    s!"contradiction: {names} cannot be both {first} and {second}"
  | symbol e => e.message
  | strayName => "a name has an index that is not allocated"

/-- What a simplification did. -/
structure SimplifyReport where
  varsBefore : Nat
  varsAfter : Nat
  /-- Variables merged into others. -/
  aliased : Nat
  /-- Variables whose value was fixed. -/
  fixed : Nat
  deriving DecidableEq

namespace Problem

variable {K : Type} [Coefficient K]

/-- Moves the linear term of `drop` to `keep`. -/
def mergeWeight (p : Problem K) (keep drop : Nat) : Problem K :=
  match p.weights.get? drop with
  | some w => { p with weights := p.weights.erase drop }.addWeight keep w
  | none => p

/-- Moves a quadratic term of `drop` to `keep`. -/
def moveStrength (keep drop : Nat) (p : Problem K) (term : Pair × K) : Problem K :=
  { p with strengths := p.strengths.erase term.1 }.addStrength keep (term.1.other drop) term.2

/-- Moves the quadratic terms of `drop` to `keep`. -/
def mergeStrengths (p : Problem K) (keep drop : Nat) : Problem K :=
  (p.strengths.entries.filter fun e => e.1.contains drop).foldl (moveStrength keep drop) p

/-- Moves a chain of `drop` to `keep`, unless it joins the two. -/
def moveChain (keep drop : Nat) (chains : KeySet Pair) (q : Pair) : KeySet Pair :=
  let rest := Table.erase chains q
  let other := q.other drop
  if other = keep then rest else KeySet.insert rest (.of keep other)

/-- Moves the chains of `drop` to `keep`. -/
def mergeChains (p : Problem K) (keep drop : Nat) : Problem K :=
  let touched := (KeySet.toList p.chains).filter (·.contains drop)
  { p with chains := touched.foldl (moveChain keep drop) p.chains }

/-- Puts `keep` in the place of `drop` among the helpers and their users. -/
def mergeHelpers (p : Problem K) (keep drop : Nat) : Problem K :=
  let helpers := p.pinHelpers.mapValues fun user => if user = drop then keep else user
  match helpers.get? drop with
  | some user =>
    let helpers := helpers.erase drop
    { p with pinHelpers := if user = keep then helpers else helpers.insert keep user }
  | none => { p with pinHelpers := helpers }

/-- The margin by which a linear term has to outweigh the couplings. -/
def dominanceMargin : K := Coefficient.one / Coefficient.ofNat 1000000000

/-- The spin that the linear term of a variable forces, given its quadratic terms. -/
def dominatingSpin (p : Problem K) (i : Nat) (terms : List (Nat × K)) : Option Spin :=
  let h := p.weight i
  match p.mode with
  | .ising =>
    let bound := Coefficient.sum (terms.map fun t => Coefficient.magnitude t.2)
    if dominanceMargin < Coefficient.magnitude h - bound then
      some (if 0 < h then .down else .up)
    else none
  | .qubo =>
    let least := h + Coefficient.sum (terms.map fun t => Coefficient.smaller t.2 0)
    let greatest := h + Coefficient.sum (terms.map fun t => Coefficient.larger t.2 0)
    if dominanceMargin < least then some .down
    else if greatest < -dominanceMargin then some .up
    else none

/-- The pin of a variable that is coupled to its own helpers only. -/
def releasedPin (p : Problem K) (i : Nat) (terms : List (Nat × K)) : Option Spin :=
  if terms.all fun t => p.pinHelpers.get? t.1 == some i then p.pinned.get? i else none

/-- The spin that a variable has to take, if that is evident from its terms. -/
def forcedSpin (p : Problem K) (foldDominated : Bool) (i : Nat) : Option Spin :=
  let terms := p.incident i
  (p.releasedPin i terms).or (if foldDominated then p.dominatingSpin i terms else none)

/-- Puts a value for a variable in one of its quadratic terms, which moves into the weight of the
neighbour. -/
def substituteTerm (i : Nat) (value : K) (p : Problem K) (term : Nat × K) : Problem K :=
  { p with strengths := p.strengths.erase (.of i term.1) }.addWeight term.1 (term.2 * value)

/-- Puts a spin for a variable: its terms move into the constant term and the weights of its
neighbours, and it is no longer pinned, a helper or a user. -/
def substitute (p : Problem K) (i : Nat) (spin : Spin) : Problem K :=
  let v : K := Coefficient.ofSpinIn p.mode spin
  let terms := p.incident i
  let p := { p with weights := p.weights.erase i, offset := p.offset + p.weight i * v }
  let p := terms.foldl (substituteTerm i v) p
  { p with
    pinned := p.pinned.erase i
    pinHelpers := (p.pinHelpers.erase i).filter fun _ user => user != i }

end Problem

namespace Model

variable {K : Type} [Coefficient K]

/-- Moves the pin of `drop` to `keep`, whose own pin must not differ. -/
def mergePin (m : Model K) (keep drop : Nat) : Except SimplifyError (Problem K) :=
  let p := m.problem
  match p.pinned.get? drop with
  | none => .ok p
  | some dropped =>
    let moved := { p with pinned := (p.pinned.erase drop).insert keep dropped }
    match p.pinned.get? keep with
    | none => .ok moved
    | some kept =>
      if kept = dropped then .ok moved
      else .error (.contradiction (m.symbols.namesOf keep ++ m.symbols.namesOf drop) kept dropped)

/-- Makes `drop` the same variable as `keep`. -/
def mergeInto (m : Model K) (keep drop : Nat) : Except SimplifyError (Model K) := do
  let p ← m.mergePin keep drop
  let p := (((p.mergeWeight keep drop).mergeStrengths keep drop).mergeChains keep drop).mergeHelpers
    keep drop
  match m.symbols.merge keep drop with
  | .ok (_, symbols) => .ok ⟨p, symbols⟩
  | .error e => .error (.symbol e)

/-- Merges the ends of the least chain, again and again, and counts the merges. Each removes a
chain, so as many rounds as there are chains are enough. -/
def aliasRounds : Nat → Nat → Model K → Except SimplifyError (Nat × Model K)
  | 0, merged, m => .ok (merged, m)
  | rounds + 1, merged, m =>
    match KeySet.takeFirst? m.problem.chains with
    | none => .ok (merged, m)
    | some (q, chains) => do
      aliasRounds rounds (merged + 1)
        (← { m with problem := { m.problem with chains } }.mergeInto q.lo q.hi)

/-- Replaces every chain by a merge; returns the number of merges. -/
def aliasChains (m : Model K) : Except SimplifyError (Nat × Model K) :=
  aliasRounds (Table.size m.problem.chains) 0 m

/-- Fixes a variable and retires its index; its names become known values. -/
def fix (m : Model K) (i : Nat) (spin : Spin) : Except SimplifyError (Model K) :=
  let p := m.problem.substitute i spin
  match m.symbols.retire i with
  | .error e => .error (.symbol e)
  | .ok (names, symbols) =>
    .ok ⟨{ p with knownValues := names.foldl (·.insert · spin) p.knownValues }, symbols⟩

/-- Fixes a variable if it is forced and in no chain; counts it if so. -/
def fixIfForced (foldDominated : Bool) (state : Nat × Model K) (i : Nat) :
    Except SimplifyError (Nat × Model K) := do
  let (fixed, m) := state
  if m.problem.inChain i then return state
  match m.problem.forcedSpin foldDominated i with
  | none => return state
  | some spin =>
    match m.problem.pinned.get? i with
    | some pin =>
      if pin ≠ spin then throw (.contradiction (m.symbols.namesOf i) pin spin)
    | none => pure ()
    return (fixed + 1, ← m.fix i spin)

/-- Goes over the active variables until nothing is fixed any more. A round that goes on fixes a
variable, so one round more than there are active variables is enough. -/
def propagateRounds (foldDominated : Bool) :
    Nat → Nat × Model K → Except SimplifyError (Nat × Model K)
  | 0, state => .ok state
  | rounds + 1, state => do
    let next ← state.2.problem.activeIndices.foldlM (fixIfForced foldDominated) state
    if next.1 = state.1 then return next
    propagateRounds foldDominated rounds next

/-- Fixes forced variables until nothing changes; returns the number fixed. -/
def propagateConstants (m : Model K) (foldDominated : Bool) :
    Except SimplifyError (Nat × Model K) :=
  propagateRounds foldDominated (m.problem.activeIndices.length + 1) (0, m)

/-- Renumbers the indices in use, unless there is a stray name. -/
def compact (m : Model K) : Except SimplifyError (Remap × Model K) :=
  match m.symbols.compact with
  | (some remap, symbols) => .ok (remap, ⟨m.problem.renumber remap, symbols⟩)
  | (none, _) => .error .strayName

/-- Aliases chains, fixes forced variables and renumbers. -/
def simplify (m : Model K) (foldDominated : Bool) :
    Except SimplifyError (SimplifyReport × Model K) := do
  let (aliased, simpler) ← (m.mapProblem (·.pruneZeros)).aliasChains
  let (fixed, simpler) ← simpler.propagateConstants foldDominated
  let (_, simpler) ← simpler.compact
  let simpler := simpler.mapProblem (·.pruneZeros)
  return (⟨m.symbols.size, simpler.symbols.size, aliased, fixed⟩, simpler)

end Model

end SpinGlass

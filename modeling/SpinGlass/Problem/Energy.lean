import SpinGlass.Problem.Basic

/-!
# Energies and domains

The objective value of an assignment, and the change between bits and spins: `x = (s + 1) / 2`
and `s = 2 x - 1`.
-/

namespace SpinGlass

/-- Spins of some of the variables. -/
abbrev Assignment := Nat → Option Spin

namespace Problem

variable {K : Type} [Coefficient K]

/-- The value of a variable under an assignment; one that is not assigned counts as zero. -/
def value (mode : Mode) (spins : Assignment) (i : Nat) : K :=
  match spins i with
  | some s => Coefficient.ofSpinIn mode s
  | none => 0

/-- The objective value of an assignment, constant term included. -/
def energy (p : Problem K) (spins : Assignment) : K :=
  let value := value p.mode spins
  Coefficient.sum (p.weights.entries.map fun (i, w) => w * value i) +
    Coefficient.sum (p.strengths.entries.map fun (q, j) => j * value q.lo * value q.hi) + p.offset

/-- The problem in another domain, without its linear and quadratic terms. -/
def withoutTerms (p : Problem K) (mode : Mode) : Problem K :=
  { p with mode, weights := .empty, strengths := .empty }

/-- Adds to the constant term. -/
def addOffset (p : Problem K) (c : K) : Problem K := { p with offset := p.offset + c }

/-- A linear term over bits as terms over spins. -/
def addBitWeight (p : Problem K) (i : Nat) (a : K) : Problem K :=
  let half := a / Coefficient.ofNat 2
  (p.addWeight i half).addOffset half

/-- A quadratic term over bits as terms over spins. -/
def addBitStrength (p : Problem K) (q : Pair) (b : K) : Problem K :=
  let quarter := b / Coefficient.ofNat 4
  let p := p.addStrength q.lo q.hi quarter
  ((p.addWeight q.lo quarter).addWeight q.hi quarter).addOffset quarter

/-- A linear term over spins as terms over bits. -/
def addSpinWeight (p : Problem K) (i : Nat) (h : K) : Problem K :=
  { p.addWeight i (Coefficient.ofNat 2 * h) with offset := p.offset - h }

/-- A quadratic term over spins as terms over bits. -/
def addSpinStrength (p : Problem K) (q : Pair) (j : K) : Problem K :=
  let twice := -Coefficient.ofNat 2 * j
  let p := p.addStrength q.lo q.hi (Coefficient.ofNat 4 * j)
  ((p.addWeight q.lo twice).addWeight q.hi twice).addOffset j

/-- The problem over spins. -/
def toIsing (p : Problem K) : Problem K :=
  match p.mode with
  | .ising => p
  | .qubo =>
    let out := p.withoutTerms .ising
    let out := p.weights.entries.foldl (fun out (i, a) => out.addBitWeight i a) out
    p.strengths.entries.foldl (fun out (q, b) => out.addBitStrength q b) out

/-- The problem over bits. -/
def toQubo (p : Problem K) : Problem K :=
  match p.mode with
  | .qubo => p
  | .ising =>
    let out := p.withoutTerms .qubo
    let out := p.weights.entries.foldl (fun out (i, h) => out.addSpinWeight i h) out
    p.strengths.entries.foldl (fun out (q, j) => out.addSpinStrength q j) out

/-- The problem over the domain of a mode. -/
def toMode (p : Problem K) : Mode → Problem K
  | .ising => p.toIsing
  | .qubo => p.toQubo

end Problem

end SpinGlass

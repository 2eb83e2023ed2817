import SpinGlass.Problem.Build

/-!
# Chain and pin strengths

Couplings strong enough to hold chains and pins together, and the helper variables that turn a
pin into such a coupling.
-/

namespace SpinGlass

/-- The couplings along chains and between pinned variables and their helpers. -/
structure Strengths (K : Type) where
  chain : K
  pin : K

namespace Problem

variable {K : Type} [Coefficient K]

/-- The chain strength of a problem: twice its largest magnitude, which counts as one if there
is none, and negative. -/
def defaultChainStrength (p : Problem K) : K :=
  let largest := Coefficient.larger p.maxAbsWeight p.maxAbsStrength
  let magnitude := if Coefficient.isZero largest then Coefficient.one else largest
  (-magnitude) * Coefficient.ofNat 2

/-- The strengths for a problem; given ones are taken as they are, and a pin is by default twice
as strong as a chain. -/
def assignStrengths (p : Problem K) (chain pin : Option K) : Strengths K :=
  let chain := chain.getD p.defaultChainStrength
  ⟨chain, pin.getD (chain * Coefficient.ofNat 2)⟩

/-- The pins of variables that are no helpers. -/
def userPins (p : Problem K) : List (Nat × Spin) :=
  p.pinned.entries.filter fun e => !p.pinHelpers.contains e.1

end Problem

namespace Model

variable {K : Type} [Coefficient K]

/-- Gives a pinned variable a helper: a variable pinned to the same spin, coupled to it, and with
a weight that favours the spin. -/
def addHelper (strength : K) (m : Model K) (pin : Nat × Spin) : Model K :=
  let (user, spin) := pin
  let ((_, helper), symbols) := m.symbols.fresh "pin"
  let p := m.problem.addWeight helper (strength * Coefficient.ofSpin spin)
  let p := p.addStrength user helper strength
  ⟨{ p with
      pinned := p.pinned.insert helper spin
      pinHelpers := p.pinHelpers.insert helper user }, symbols⟩

/-- Gives every pinned variable a helper. -/
def pinWithHelpers (m : Model K) (strength : K) : Model K :=
  m.problem.userPins.foldl (addHelper strength) m

end Model

end SpinGlass

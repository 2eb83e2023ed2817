import SpinGlass.Random.Generator
import SpinGlass.Sample.Results

/-!
# Annealing

A solver that flips one spin at a time. A flip that does not raise the energy is always made, and
one that does is made by chance, the less likely the later it comes. The source of chance is a
parameter, so that what holds for all sources can be stated.
-/

namespace SpinGlass

/-- A source of chance with states in `σ`. -/
structure Chance (K σ : Type) where
  /-- The spin with which a qubit starts. -/
  coin : σ → Bool × σ
  /-- Whether a flip that raises the energy is made, at an inverse temperature and for a rise. -/
  accepts : K → K → σ → Bool × σ

namespace Chance

/-- The usual source: a rise is accepted with a probability that falls exponentially. -/
def metropolis : Chance Float Generator where
  coin := Generator.nextBool
  accepts beta rise g :=
    let (u, g) := g.nextUnit
    (u < Float.exp (-beta * rise), g)

end Chance

namespace Anneal

variable {K σ : Type} [Coefficient K]

/-- Spins of all places of a vector. -/
abbrev Spins := Array Spin

/-- The spin of a qubit as a coefficient. -/
def valueAt (s : Spins) (q : Nat) : K := Coefficient.ofSpin (s.getD q .up)

/-- A qubit with its linear coefficient and its quadratic terms, in the order of the couplers. -/
structure Site (K : Type) where
  qubit : Nat
  weight : K
  terms : List (Nat × K)

/-- The sites of a problem, one for each qubit. -/
def sites (p : PhysicalProblem K) : List (Site K) :=
  p.qubits.map fun q =>
    { qubit := q
      weight := (p.weights.get? q).getD 0
      terms := p.terms q }

/-- The change of energy when the spin of a site flips. -/
@[specialize] def rise (s : Spins) (site : Site K) : K :=
  let field := site.weight + Coefficient.sum (site.terms.map fun (q, j) => j * valueAt s q)
  let twice : K := -Coefficient.ofNat 2 * valueAt s site.qubit
  twice * field

/-- Flips a spin or leaves it. -/
@[specialize] def visit (chance : Chance K σ) (beta : K) (state : Spins × σ) (site : Site K) :
    Spins × σ :=
  let (s, seed) := state
  let flipped := s.modify site.qubit (-·)
  let delta := rise s site
  if delta ≤ 0 then (flipped, seed)
  else
    let (accepted, seed) := chance.accepts beta delta seed
    (if accepted then flipped else s, seed)

/-- The inverse temperature of a sweep, which rises from one tenth. -/
def inverseTemperature (sweep sweeps : Nat) : K :=
  Coefficient.one / Coefficient.ofNat 10 +
    Coefficient.ofNat 10 * Coefficient.ofNat sweep / Coefficient.ofNat sweeps

/-- Draws a spin for every site; places without a site are up. -/
@[specialize] def start (chance : Chance K σ) (width : Nat) (sites : List (Site K)) (seed : σ) :
    Spins × σ :=
  sites.foldl
    (fun (s, seed) site =>
      let (up, seed) := chance.coin seed
      (s.setIfInBounds site.qubit (Spin.ofBool up), seed))
    (Array.replicate width Spin.up, seed)

/-- One sample: random spins, and then sweeps over all sites. -/
@[specialize] def sample (chance : Chance K σ) (width sweeps : Nat) (sites : List (Site K))
    (seed : σ) : Spins × σ :=
  (List.range sweeps).foldl
    (fun state sweep => sites.foldl (visit chance (inverseTemperature sweep sweeps)) state)
    (start chance width sites seed)

/-- The energy of spins. Every coupler is met from both of its ends and so counts half. -/
@[specialize] def energy (sites : List (Site K)) (s : Spins) : K :=
  Coefficient.sum <| sites.map fun site =>
    let v : K := valueAt s site.qubit
    site.weight * v +
      Coefficient.sum (site.terms.map fun (q, j) => j * v * valueAt s q) / Coefficient.ofNat 2

/-- The vectors found so far, with their energies and how often they were found. -/
abbrev Found (K : Type) := Table (Array Int) (K × Nat)

/-- Notes a sample. -/
@[specialize] def note (sites : List (Site K)) (found : Found K) (s : Spins) : Found K :=
  found.alter (s.map Spin.toInt) fun
    | some (e, n) => (e, n + 1)
    | none => (energy sites s, 1)

/-- Takes samples and notes them. -/
@[specialize] def collect (chance : Chance K σ) (width sweeps : Nat) (sites : List (Site K)) :
    Nat → Found K → σ → Found K
  | 0, found, _ => found
  | n + 1, found, seed =>
    let (s, seed) := sample chance width sweeps sites seed
    collect chance width sweeps sites n (note sites found s) seed

/-- Samples a problem, and returns every vector once with the number of times it was found. -/
@[specialize] def solve (chance : Chance K σ) (seed : σ) (sweeps : Nat) : Solver K :=
  fun p params =>
  let found := collect chance p.width sweeps (sites p) params.sampleCount .empty seed
  .ok {
    vectors := found.keys
    energies := found.values.map (·.1)
    counts := found.values.map (·.2)
    brokenCount := 0 }

end Anneal

/-- The annealer with the random numbers of a seed. -/
def Solver.annealer (seed : UInt64) (sweeps : Nat) : Solver Float :=
  Anneal.solve .metropolis (.ofSeed seed) sweeps

end SpinGlass

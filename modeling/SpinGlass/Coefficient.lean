import SpinGlass.Spin

/-!
# Coefficients

Every pass of the compiler is written once, over any type of coefficients. `Float` is the type
that runs. `Rat` is exact, and it is the type to reason with: its operations are the usual
ones, and the few that only a float can tell apart (an unordered operand, an infinity, a
negative zero) become trivial.
-/

namespace SpinGlass

/-- The arithmetic that the compiler performs on coefficients. -/
class Coefficient (K : Type)
    extends Zero K, Add K, Sub K, Mul K, Div K, Neg K, LT K, LE K, BEq K where
  /-- The coefficient of a natural number. -/
  ofNat : Nat → K
  /-- The strict order is decided, and false when an operand is unordered. -/
  decidableLT : DecidableLT K
  /-- The order is decided, and false when an operand is unordered. -/
  decidableLE : DecidableLE K
  /-- Distance from zero. -/
  magnitude : K → K
  /-- Neither infinite nor unordered. -/
  isFinite : K → Bool
  /-- Whether the sign is negative; a float's negative zero counts. -/
  isSignNegative : K → Bool
  /-- A total order that refines the partial one, unordered values at its ends. -/
  totalCompare : K → K → Ordering
  /-- The neutral start of a sum, which leaves even a lone negative zero unchanged. -/
  sumStart : K
  /-- The nearest natural number, halves rounded up; zero below one half. -/
  nearestNat : K → Nat

namespace Coefficient

-- a type of numbers keeps its own operations
attribute [instance (low)] toZero toAdd toSub toMul toDiv toNeg toLT toLE toBEq

variable {K : Type} [Coefficient K]

instance : DecidableLT K := decidableLT
instance : DecidableLE K := decidableLE

/-- The coefficient one. -/
@[inline] def one : K := ofNat 1

/-- Whether a coefficient equals zero, of either sign. -/
@[inline] def isZero (x : K) : Bool := x == 0

/-- The larger operand; an unordered one is ignored. -/
@[inline] def larger (x y : K) : K := if x < y then y else if x == x then x else y

/-- The smaller operand; an unordered one is ignored. -/
@[inline] def smaller (x y : K) : K := if y < x then y else if x == x then x else y

/-- The sum of a list, from left to right. -/
@[inline] def sum (xs : List K) : K := xs.foldl (· + ·) sumStart

/-- The largest magnitude in a list, zero when it is empty. -/
@[inline] def largestMagnitude (xs : List K) : K := xs.foldl (fun m x => larger m (magnitude x)) 0

/-- Squares `base` once for each binary digit of `n` and gathers the squares of the ones. -/
def powerLoop (base acc : K) (n : Nat) : K :=
  let acc := if n % 2 = 1 then acc * base else acc
  if n / 2 = 0 then acc else powerLoop (base * base) acc (n / 2)
termination_by n
decreasing_by omega

/-- `base` to the power `n`, by repeated squaring. -/
def power (base : K) (n : Nat) : K := powerLoop base one n

/-- The value of a spin in `{-1, +1}`. -/
def ofSpin : Spin → K
  | .up => one
  | .down => -one

/-- The value of a variable in the domain of `mode`. -/
def ofSpinIn (mode : Mode) (s : Spin) : K :=
  match mode, s with
  | .ising, s => ofSpin s
  | .qubo, .up => one
  | .qubo, .down => 0

end Coefficient

instance : Coefficient Float where
  zero := 0.0
  ofNat n := Float.ofNat n
  decidableLT := inferInstance
  decidableLE := inferInstance
  magnitude x := x.abs
  isFinite x := x.isFinite
  isSignNegative x := x.toBits >>> 63 == 1
  totalCompare x y :=
    if x.isNaN then (if y.isNaN then .eq else .gt)
    else if y.isNaN then .lt
    else if x < y then .lt
    else if y < x then .gt
    -- equal numbers differ at most in the sign of a zero
    else compare (y.toBits >>> 63) (x.toBits >>> 63)
  sumStart := -0.0
  nearestNat x := x.round.toUInt64.toNat

instance : Coefficient Rat where
  zero := (0 : Rat)
  ofNat n := n
  decidableLT := inferInstance
  decidableLE := inferInstance
  magnitude x := if x < 0 then -x else x
  isFinite _ := true
  isSignNegative x := decide (x < 0)
  totalCompare x y := if x < y then .lt else if y < x then .gt else .eq
  sumStart := 0
  nearestNat x := (x + 1 / 2).floor.toNat

end SpinGlass

/-!
# Shortest decimals

A float is written with the fewest decimal digits that read back to it. The digits are found in
exact arithmetic: on coarser and then finer decimal grids, one looks at the two grid points
around the number and takes the first that lies among the reals that round to it.
-/

namespace SpinGlass

/-- The number `digits * 10 ^ exponent`. -/
structure Decimal where
  digits : Nat
  exponent : Int
  deriving DecidableEq, Repr

namespace Decimal

/-- Which of two equally near grid points is taken. -/
inductive Tie where
  | up
  | even
  deriving DecidableEq

/-- The reals that round to a finite positive float, in quarters of a unit in its last place:
the float is `4 * significand` quarters, and a quarter is `2 ^ exponent`. -/
structure Rounding where
  significand : Nat
  exponent : Int
  /-- The gap below is half the gap above, at the least significand of a binade. -/
  narrowBelow : Bool

namespace Rounding

/-- The weight of the leading bit of a normal significand, `2 ^ 52`. -/
def leadingBit : Nat := 1 <<< 52

/-- Reads the fields of the binary representation, leaving the sign aside. -/
def ofBits (bits : Nat) : Rounding :=
  let fraction : Nat := bits % leadingBit
  let biased : Nat := bits / leadingBit % 2048
  if biased = 0 then ⟨fraction, -1076, false⟩
  else ⟨fraction + leadingBit, (biased : Int) - 1077, fraction == 0 && 1 < biased⟩

/-- The least quarter of the interval. -/
def low (r : Rounding) : Nat := 4 * r.significand - if r.narrowBelow then 1 else 2

/-- The greatest quarter of the interval. -/
def high (r : Rounding) : Nat := 4 * r.significand + 2

/-- The ends of the interval belong to it when the significand is even. -/
def closed (r : Rounding) : Bool := r.significand % 2 == 0

end Rounding

/-- `10 ^ n` for a possibly negative `n`, as a fraction. -/
def powerOfTen (n : Int) : Nat × Nat := (Nat.pow 10 n.toNat, Nat.pow 10 (-n).toNat)

/-- `2 ^ n` for a possibly negative `n`, as a fraction. -/
def powerOfTwo (n : Int) : Nat × Nat := (Nat.pow 2 n.toNat, Nat.pow 2 (-n).toNat)

/-- The number of decimal digits of a natural number. -/
def digitCount (n : Nat) : Nat := (Nat.toDigits 10 n).length

/-- The exponent of the leading decimal digit of the positive fraction `num / den`. -/
def leadingExponent (num den : Nat) : Int :=
  if den ≤ num then (digitCount (num / den) : Int) - 1
  else
    let length := digitCount (den / num)
    if den ≤ num * Nat.pow 10 (length - 1) then 1 - (length : Int) else -(length : Int)

/-- The grid point of `10 ^ exponent` that is nearest to the number among the one or two around
it that round to it, if there is any. -/
def onGrid? (tie : Tie) (r : Rounding) (exponent : Int) : Option Nat :=
  let two := powerOfTwo r.exponent
  let ten := powerOfTen exponent
  -- a quarter is `scale / unit` steps of the grid
  let scale := two.1 * ten.2
  let unit := two.2 * ten.1
  let within (d : Nat) : Bool :=
    if r.closed then r.low * scale ≤ d * unit && d * unit ≤ r.high * scale
    else r.low * scale < d * unit && d * unit < r.high * scale
  let number := 4 * r.significand * scale
  let below := number / unit
  match within below, within (below + 1) with
  | true, true =>
    match compare (2 * number) ((2 * below + 1) * unit) with
    | .lt => some below
    | .gt => some (below + 1)
    | .eq =>
      match tie with
      | .up => some (below + 1)
      | .even => some (if below % 2 = 0 then below else below + 1)
  | true, false => some below
  | false, true => some (below + 1)
  | false, false => none

/-- Drops the zeros at the end of the digits. -/
def trimZeros (d : Decimal) : Decimal :=
  if h : d.digits ≠ 0 ∧ d.digits % 10 = 0 then
    trimZeros ⟨d.digits / 10, d.exponent + 1⟩
  else d
termination_by d.digits
decreasing_by omega

/-- Tries ever finer grids. Seventeen digits always suffice, so the last line is not reached. -/
def search (tie : Tie) (r : Rounding) (exponent : Int) : Nat → Decimal
  | 0 => ⟨0, 0⟩
  | grids + 1 =>
    match onGrid? tie r exponent with
    | some digits => trimZeros ⟨digits, exponent⟩
    | none => search tie r (exponent - 1) grids

/-- The shortest decimal that reads back to a finite float, its sign left aside. -/
def shortest (tie : Tie) (x : Float) : Decimal :=
  let r := Rounding.ofBits x.toBits.toNat
  if r.significand = 0 then ⟨0, 0⟩
  else
    let two := powerOfTwo r.exponent
    search tie r (leadingExponent (4 * r.significand * two.1) two.2) 17

end Decimal

end SpinGlass

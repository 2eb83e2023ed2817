import SpinGlass.Coefficient
import SpinGlass.Decimal.Reader

/-!
# Floats with signed undefined values

A float that is no number has a sign all the same, which `Float` does not show. Energies are
ranked by it: the negative ones come before all numbers, and the positive ones after them.
-/

namespace SpinGlass

/-- A float and the sign that it has if it is no number. -/
structure SignedFloat where
  value : Float
  /-- The sign of an undefined value. A number has a sign of its own. -/
  negative : Bool

namespace SignedFloat

/-- The result of a computation. Where it is undefined, its sign is negative. -/
def ofFloat (x : Float) : SignedFloat := ⟨x, true⟩

/-- Reads a float and its sign. -/
def read? (text : String) : Option SignedFloat :=
  (readFloat? text).map fun x => ⟨x, text.toList.head? == some '-'⟩

/-- Applies an operation to two numbers. An undefined operand is the result, the first one if both
are. -/
def lift (op : Float → Float → Float) (x y : SignedFloat) : SignedFloat :=
  if x.value.isNaN then x
  else if y.value.isNaN then y
  else ofFloat (op x.value y.value)

/-- The place of a value in the total order: below the numbers, among them or above them. -/
def place (x : SignedFloat) : Nat :=
  if !x.value.isNaN then 1
  else if x.negative then 0
  else 2

end SignedFloat

instance : Coefficient SignedFloat where
  zero := .ofFloat 0.0
  add := .lift (· + ·)
  sub := .lift (· - ·)
  mul := .lift (· * ·)
  div := .lift (· / ·)
  neg x := ⟨-x.value, !x.negative⟩
  lt x y := x.value < y.value
  le x y := x.value ≤ y.value
  beq x y := x.value == y.value
  ofNat n := .ofFloat (Float.ofNat n)
  decidableLT x y := inferInstanceAs (Decidable (x.value < y.value))
  decidableLE x y := inferInstanceAs (Decidable (x.value ≤ y.value))
  magnitude x := ⟨x.value.abs, false⟩
  isFinite x := x.value.isFinite
  isSignNegative x :=
    if x.value.isNaN then x.negative else Coefficient.isSignNegative x.value
  totalCompare x y :=
    (compare x.place y.place).then (Coefficient.totalCompare x.value y.value)
  sumStart := .ofFloat (-0.0)
  nearestNat x := Coefficient.nearestNat x.value

end SpinGlass

import SpinGlass.Coefficient
import SpinGlass.Decimal.Shortest

/-!
# Decimal notation

Two ways to write a float with its shortest digits. Program text never uses an exponent.
Documents write at least one place after the point, and turn to an exponent for numbers whose
leading digit lies outside `10 ^ -5` to `10 ^ 15`.
-/

namespace SpinGlass

namespace Decimal

/-- The exponent of the leading digit. -/
def leading (d : Decimal) : Int := (digitCount d.digits : Int) - 1 + d.exponent

/-- `n` zeros. -/
def zeros (n : Nat) : String := String.ofList (List.replicate n '0')

/-- Digits with a point at its place and no exponent. -/
def positional (d : Decimal) : String :=
  let text := toString d.digits
  if 0 ≤ d.exponent then text ++ zeros d.exponent.toNat
  else
    let places := (-d.exponent).toNat
    let digits := (zeros (places + 1 - text.length) ++ text).toList
    String.ofList (digits.take (digits.length - places)) ++ "." ++
      String.ofList (digits.drop (digits.length - places))

/-- One digit before the point, and an exponent with its sign. -/
def scientific (d : Decimal) : String :=
  let digits := (toString d.digits).toList
  let fraction := if digits.length ≤ 1 then "" else "." ++ String.ofList (digits.drop 1)
  let exponent := d.leading
  String.ofList (digits.take 1) ++ fraction ++
    (if exponent < 0 then "e-" else "e+") ++ toString exponent.natAbs

end Decimal

/-- A float in program text: `0.1`, `-2`, `-0`, and words for the values without digits. -/
def plainText (x : Float) : String :=
  if x.isNaN then "NaN"
  else
    let sign := if Coefficient.isSignNegative x then "-" else ""
    if x.isInf then sign ++ "inf" else sign ++ (Decimal.shortest .up x).positional

/-- A finite float in a document: `0.1`, `2.0`, `1e+16`. -/
def documentText (x : Float) : String :=
  let sign := if Coefficient.isSignNegative x then "-" else ""
  let d := Decimal.shortest .even x
  if -5 ≤ d.leading ∧ d.leading ≤ 15 then
    sign ++ d.positional ++ (if 0 ≤ d.exponent then ".0" else "")
  else sign ++ d.scientific

end SpinGlass

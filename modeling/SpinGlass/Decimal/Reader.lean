import SpinGlass.Decimal.Shortest

/-!
# Reading decimals

Text to float, correctly rounded. A number too large becomes infinite.
-/

namespace SpinGlass

namespace Decimal

/-- The value of a list of decimal digits. -/
def ofDigits (digits : List Char) : Nat :=
  digits.foldl (fun n c => 10 * n + (c.toNat - '0'.toNat)) 0

/-- The nearest float. Far outside the range of floats the answer is infinite or zero whatever
the digits are. -/
def toFloat (d : Decimal) : Float :=
  if d.digits = 0 then 0.0
  else
    let leading := (digitCount d.digits : Int) + d.exponent
    if 400 < leading then 1.0 / 0.0
    else if leading < -400 then 0.0
    else if 0 ≤ d.exponent then Float.ofScientific d.digits false d.exponent.toNat
    else Float.ofScientific d.digits true (-d.exponent).toNat

/-- Splits a list after its leading decimal digits. -/
def spanDigits (cs : List Char) : List Char × List Char := cs.span Char.isDigit

/-- Reads an exponent with its optional sign, after its letter. -/
def readExponent? (cs : List Char) : Option Int :=
  let (negative, digits) :=
    match cs with
    | '-' :: rest => (true, rest)
    | '+' :: rest => (false, rest)
    | _ => (false, cs)
  if digits.isEmpty || !digits.all Char.isDigit then none
  else
    let n : Int := ofDigits digits
    some (if negative then -n else n)

/-- Reads digits with an optional point and exponent. There has to be a digit on one side of the
point at least. -/
def readUnsigned? (cs : List Char) : Option Decimal :=
  let (whole, rest) := spanDigits cs
  let (fraction, rest) :=
    match rest with
    | '.' :: rest => spanDigits rest
    | _ => ([], rest)
  if whole.isEmpty && fraction.isEmpty then none
  else
    let decimal (exponent : Int) : Decimal :=
      ⟨ofDigits (whole ++ fraction), exponent - fraction.length⟩
    match rest with
    | [] => some (decimal 0)
    | c :: rest => if c == 'e' || c == 'E' then (readExponent? rest).map decimal else none

end Decimal

/-- Reads a float: a decimal, or one of the words `inf`, `infinity` and `nan` in any case, after
an optional sign. -/
def readFloat? (text : String) : Option Float :=
  let (negative, rest) :=
    match text.toList with
    | '-' :: rest => (true, rest)
    | '+' :: rest => (false, rest)
    | cs => (false, cs)
  let word := String.ofList (rest.map Char.toLower)
  let magnitude? :=
    if word == "inf" || word == "infinity" then some (1.0 / 0.0)
    else if word == "nan" then some (0.0 / 0.0)
    else (Decimal.readUnsigned? rest).map Decimal.toFloat
  magnitude?.map fun x => if negative then -x else x

end SpinGlass

import SpinGlass.Decimal.Reader
import SpinGlass.Json.Value

/-!
# Reading documents

The whole text has to be one document. A number with a point or an exponent is read in two
steps: as many leading digits as fit into 64 bits are rounded to a float, and the float is
multiplied or divided by a power of ten.
-/

namespace SpinGlass.Json

/-- Drops leading blanks. -/
def skipBlanks : List Char → List Char
  | ' ' :: rest | '\n' :: rest | '\t' :: rest | '\r' :: rest => skipBlanks rest
  | cs => cs

/-- Appends digits to a number while it stays below `2 ^ 64`; the rest is returned. -/
def takeDigits (n : Nat) : List Char → Nat × List Char
  | [] => (n, [])
  | c :: rest =>
    let next := 10 * n + (c.toNat - '0'.toNat)
    if next < UInt64.size then takeDigits next rest else (n, c :: rest)

/-- The float nearest to `10 ^ n`. -/
def tenTo (n : Nat) : Float := Float.ofScientific 1 false n

/-- Scales a magnitude by a power of ten. Far below one, it is scaled in steps of `10 ^ 308`
until it vanishes. -/
def scaleTen (x : Float) (exponent : Int) : Number :=
  if exponent < -308 then
    if x == 0.0 then .float x else scaleTen (x / tenTo 308) (exponent + 308)
  else if exponent < 0 then .float (x / tenTo exponent.natAbs)
  else if 308 < exponent then
    if x == 0.0 then .float x else .tooLarge
  else
    let y := x * tenTo exponent.natAbs
    if y.isInf then .tooLarge else .float y
termination_by (-exponent).toNat
decreasing_by omega

/-- The value of a literal from its parts: sign, digits before the point, digits after it, and
the exponent. -/
def Number.ofLiteral (negative : Bool) (whole : List Char) (fraction : Option (List Char))
    (exponent : Option Int) : Number :=
  let (kept, dropped) := takeDigits 0 whole
  if fraction.isNone && exponent.isNone && dropped.isEmpty && !(negative && kept == 0) &&
      (!negative || kept ≤ UInt64.size / 2) then
    .integer (if negative then -(kept : Int) else kept)
  else
    let after := fraction.getD []
    let (significand, ignored) := takeDigits kept after
    let shift : Int := (dropped.length : Int) - (after.length - ignored.length)
    match scaleTen (Float.ofNat significand) (shift + exponent.getD 0) with
    | .float x => .float (if negative then -x else x)
    | other => other

/-- Reads the exponent of a literal, if there is one. -/
def readExponent (cs : List Char) : Option (Option Int × List Char) :=
  match cs with
  | c :: rest =>
    if c == 'e' || c == 'E' then
      let (negative, rest) :=
        match rest with
        | '-' :: rest => (true, rest)
        | '+' :: rest => (false, rest)
        | _ => (false, rest)
      let (digits, rest) := Decimal.spanDigits rest
      if digits.isEmpty then none
      else
        let n : Int := Decimal.ofDigits digits
        some (some (if negative then -n else n), rest)
    else some (none, cs)
  | [] => some (none, [])

/-- Reads a number literal. A leading zero stands alone, and a point has digits on both sides. -/
def readNumber (cs : List Char) : Option (Number × List Char) := do
  let (negative, cs) := match cs with
    | '-' :: rest => (true, rest)
    | _ => (false, cs)
  let (whole, rest) := Decimal.spanDigits cs
  if whole.isEmpty || (whole.length > 1 && whole.head? == some '0') then none
  let (fraction, rest) ← match rest with
    | '.' :: rest =>
      let (digits, rest) := Decimal.spanDigits rest
      if digits.isEmpty then none else some (some digits, rest)
    | _ => some (none, rest)
  let (exponent, rest) ← readExponent rest
  return (Number.ofLiteral negative whole fraction exponent, rest)

/-- The value of a hexadecimal digit. -/
def hexDigit? (c : Char) : Option Nat :=
  if '0' ≤ c && c ≤ '9' then some (c.toNat - '0'.toNat)
  else if 'a' ≤ c && c ≤ 'f' then some (c.toNat - 'a'.toNat + 10)
  else if 'A' ≤ c && c ≤ 'F' then some (c.toNat - 'A'.toNat + 10)
  else none

/-- Reads four hexadecimal digits. -/
def readHex (cs : List Char) : Option (Nat × List Char) :=
  match cs with
  | a :: b :: c :: d :: rest => do
    let a ← hexDigit? a
    let b ← hexDigit? b
    let c ← hexDigit? c
    let d ← hexDigit? d
    return (((a * 16 + b) * 16 + c) * 16 + d, rest)
  | _ => none

/-- The second half of a surrogate pair, as an escape at the head of the list. -/
def lowSurrogate? (cs : List Char) : Option (Nat × List Char) :=
  match cs with
  | '\\' :: 'u' :: rest =>
    match readHex rest with
    | some (n, rest) => if 0xDC00 ≤ n && n ≤ 0xDFFF then some (n, rest) else none
    | none => none
  | _ => none

/-- Reads an escape after its backslash. A half of a surrogate pair without its other half gives
no character. -/
def readEscape (cs : List Char) : Option (Option Char × List Char) :=
  match cs with
  | '"' :: rest => some (some '"', rest)
  | '\\' :: rest => some (some '\\', rest)
  | '/' :: rest => some (some '/', rest)
  | 'b' :: rest => some (some '\x08', rest)
  | 'f' :: rest => some (some '\x0c', rest)
  | 'n' :: rest => some (some '\n', rest)
  | 'r' :: rest => some (some '\r', rest)
  | 't' :: rest => some (some '\t', rest)
  | 'u' :: rest =>
    match readHex rest with
    | none => none
    | some (n, rest) =>
      if 0xD800 ≤ n && n ≤ 0xDBFF then
        match lowSurrogate? rest with
        | some (low, rest) =>
          some (some (Char.ofNat (0x10000 + (n - 0xD800) * 1024 + (low - 0xDC00))), rest)
        | none => some (none, rest)
      else if 0xDC00 ≤ n && n ≤ 0xDFFF then some (none, rest)
      else some (some (Char.ofNat n), rest)
  | _ => none

/-- Reads the inside of a string up to its closing quote, `fuel` characters at most. The text is
absent when an escape gave no character. -/
def readString : Nat → List Char → Option (Option (List Char) × List Char)
  | 0, _ => none
  | fuel + 1, cs =>
    match cs with
    | [] => none
    | '"' :: rest => some (some [], rest)
    | '\\' :: rest =>
      match readEscape rest with
      | none => none
      | some (c?, rest) =>
        (readString fuel rest).map fun (text?, rest) =>
          (c?.bind fun c => text?.map (c :: ·), rest)
    | c :: rest =>
      if c.toNat < 32 then none
      else (readString fuel rest).map fun (text?, rest) => (text?.map (c :: ·), rest)

/-- Reads the name of a member after its opening quote. It has an escape when a backslash stands
before the next quote. -/
def readMemberName (cs : List Char) : Option (Option Name × List Char) :=
  (readString (cs.length + 1) cs).map fun (text?, rest) =>
    let escaped := (cs.takeWhile (· != '"')).contains '\\'
    (text?.map fun text => ⟨String.ofList text, escaped⟩, rest)

/-- Strips a word from the head of a list. -/
def stripWord (word : List Char) (cs : List Char) : Option (List Char) :=
  if word.isPrefixOf cs then some (cs.drop word.length) else none

mutual

/-- Reads a document at the head of a list. Each step uses a character, so fuel of the length of
the list is enough. -/
def readValue : Nat → List Char → Option (Value × List Char)
  | 0, _ => none
  | fuel + 1, cs =>
    match skipBlanks cs with
    | 'n' :: rest => (stripWord ['u', 'l', 'l'] rest).map fun rest => (.null, rest)
    | 't' :: rest => (stripWord ['r', 'u', 'e'] rest).map fun rest => (.bool true, rest)
    | 'f' :: rest => (stripWord ['a', 'l', 's', 'e'] rest).map fun rest => (.bool false, rest)
    | '"' :: rest =>
      (readString (rest.length + 1) rest).map fun (text?, rest) =>
        match text? with
        | some text => (.string (String.ofList text), rest)
        | none => (.broken, rest)
    | '[' :: rest =>
      match skipBlanks rest with
      | ']' :: rest => some (.array [], rest)
      | rest => (readItems fuel rest).map fun (items, rest) => (.array items, rest)
    | '\x7b' :: rest =>
      match skipBlanks rest with
      | '\x7d' :: rest => some (.object [], rest)
      | rest =>
        (readMembers fuel rest).map fun (members?, rest) =>
          match members? with
          | some members => (.object members, rest)
          | none => (.broken, rest)
    | cs => (readNumber cs).map fun (n, rest) => (.number n, rest)

/-- Reads the items of an array up to its closing bracket. -/
def readItems : Nat → List Char → Option (List Value × List Char)
  | 0, _ => none
  | fuel + 1, cs =>
    match readValue fuel cs with
    | none => none
    | some (v, rest) =>
      match skipBlanks rest with
      | ']' :: rest => some ([v], rest)
      | ',' :: rest => (readItems fuel rest).map fun (items, rest) => (v :: items, rest)
      | _ => none

/-- Reads the members of an object up to its closing bracket. They are absent when a name has no
text. -/
def readMembers : Nat → List Char → Option (Option (List (Name × Value)) × List Char)
  | 0, _ => none
  | fuel + 1, cs =>
    match skipBlanks cs with
    | '"' :: rest =>
      match readMemberName rest with
      | none => none
      | some (name?, rest) =>
        match skipBlanks rest with
        | ':' :: rest =>
          match readValue fuel rest with
          | none => none
          | some (v, rest) =>
            let member? := name?.map fun name => (name, v)
            match skipBlanks rest with
            | '\x7d' :: rest => some (member?.map ([·]), rest)
            | ',' :: rest =>
              (readMembers fuel rest).map fun (members?, rest) =>
                (member?.bind fun member => members?.map (member :: ·), rest)
            | _ => none
        | _ => none
    | _ => none

end

/-- Reads a text that is one document. -/
def parse? (text : String) : Option Value :=
  let cs := text.toList
  match readValue (2 * cs.length + 2) cs with
  | some (v, rest) => if (skipBlanks rest).isEmpty then some v else none
  | none => none

end SpinGlass.Json

import SpinGlass.Decimal.Notation
import SpinGlass.Json.Value

/-!
# Writing documents

The compact form has no blanks. The indented form puts each item and each member on a line of
its own, two spaces deeper than its container. Floats that are not finite are written as `null`.
-/

namespace SpinGlass.Json

/-- Four lower-case hexadecimal digits. -/
def hexText (n : Nat) : String :=
  let digits := Nat.toDigits 16 n
  String.ofList (List.replicate (4 - digits.length) '0' ++ digits)

/-- The text of one character inside a string. -/
def escapeChar (c : Char) : String :=
  match c with
  | '"' => "\\\""
  | '\\' => "\\\\"
  | '\n' => "\\n"
  | '\r' => "\\r"
  | '\t' => "\\t"
  | c =>
    if c.toNat = 8 then "\\b"
    else if c.toNat = 12 then "\\f"
    else if c.toNat < 32 then "\\u" ++ hexText c.toNat
    else c.toString

/-- A string between quotes. -/
def stringText (s : String) : String :=
  "\"" ++ String.join (s.toList.map escapeChar) ++ "\""

/-- The text of a number. -/
def Number.text : Number → String
  | .integer n => toString n
  | .float x => if x.isFinite then documentText x else "null"
  | .tooLarge => "null"

/-- A line break with the indentation of a level, in the indented form. -/
def lineBreak (indented : Bool) (level : Nat) : String :=
  if indented then "\n" ++ String.ofList (List.replicate (2 * level) ' ') else ""

/-- The parts of a container between its brackets. -/
def enclose (indented : Bool) (level : Nat) (opening closing : String) (parts : List String) :
    String :=
  if parts.isEmpty then opening ++ closing
  else
    opening ++ lineBreak indented (level + 1) ++
      ("," ++ lineBreak indented (level + 1)).intercalate parts ++
      lineBreak indented level ++ closing

mutual

/-- The text of a document at a level of nesting. -/
def Value.textAt (indented : Bool) (level : Nat) : Value → String
  | .null => "null"
  | .bool b => if b then "true" else "false"
  | .number n => n.text
  | .string s => stringText s
  | .broken => "null"
  | .array items => enclose indented level "[" "]" (itemTexts indented (level + 1) items)
  | .object members =>
    enclose indented level "\x7b" "\x7d" (memberTexts indented (level + 1) members)

/-- The texts of the items of an array. -/
def itemTexts (indented : Bool) (level : Nat) : List Value → List String
  | [] => []
  | v :: rest => v.textAt indented level :: itemTexts indented level rest

/-- The texts of the members of an object. -/
def memberTexts (indented : Bool) (level : Nat) : List (Name × Value) → List String
  | [] => []
  | (name, v) :: rest =>
    (stringText name.text ++ (if indented then ": " else ":") ++ v.textAt indented level) ::
      memberTexts indented level rest

end

/-- The document without blanks. -/
def Value.compact (v : Value) : String := v.textAt false 0

/-- The document over several lines. -/
def Value.indented (v : Value) : String := v.textAt true 0

end SpinGlass.Json

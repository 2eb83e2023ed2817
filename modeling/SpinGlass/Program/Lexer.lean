import SpinGlass.Decimal.Reader
import SpinGlass.Program.Token
import SpinGlass.Text.Identifier

/-!
# From text to tokens

Blanks and comments separate tokens. At each place a literal is tried first, then a punctuation
character, then an identifier. Documentation comments count as tokens of their own. The text has
to be used up, with every bracket closed by its kind.
-/

namespace SpinGlass.Lexer

open SpinGlass.Text (isBlank isIdentStart isIdentContinue)

/-! ### Blanks and comments -/

/-- Drops a comment with the comments nested in it; `depth` of them are open. -/
def skipBlock (depth : Nat) : List Char → Option (List Char)
  | '/' :: '*' :: rest => skipBlock (depth + 1) rest
  | '*' :: '/' :: rest => if depth ≤ 1 then some rest else skipBlock (depth - 1) rest
  | _ :: rest => skipBlock depth rest
  | [] => none

/-- Splits a list at the end of its first line; the line break stays in the rest. -/
def spanLine : List Char → List Char × List Char
  | [] => ([], [])
  | '\n' :: rest => ([], '\n' :: rest)
  | '\r' :: '\n' :: rest => ([], '\n' :: rest)
  | c :: rest =>
    let (line, rest) := spanLine rest
    (c :: line, rest)

/-- Whether the text starts with a comment that is not documentation. -/
def startsComment (cs : List Char) : Bool :=
  match cs with
  | '/' :: '/' :: '/' :: '/' :: _ => true
  | '/' :: '/' :: '/' :: _ => false
  | '/' :: '/' :: '!' :: _ => false
  | '/' :: '/' :: _ => true
  | '/' :: '*' :: '*' :: '/' :: _ => true
  | '/' :: '*' :: '*' :: '*' :: _ => true
  | '/' :: '*' :: '*' :: _ => false
  | '/' :: '*' :: '!' :: _ => false
  | '/' :: '*' :: _ => true
  | _ => false

/-- Drops blanks and comments. Each step uses a character, so fuel of the length of the text is
enough. A comment that is never closed stays. -/
def skipSpace : Nat → List Char → List Char
  | 0, cs => cs
  | fuel + 1, cs =>
    if startsComment cs then
      match cs with
      | '/' :: '/' :: rest => skipSpace fuel (spanLine rest).2
      | cs =>
        match skipBlock 0 cs with
        | some rest => skipSpace fuel rest
        | none => cs
    else
      match cs with
      | c :: rest => if isBlank c then skipSpace fuel rest else cs
      | [] => []

/-! ### Identifiers -/

/-- Splits off an identifier. -/
def spanIdent? (cs : List Char) : Option (List Char × List Char) :=
  match cs with
  | c :: rest =>
    if isIdentStart c then
      let (tail, rest) := rest.span isIdentContinue
      some (c :: tail, rest)
    else none
  | [] => none

/-- Drops the suffix of a literal. -/
def skipSuffix (cs : List Char) : List Char :=
  match spanIdent? cs with
  | some (_, rest) => rest
  | none => cs

/-- An identifier, which may be marked as raw by `r#` unless it is one of the words that cannot
be. -/
def scanIdent? (cs : List Char) : Option (String × List Char) :=
  match cs with
  | 'r' :: '#' :: rest =>
    match spanIdent? rest with
    | some (name, rest) =>
      let name := String.ofList name
      if ["_", "super", "self", "Self", "crate"].contains name then none
      else some ("r#" ++ name, rest)
    | none => none
  | cs => (spanIdent? cs).map fun (name, rest) => (String.ofList name, rest)

/-- Beginnings of quoted literals, which are no identifiers even if the literal is broken. -/
def quoteStarts : List String :=
  ["r\"", "r#\"", "r##", "b\"", "b'", "br\"", "br#", "c\"", "cr\"", "cr#"]

/-! ### Punctuation -/

/-- The punctuation characters. -/
def punctuation : List Char := "~!@#$%^&*-=+|;:,<.>/?'".toList

/-- Whether the text starts with a punctuation character; the start of a comment is none. -/
def startsPunct (cs : List Char) : Bool :=
  match cs with
  | '/' :: '/' :: _ => false
  | '/' :: '*' :: _ => false
  | c :: _ => punctuation.contains c
  | [] => false

/-- A punctuation character. A quote has to start a label: an identifier that no quote ends. -/
def scanPunct? (cs : List Char) : Option (Token × List Char) :=
  if !startsPunct cs then none
  else
    match cs with
    | '\'' :: rest =>
      match scanIdent? rest with
      | some (_, '\'' :: _) => none
      | some (name, '#' :: _) =>
        if name.startsWith "r#" then some (.punct '\'' true, rest) else none
      | some _ => some (.punct '\'' true, rest)
      | none => none
    | c :: rest => some (.punct c (startsPunct rest), rest)
    | [] => none

/-! ### Numbers -/

/-- Digits and the underscores between them. -/
def isDigitOrUnderscore (c : Char) : Bool := c.isDigit || c == '_'

/-- The exponent after its letter: an optional sign and at least one digit. -/
def scanExponent? (cs : List Char) : Option (Int × List Char) :=
  let cs := cs.dropWhile (· == '_')
  let (negative, cs) :=
    match cs with
    | '-' :: rest => (true, rest)
    | '+' :: rest => (false, rest)
    | _ => (false, cs)
  let cs := cs.dropWhile (· == '_')
  let (run, rest) := cs.span isDigitOrUnderscore
  if run.isEmpty then none
  else
    let n : Int := Decimal.ofDigits (run.filter Char.isDigit)
    some (if negative then -n else n, rest)

/-- Whether the text starts with the letter of an exponent. -/
def startsExponent (cs : List Char) : Bool :=
  match cs with
  | c :: _ => c == 'e' || c == 'E'
  | [] => false

/-- The decimal of digits around a point. -/
def decimalOf (whole fraction : List Char) (exponent : Int) : Decimal :=
  let after := fraction.filter Char.isDigit
  ⟨Decimal.ofDigits (whole.filter Char.isDigit ++ after), exponent - after.length⟩

/-- Whether the text goes on after a point in a way that makes the point no part of a number. -/
def refusesPoint (cs : List Char) : Bool :=
  match cs with
  | c :: _ => c == '.' || isIdentStart c
  | [] => false

/-- A decimal: digits with a point or an exponent. After a point, a broken exponent is left to
the suffix. -/
def scanDecimal? (cs : List Char) : Option (Decimal × List Char) :=
  if !(cs.head?.any Char.isDigit) then none
  else
    let (whole, rest) := cs.span isDigitOrUnderscore
    match rest with
    | '.' :: rest =>
      if refusesPoint rest then none
      else
        let (fraction, rest) := rest.span isDigitOrUnderscore
        let plain := some (decimalOf whole fraction 0, rest)
        if startsExponent rest then
          match scanExponent? (rest.drop 1) with
          | some (exponent, rest) => some (decimalOf whole fraction exponent, rest)
          | none => plain
        else plain
    | rest =>
      if startsExponent rest then
        (scanExponent? (rest.drop 1)).map fun (exponent, rest) =>
          (decimalOf whole [] exponent, rest)
      else none

/-- The value of a digit in bases up to sixteen. -/
def digitValue (c : Char) : Nat :=
  if c.isDigit then c.toNat - '0'.toNat
  else if 'a' ≤ c && c ≤ 'f' then c.toNat - 'a'.toNat + 10
  else c.toNat - 'A'.toNat + 10

/-- Hexadecimal digits. -/
def isHexDigit (c : Char) : Bool :=
  c.isDigit || ('a' ≤ c && c ≤ 'f') || ('A' ≤ c && c ≤ 'F')

/-- Digits of an integer in a base. A digit too large for the base spoils the literal, and in
base ten no underscore comes first. -/
def scanBase? (base : Nat) (cs : List Char) : Option (Nat × List Char) :=
  let (run, rest) := cs.span fun c => isDigitOrUnderscore c || (base == 16 && isHexDigit c)
  let digits := run.filter (· != '_')
  if digits.isEmpty || digits.any (fun c => base ≤ digitValue c) ||
      (base == 10 && run.head? == some '_') then
    none
  else some (digits.foldl (fun n c => base * n + digitValue c) 0, rest)

/-- An integer, in the base that its beginning names. -/
def scanInteger? (cs : List Char) : Option (Nat × List Char) :=
  match cs with
  | '0' :: 'x' :: rest => scanBase? 16 rest
  | '0' :: 'o' :: rest => scanBase? 8 rest
  | '0' :: 'b' :: rest => scanBase? 2 rest
  | cs => scanBase? 10 cs

/-- Drops the suffix of a number, after which no identifier character may stand. -/
def endNumber? (cs : List Char) : Option (List Char) :=
  let rest := skipSuffix cs
  if rest.head?.any isIdentContinue then none else some rest

/-- A number. What looks like a broken decimal is tried as an integer. -/
def scanNumber? (cs : List Char) : Option (LiteralValue × List Char) :=
  let decimal? := (scanDecimal? cs).bind fun (d, rest) =>
    (endNumber? rest).map fun rest => (LiteralValue.decimal d, rest)
  decimal?.or <| (scanInteger? cs).bind fun (n, rest) =>
    (endNumber? rest).map fun rest => (LiteralValue.integer n, rest)

/-! ### Quoted literals -/

/-- What may stand between quotes. -/
inductive Quoted where
  /-- Any characters. -/
  | text
  /-- ASCII characters and any bytes. -/
  | bytes
  /-- Any characters but the null character. -/
  | terminated
  deriving DecidableEq

/-- The two digits of a byte escape: below 128 in text, and not zero in terminated text. -/
def byteEscape? (kind : Quoted) (cs : List Char) : Option (List Char) :=
  match cs with
  | a :: b :: rest =>
    let fits :=
      match kind with
      | .text => '0' ≤ a && a ≤ '7'
      | .bytes => isHexDigit a
      | .terminated => isHexDigit a && !(a == '0' && b == '0')
    if fits && isHexDigit b then some rest else none
  | _ => none

/-- The digits of a code point escape after its opening bracket; `count` of them have been read. -/
def codePointDigits? (value count : Nat) : List Char → Option (Nat × List Char)
  | [] => none
  | c :: rest =>
    if isHexDigit c then
      if count = 6 then none else codePointDigits? (16 * value + digitValue c) (count + 1) rest
    else if c == '_' && count > 0 then codePointDigits? value count rest
    else if c == '\x7d' && count > 0 then some (value, rest)
    else none

/-- A code point escape after its letter. -/
def codePointEscape? (kind : Quoted) (cs : List Char) : Option (List Char) :=
  match cs with
  | '\x7b' :: rest =>
    match codePointDigits? 0 0 rest with
    | some (n, rest) =>
      if !n.isValidChar || (kind == .terminated && n == 0) then none else some rest
    | none => none
  | _ => none

/-- Drops the blanks after an escaped line break, `last` being the last of them so far. A carriage
return has to be followed by a line feed. -/
def skipContinuation? (last : Char) (cs : List Char) : Option (List Char) :=
  match cs with
  | [] => none
  | c :: rest =>
    if last == '\r' then
      if c == '\n' then
        match rest with
        | [] => none
        | d :: rest =>
          if d == ' ' || d == '\t' || d == '\n' || d == '\r' then skipContinuation? d rest
          else some (d :: rest)
      else none
    else if c == ' ' || c == '\t' || c == '\n' || c == '\r' then skipContinuation? c rest
    else some (c :: rest)

/-- An escape between quotes, after its backslash. -/
def escape? (kind : Quoted) (cs : List Char) : Option (List Char) :=
  match cs with
  | 'x' :: rest => byteEscape? kind rest
  | 'u' :: rest => if kind == .bytes then none else codePointEscape? kind rest
  | '0' :: rest => if kind == .terminated then none else some rest
  | c :: rest =>
    if c == '\n' || c == '\r' then skipContinuation? c rest
    else if c == 'n' || c == 'r' || c == 't' || c == '\\' || c == '\'' || c == '"' then some rest
    else none
  | [] => none

/-- Drops the inside of a quoted literal with escapes, its closing quote and its suffix. -/
def skipCooked? (kind : Quoted) : Nat → List Char → Option (List Char)
  | 0, _ => none
  | fuel + 1, cs =>
    match cs with
    | [] => none
    | '"' :: rest => some (skipSuffix rest)
    | '\r' :: '\n' :: rest => skipCooked? kind fuel rest
    | '\r' :: _ => none
    | '\\' :: rest => (escape? kind rest).bind (skipCooked? kind fuel)
    | c :: rest =>
      if (kind == .bytes && 128 ≤ c.toNat) || (kind == .terminated && c.toNat == 0) then none
      else skipCooked? kind fuel rest

/-- Drops the inside of a quoted literal without escapes, up to a quote and its marks. -/
def skipRawBody? (kind : Quoted) (marks : List Char) : List Char → Option (List Char)
  | [] => none
  | '\r' :: '\n' :: rest => skipRawBody? kind marks rest
  | '\r' :: _ => none
  | c :: rest =>
    if c == '"' && marks.isPrefixOf rest then some (skipSuffix (rest.drop marks.length))
    else if (kind == .bytes && 128 ≤ c.toNat) || (kind == .terminated && c.toNat == 0) then none
    else skipRawBody? kind marks rest

/-- Drops a quoted literal without escapes, from the marks before its quote. -/
def skipRaw? (kind : Quoted) (cs : List Char) : Option (List Char) :=
  let (marks, rest) := cs.span (· == '#')
  match rest with
  | '"' :: rest => if 255 < marks.length then none else skipRawBody? kind marks rest
  | _ => none

/-- Drops one character between single quotes, from the character on. -/
def skipCharacter? (kind : Quoted) (cs : List Char) : Option (List Char) :=
  let closing (cs : List Char) : Option (List Char) :=
    match cs with
    | '\'' :: rest => some (skipSuffix rest)
    | _ => none
  match cs with
  | '\\' :: '\n' :: _ => none
  | '\\' :: '\r' :: _ => none
  | '\\' :: rest => (escape? kind rest).bind closing
  | c :: rest => if kind == .bytes && 128 ≤ c.toNat then none else closing rest
  | [] => none

/-- Drops a quoted literal. -/
def skipQuoted? (cs : List Char) : Option (List Char) :=
  let fuel := cs.length
  match cs with
  | '"' :: rest => skipCooked? .text fuel rest
  | 'r' :: rest => skipRaw? .text rest
  | 'b' :: '"' :: rest => skipCooked? .bytes fuel rest
  | 'b' :: 'r' :: rest => skipRaw? .bytes rest
  | 'c' :: '"' :: rest => skipCooked? .terminated fuel rest
  | 'c' :: 'r' :: rest => skipRaw? .terminated rest
  | 'b' :: '\'' :: rest => skipCharacter? .bytes rest
  | '\'' :: rest => skipCharacter? .text rest
  | _ => none

/-- A literal. -/
def scanLiteral? (cs : List Char) : Option (Token × List Char) :=
  let scanned :=
    match skipQuoted? cs with
    | some rest => some (LiteralValue.other, rest)
    | none => scanNumber? cs
  scanned.map fun (value, rest) =>
    (.literal ⟨String.ofList (cs.take (cs.length - rest.length)), value⟩, rest)

/-! ### Documentation comments -/

/-- Whether every carriage return is followed by a line feed. -/
def returnsAreBreaks : List Char → Bool
  | [] => true
  | '\r' :: '\n' :: rest => returnsAreBreaks rest
  | '\r' :: _ => false
  | _ :: rest => returnsAreBreaks rest

/-- The tokens of a documentation comment; one on what encloses it is marked by `!`. -/
def docTokens (inner : Bool) (text : List Char) : List Token :=
  let mark := if inner then [Token.punct '!' false] else []
  Token.punct '#' false :: mark ++
    [.group .bracket [.ident "doc", .punct '=' false,
      .literal ⟨"\"" ++ String.ofList text ++ "\"", .other⟩]]

/-- A documentation comment. -/
def scanDoc? (cs : List Char) : Option (List Token × List Char) :=
  let line (inner : Bool) (rest : List Char) : Option (Bool × List Char × List Char) :=
    some (inner, spanLine rest)
  let block (inner : Bool) : Option (Bool × List Char × List Char) :=
    (skipBlock 0 cs).map fun rest =>
      (inner, (cs.take (cs.length - rest.length - 2)).drop 3, rest)
  let found :=
    match cs with
    | '/' :: '/' :: '!' :: rest => line true rest
    | '/' :: '*' :: '!' :: _ => block true
    | '/' :: '/' :: '/' :: '/' :: _ => none
    | '/' :: '/' :: '/' :: rest => line false rest
    | '/' :: '*' :: '*' :: '*' :: _ => none
    | '/' :: '*' :: '*' :: _ => block false
    | _ => none
  found.bind fun (inner, text, rest) =>
    if returnsAreBreaks text then some (docTokens inner text, rest) else none

/-! ### Tokens -/

/-- A bracket, or a token that is no group. -/
inductive Lexeme where
  | opening (delimiter : Delimiter)
  | closing (delimiter : Delimiter)
  | leaf (t : Token)

/-- The spelling of a literal that has no value. It is one token, although it looks like a group
around a comment. -/
def errorLiteral : List Char := "(/*ERROR*/)".toList

/-- The literal without a value. -/
def scanErrorLiteral? (cs : List Char) : Option (Token × List Char) :=
  if errorLiteral.isPrefixOf cs then
    some (.literal ⟨String.ofList errorLiteral, .other⟩, cs.drop errorLiteral.length)
  else none

/-- A token that is no group. -/
def scanLeaf? (cs : List Char) : Option (Token × List Char) :=
  (scanLiteral? cs).or <| (scanPunct? cs).or <|
    if quoteStarts.any fun start => start.toList.isPrefixOf cs then none
    else (scanIdent? cs).map fun (name, rest) => (.ident name, rest)

/-- A bracket. -/
def scanBracket? (cs : List Char) : Option (Lexeme × List Char) :=
  match cs with
  | '(' :: rest => some (.opening .parenthesis, rest)
  | '[' :: rest => some (.opening .bracket, rest)
  | '\x7b' :: rest => some (.opening .brace, rest)
  | ')' :: rest => some (.closing .parenthesis, rest)
  | ']' :: rest => some (.closing .bracket, rest)
  | '\x7d' :: rest => some (.closing .brace, rest)
  | _ => none

/-- The lexemes at the head of a text that starts with no blank. -/
def scanNext? (cs : List Char) : Option (List Lexeme × List Char) :=
  match scanDoc? cs with
  | some (tokens, rest) => some (tokens.map .leaf, rest)
  | none =>
    let leaf (scanned : Token × List Char) : Lexeme × List Char := (.leaf scanned.1, scanned.2)
    let scanned := ((scanErrorLiteral? cs).map leaf).or <|
      (scanBracket? cs).or ((scanLeaf? cs).map leaf)
    scanned.map fun (lexeme, rest) => ([lexeme], rest)

/-- The lexemes of a text. Each step uses a character, so fuel above the length of the text is
enough. -/
def lexemes? : Nat → List Char → Option (List Lexeme)
  | 0, _ => none
  | fuel + 1, cs =>
    match skipSpace fuel cs with
    | [] => some []
    | cs =>
      match scanNext? cs with
      | some (found, rest) => (lexemes? fuel rest).map (found ++ ·)
      | none => none

/-- Gathers lexemes into tokens. `outer` holds the open groups, innermost first, each with the
tokens before it; tokens are kept in reverse. -/
def nest? (outer : List (Delimiter × List Token)) (current : List Token) :
    List Lexeme → Option (List Token)
  | [] => if outer.isEmpty then some current.reverse else none
  | .leaf t :: rest => nest? outer (t :: current) rest
  | .opening d :: rest => nest? ((d, current) :: outer) [] rest
  | .closing d :: rest =>
    match outer with
    | [] => none
    | (opened, before) :: outer =>
      if opened = d then nest? outer (.group d current.reverse :: before) rest else none

/-- The tokens of a text, a byte order mark at its start left aside. -/
def tokens? (text : String) : Option (List Token) :=
  let cs :=
    match text.toList with
    | '\uFEFF' :: rest => rest
    | cs => cs
  (lexemes? (cs.length + 1) cs).bind (nest? [] [])

end SpinGlass.Lexer

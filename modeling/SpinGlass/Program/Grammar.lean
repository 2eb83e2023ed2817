import SpinGlass.Decimal.Reader
import SpinGlass.Program.Lexer
import SpinGlass.Program.Statement

/-!
# From tokens to statements

Statements end with `;`. In an expression, infix operators associate to the left and their
binding strength decides; an operator of two characters is a joint pair of punctuation
characters, and it is preferred to the operator of its first character.
-/

namespace SpinGlass

/-- What is wrong with a list of tokens. -/
inductive SyntaxError where
  | emptyStatement
  | missingSemicolon
  | expectedName
  | expectedNumber
  | expectedTruth
  | trailingTokens
  | unexpectedToken
  | unexpectedEnd
  | expectedInteger
  /-- An integer beyond 64 bits in an assertion. -/
  | integerTooLarge
  deriving DecidableEq, Repr

/-- The wording of a syntax error. -/
def SyntaxError.message : SyntaxError → String
  | emptyStatement => "empty statement"
  | missingSemicolon => "statement is missing a trailing `;`"
  | expectedName => "expected a variable name"
  | expectedNumber => "expected a number"
  | expectedTruth => "expected `true` or `false`"
  | trailingTokens => "unexpected trailing tokens"
  | unexpectedToken => "unexpected token in assertion"
  | unexpectedEnd => "unexpected end of assertion"
  | expectedInteger => "expected an integer literal"
  | integerTooLarge => "number too large to fit in target type"

/-- Why a text is no program. -/
inductive ProgramError where
  /-- The text is no sequence of tokens. -/
  | lexical
  | grammatical (e : SyntaxError)
  /-- A coefficient beyond the largest finite number. -/
  | coefficientTooLarge
  deriving DecidableEq

namespace Grammar

/-- The dotted continuations of a name. -/
def moreName (name : String) : List Token → String × List Token
  | .punct '.' _ :: .ident part :: rest => moreName (name ++ "." ++ part) rest
  | rest => (name, rest)

/-- A name: identifiers joined by dots. -/
def parseName : List Token → Except SyntaxError (String × List Token)
  | .ident name :: rest => .ok (moreName name rest)
  | _ => .error .expectedName

/-- Succeeds at the end of the tokens. -/
def parseEnd {α : Type} (a : α) : List Token → Except SyntaxError α
  | [] => .ok a
  | _ :: _ => .error .trailingTokens

/-- The operator that two joint punctuation characters make. -/
def pairOp? : Char → Char → Option BinaryOp
  | '<', '<' => some .shl
  | '>', '>' => some .shr
  | '<', '=' => some .le
  | '>', '=' => some .ge
  | '=', '=' => some .eq
  | '!', '=' => some .ne
  | '&', '&' => some .and
  | '|', '|' => some .or
  | _, _ => none

/-- The operator that one punctuation character makes. -/
def singleOp? : Char → Option BinaryOp
  | '*' => some .mul
  | '/' => some .div
  | '%' => some .rem
  | '+' => some .add
  | '-' => some .sub
  | '<' => some .lt
  | '>' => some .gt
  | '&' => some .bitAnd
  | '^' => some .bitXor
  | '|' => some .bitOr
  | _ => none

/-- The infix operator at the head of the tokens, and the tokens after it. -/
def infixOp? : List Token → Option (BinaryOp × List Token)
  | .punct c joint :: rest =>
    let single := (singleOp? c).map fun op => (op, rest)
    match rest with
    | .punct d _ :: after =>
      match joint, pairOp? c d with
      | true, some op => some (op, after)
      | _, _ => single
    | _ => single
  | _ => none

/-- The value of an integer literal, which has to fit into 64 bits. -/
def parseInteger (l : Literal) : Except SyntaxError Expr :=
  match l.value with
  | .integer n =>
    if n < UInt64.size / 2 then .ok (.num (Int64.ofNat n)) else .error .integerTooLarge
  | _ => .error .expectedInteger

mutual

/-- An expression whose infix operators bind at least as tight as `least`. The fuel bounds the
nesting of calls. -/
def parseExpr : Nat → Nat → List Token → Except SyntaxError (Expr × List Token)
  | 0, _, _ => .error .unexpectedEnd
  | fuel + 1, least, tokens => do
    let (lhs, rest) ← parsePrefix fuel tokens
    parseInfix fuel least lhs rest

/-- The operators and right operands that continue an expression. -/
def parseInfix : Nat → Nat → Expr → List Token → Except SyntaxError (Expr × List Token)
  | 0, _, _, _ => .error .unexpectedEnd
  | fuel + 1, least, lhs, tokens =>
    match infixOp? tokens with
    | none => .ok (lhs, tokens)
    | some (op, after) =>
      if op.precedence < least then .ok (lhs, tokens)
      else do
        let (rhs, rest) ← parseExpr fuel (op.precedence + 1) after
        parseInfix fuel least (.binary op lhs rhs) rest

/-- An operand: prefix operators before a literal, a truth value, a name or a group in
parentheses. -/
def parsePrefix : Nat → List Token → Except SyntaxError (Expr × List Token)
  | 0, _ => .error .unexpectedEnd
  | fuel + 1, tokens =>
    match tokens with
    | [] => .error .unexpectedEnd
    | .punct '!' _ :: rest => do
      let (e, rest) ← parseExpr fuel UnaryOp.precedence rest
      return (.unary .not e, rest)
    | .punct '-' _ :: rest => do
      let (e, rest) ← parseExpr fuel UnaryOp.precedence rest
      return (.unary .neg e, rest)
    | .group .parenthesis inner :: rest => do
      let (e, inner) ← parseExpr fuel 0 inner
      return (← parseEnd e inner, rest)
    | .ident "true" :: rest => .ok (.num 1, rest)
    | .ident "false" :: rest => .ok (.num 0, rest)
    | .ident name :: rest =>
      let (name, rest) := moreName name rest
      .ok (.var name, rest)
    | .literal l :: rest => do return (← parseInteger l, rest)
    | _ :: _ => .error .unexpectedToken

end

/-- An expression that uses up the tokens. Between two calls at most one uses no token, so fuel
of twice the number of tokens is enough. -/
def parseWholeExpr (tokens : List Token) : Except SyntaxError Expr := do
  let (e, rest) ← parseExpr (2 * tokensWeight tokens + 3) 0 tokens
  parseEnd e rest

/-- A coefficient: a number literal after an optional minus sign. -/
def parseNumber (tokens : List Token) : Except SyntaxError (Float × List Token) := do
  let (negative, tokens) :=
    match tokens with
    | .punct '-' _ :: rest => (true, rest)
    | _ => (false, tokens)
  match tokens with
  | .literal l :: rest =>
    let magnitude ←
      match l.value with
      | .integer n => .ok (Decimal.toFloat ⟨n, 0⟩)
      | .decimal d => .ok d.toFloat
      | .other => .error .expectedNumber
    return (if negative then -magnitude else magnitude, rest)
  | _ => .error .expectedNumber

/-- The value of a pin: a truth value, or the digit `1` or `0` exactly as written. -/
def parseTruth : List Token → Except SyntaxError (Bool × List Token)
  | .ident "true" :: rest => .ok (true, rest)
  | .ident "false" :: rest => .ok (false, rest)
  | .literal l :: rest =>
    if l.text == "1" then .ok (true, rest)
    else if l.text == "0" then .ok (false, rest)
    else .error .expectedTruth
  | _ => .error .expectedTruth

/-- The statement of a list of tokens. The word `assert` alone is a name. -/
def parseStatement (tokens : List Token) : Except SyntaxError (Statement Float) :=
  match tokens with
  | .ident "assert" :: t :: rest => do return .assert (← parseWholeExpr (t :: rest))
  | _ => do
    let (a, rest) ← parseName tokens
    match rest with
    | .punct ':' _ :: .punct '=' _ :: rest =>
      let (value, rest) ← parseTruth rest
      parseEnd (.pin a value) rest
    | .punct '=' _ :: rest =>
      let (b, rest) ← parseName rest
      parseEnd (.chain a b) rest
    | .ident _ :: _ =>
      let (b, rest) ← parseName rest
      let (value, rest) ← parseNumber rest
      parseEnd (.strength a b value) rest
    | _ =>
      let (value, rest) ← parseNumber rest
      parseEnd (.weight a value) rest

/-- Splits tokens at the semicolons; `current` holds the tokens of a statement in reverse. -/
def splitStatements (current : List Token) : List Token → Except SyntaxError (List (List Token))
  | [] => if current.isEmpty then .ok [] else .error .missingSemicolon
  | .punct ';' _ :: rest =>
    if current.isEmpty then .error .emptyStatement
    else do return current.reverse :: (← splitStatements [] rest)
  | t :: rest => splitStatements (t :: current) rest

end Grammar

namespace Statement

/-- Whether the coefficient of a statement, if it has one, is finite. -/
def isFinite : Statement Float → Bool
  | weight _ value => value.isFinite
  | strength _ _ value => value.isFinite
  | _ => true

end Statement

namespace Program

/-- The statement of a list of tokens, with a finite coefficient. -/
def parseStatement (tokens : List Token) : Except ProgramError (Statement Float) :=
  match Grammar.parseStatement tokens with
  | .error e => .error (.grammatical e)
  | .ok statement => if statement.isFinite then .ok statement else .error .coefficientTooLarge

/-- The program of a list of tokens. -/
def ofTokens (tokens : List Token) : Except ProgramError (Program Float) :=
  match Grammar.splitStatements [] tokens with
  | .error e => .error (.grammatical e)
  | .ok statements => statements.mapM parseStatement

/-- Reads program text. -/
def parse (text : String) : Except ProgramError (Program Float) :=
  match Lexer.tokens? text with
  | none => .error .lexical
  | some tokens => ofTokens tokens

end Program

/-- Reads an expression, as the condition of an assertion. -/
def Expr.parse (text : String) : Except ProgramError Expr := do
  match ← Program.parse ("assert " ++ text ++ ";") with
  | [.assert e] => .ok e
  | _ => .error (.grammatical .trailingTokens)

end SpinGlass

import SpinGlass.Decimal.Shortest

/-!
# Tokens of program text

Text is a sequence of identifiers, punctuation characters, literals and groups in brackets.
-/

namespace SpinGlass

/-- The three kinds of brackets. -/
inductive Delimiter where
  | parenthesis
  | bracket
  | brace
  deriving DecidableEq, Repr

/-- What a literal stands for. -/
inductive LiteralValue where
  | integer (n : Nat)
  | decimal (d : Decimal)
  /-- A string or a character, or the literal without a value. -/
  | other
  deriving DecidableEq

/-- A literal as written, and its value. A suffix is part of the text only. -/
structure Literal where
  text : String
  value : LiteralValue
  deriving DecidableEq

/-- A token. -/
inductive Token where
  | ident (name : String)
  /-- One character; it is joint if another punctuation character follows at once. -/
  | punct (c : Char) (joint : Bool)
  | literal (l : Literal)
  /-- The tokens between two matching brackets. -/
  | group (delimiter : Delimiter) (tokens : List Token)

mutual

/-- The number of tokens in a token, groups counted with their contents. -/
def Token.weight : Token → Nat
  | .group _ tokens => tokensWeight tokens + 1
  | _ => 1

/-- The number of tokens in a list, groups counted with their contents. -/
def tokensWeight : List Token → Nat
  | [] => 0
  | t :: rest => t.weight + tokensWeight rest

end

end SpinGlass

import SpinGlass.Decimal.Notation
import SpinGlass.Expr.Basic

/-!
# Statements

A program is a list of statements over named variables.
-/

namespace SpinGlass

/-- One statement of a program with coefficients in `K`. -/
inductive Statement (K : Type) where
  /-- A linear term. -/
  | weight (var : String) (value : K)
  /-- A quadratic term. -/
  | strength (a b : String) (value : K)
  /-- Two variables that take the same value. -/
  | chain (a b : String)
  /-- A variable with a fixed value. -/
  | pin (var : String) (value : Bool)
  /-- A condition that every solution is checked against. -/
  | assert (e : Expr)
  deriving DecidableEq

/-- A program. -/
abbrev Program (K : Type) := List (Statement K)

namespace Statement

/-- The word for a truth value. -/
def truthText (b : Bool) : String := if b then "true" else "false"

/-- A statement as it is listed: an assertion is marked by `!`, and nothing ends the line. -/
def text : Statement Float → String
  | weight var value => var ++ " " ++ plainText value
  | strength a b value => a ++ " " ++ b ++ " " ++ plainText value
  | chain a b => a ++ " = " ++ b
  | pin var value => var ++ " := " ++ truthText value
  | assert e => "!assert " ++ e.text

end Statement

end SpinGlass

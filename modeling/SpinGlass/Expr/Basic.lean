import SpinGlass.Table

/-!
# Assertion expressions

Integer expressions over named bits, with the operators of C and their binding strength.
-/

namespace SpinGlass

/-- Prefix operators. -/
inductive UnaryOp where
  | not
  | neg
  deriving DecidableEq, Repr

/-- Infix operators. -/
inductive BinaryOp where
  | mul
  | div
  | rem
  | add
  | sub
  | shl
  | shr
  | lt
  | le
  | gt
  | ge
  | eq
  | ne
  | bitAnd
  | bitXor
  | bitOr
  | and
  | or
  deriving DecidableEq, Repr

/-- An expression over named bits. -/
inductive Expr where
  | num (n : Int64)
  | var (name : String)
  | unary (op : UnaryOp) (e : Expr)
  | binary (op : BinaryOp) (a b : Expr)
  deriving DecidableEq

namespace UnaryOp

/-- The operator as written. -/
def symbol : UnaryOp → String
  | not => "!"
  | neg => "-"

/-- Prefix operators bind tighter than every infix operator. -/
def precedence : Nat := 11

end UnaryOp

namespace BinaryOp

/-- The operator as written. -/
def symbol : BinaryOp → String
  | mul => "*"
  | div => "/"
  | rem => "%"
  | add => "+"
  | sub => "-"
  | shl => "<<"
  | shr => ">>"
  | lt => "<"
  | le => "<="
  | gt => ">"
  | ge => ">="
  | eq => "=="
  | ne => "!="
  | bitAnd => "&"
  | bitXor => "^"
  | bitOr => "|"
  | and => "&&"
  | or => "||"

/-- Binding strength; a larger one binds tighter. -/
def precedence : BinaryOp → Nat
  | or => 1
  | and => 2
  | bitOr => 3
  | bitXor => 4
  | bitAnd => 5
  | eq | ne => 6
  | lt | le | gt | ge => 7
  | shl | shr => 8
  | add | sub => 9
  | mul | div | rem => 10

end BinaryOp

namespace Expr

/-- Adds the names in an expression to a set. -/
def addNames : Expr → KeySet String → KeySet String
  | num _, seen => seen
  | var name, seen => KeySet.insert seen name
  | unary _ e, seen => e.addNames seen
  | binary _ a b, seen => b.addNames (a.addNames seen)

/-- The names in an expression, sorted. -/
def names (e : Expr) : List String := KeySet.toList (e.addNames .empty)

/-- The binding strength of the outermost operator; an atom is never put in parentheses. -/
def precedence : Expr → Nat
  | num _ | var _ => 255
  | unary .. => UnaryOp.precedence
  | binary op .. => op.precedence

/-- The text of an expression where anything that binds looser than `least` needs parentheses.
Infix operators associate to the left, so a right operand has to bind strictly tighter. -/
def textAt (least : Nat) (e : Expr) : String :=
  let inner :=
    match e with
    | num n => toString n.toInt
    | var name => name
    | unary op e => op.symbol ++ e.textAt UnaryOp.precedence
    | binary op a b =>
      a.textAt op.precedence ++ " " ++ op.symbol ++ " " ++ b.textAt (op.precedence + 1)
  if e.precedence < least then "(" ++ inner ++ ")" else inner

/-- The text of an expression, with no more parentheses than it needs. -/
def text (e : Expr) : String := e.textAt 0

end Expr

end SpinGlass

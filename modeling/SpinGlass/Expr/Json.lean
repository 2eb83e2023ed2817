import SpinGlass.Expr.Eval
import SpinGlass.Json.Record

/-!
# Expressions as documents

Each node is a case with its operands: `Num`, `Var`, `Unary` and `Binary`.
-/

namespace SpinGlass

open Json (Value)

/-- The names of the prefix operators in documents. -/
def UnaryOp.name : UnaryOp → String
  | not => "Not"
  | neg => "Neg"

/-- The prefix operator of a name. -/
def UnaryOp.ofName? : String → Option UnaryOp
  | "Not" => some not
  | "Neg" => some neg
  | _ => none

/-- The names of the infix operators in documents. -/
def BinaryOp.name : BinaryOp → String
  | mul => "Mul"
  | div => "Div"
  | rem => "Rem"
  | add => "Add"
  | sub => "Sub"
  | shl => "Shl"
  | shr => "Shr"
  | lt => "Lt"
  | le => "Le"
  | gt => "Gt"
  | ge => "Ge"
  | eq => "Eq"
  | ne => "Ne"
  | bitAnd => "BitAnd"
  | bitXor => "BitXor"
  | bitOr => "BitOr"
  | and => "And"
  | or => "Or"

/-- All infix operators. -/
def BinaryOp.all : List BinaryOp :=
  [mul, div, rem, add, sub, shl, shr, lt, le, gt, ge, eq, ne, bitAnd, bitXor, bitOr, and, or]

/-- The infix operator of a name. -/
def BinaryOp.ofName? (name : String) : Option BinaryOp := BinaryOp.all.find? (·.name == name)

namespace Expr

/-- The document of an expression. -/
def toJson : Expr → Value
  | num n => .record [("Num", .int n.toInt)]
  | var name => .record [("Var", .string name)]
  | unary op e => .record [("Unary", .array [.string op.name, e.toJson])]
  | binary op a b => .record [("Binary", .array [.string op.name, a.toJson, b.toJson])]

/-- Reads an expression whose containers are nested at most `limit` deep. A node with operands
takes two levels, one for its case and one for its list of operands. -/
def ofJson? (limit : Nat) (v : Value) : Option Expr :=
  match limit with
  | 0 => none
  | limit + 1 =>
    match Json.readCase v with
    | some ("Num", n) =>
      (Json.readInt Int64.minValue.toInt Int64.maxValue.toInt n).map fun n => num (Int64.ofInt n)
    | some ("Var", name) => (Json.readText name).map var
    | some ("Unary", .array [op, e]) =>
      match limit with
      | 0 => none
      | limit + 1 => do
        return unary (← Json.readName UnaryOp.ofName? op) (← ofJson? limit e)
    | some ("Binary", .array [op, a, b]) =>
      match limit with
      | 0 => none
      | limit + 1 => do
        return binary (← Json.readName BinaryOp.ofName? op) (← ofJson? limit a)
          (← ofJson? limit b)
    | _ => none

end Expr

namespace AssertOutcome

/-- The names of the fields of an outcome. -/
def fieldNames : List String := ["text", "passed", "error"]

/-- The document of an outcome. -/
def toJson (o : AssertOutcome) : Value :=
  .record (fieldNames.zip [.string o.text, .bool o.passed, .option .string o.error])

/-- Reads an outcome. -/
def ofJson? (v : Value) : Option AssertOutcome := do
  let [text, passed, error] ← Json.slots fieldNames v | none
  return ⟨← text.required Json.readText, ← passed.required Json.readBool,
    ← error.optional Json.readText⟩

end AssertOutcome

end SpinGlass

import SpinGlass.Expr.Json
import SpinGlass.Json.Parser
import SpinGlass.Program.Statement

/-!
# Programs as documents

A program is an array of statements, and a statement is a case with named fields. In text the
fields may also be an array, in order.
-/

namespace SpinGlass

open Json (Value)

namespace Statement

/-- The document of a statement, given how coefficients are written. -/
def toJsonWith (coefficient : Float → Value) : Statement Float → Value
  | weight var value =>
    .record [("Weight", .record [("var", .string var), ("value", coefficient value)])]
  | strength a b value =>
    .record [("Strength",
      .record [("a", .string a), ("b", .string b), ("value", coefficient value)])]
  | chain a b => .record [("Chain", .record [("a", .string a), ("b", .string b)])]
  | pin var value => .record [("Pin", .record [("var", .string var), ("value", .bool value)])]
  | assert e => .record [("Assert", e.toJson)]

/-- The document of a statement. -/
def toJson : Statement Float → Value := toJsonWith .float

/-- Reads a statement whose containers are nested at most `limit` deep, and whose fields may be
given in order or not. -/
def ofJson? (inOrder : Bool) (limit : Nat) (v : Value) : Option (Statement Float) := do
  match ← Json.readCase v with
  | ("Weight", fields) =>
    let [var, value] ← Json.caseSlots inOrder ["var", "value"] fields | none
    return weight (← var.required Json.readText) (← value.required Json.readFloat)
  | ("Strength", fields) =>
    let [a, b, value] ← Json.caseSlots inOrder ["a", "b", "value"] fields | none
    return strength (← a.required Json.readText) (← b.required Json.readText)
      (← value.required Json.readFloat)
  | ("Chain", fields) =>
    let [a, b] ← Json.caseSlots inOrder ["a", "b"] fields | none
    return chain (← a.required Json.readText) (← b.required Json.readText)
  | ("Pin", fields) =>
    let [var, value] ← Json.caseSlots inOrder ["var", "value"] fields | none
    return pin (← var.required Json.readText) (← value.required Json.readBool)
  | ("Assert", e) => return assert (← Expr.ofJson? (limit - 1) e)
  | _ => none

end Statement

namespace Program

/-- The document of a program. -/
def toJson (program : Program Float) : Value := .list Statement.toJson program

/-- Reads a program. -/
def ofJson? : Value → Option (Program Float) :=
  Json.readList (Statement.ofJson? false (Json.nestingLimit - 1))

/-- Reads a program from the text of a document. -/
def ofJsonText? (text : String) : Option (Program Float) := do
  Json.readList (Statement.ofJson? true (Json.nestingLimit - 1)) (← Json.parse? text)

end Program

end SpinGlass

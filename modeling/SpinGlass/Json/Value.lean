/-!
# JSON values

A document as a tree. Members of an object keep their order and their repetitions, because
some readers refuse a repeated name and others let the last one win. A literal that no reader
could use still has a place in the tree: it only matters when someone asks for its value.
-/

namespace SpinGlass.Json

/-- A number literal. -/
inductive Number where
  /-- Written without point or exponent, and within 64 bits, signed or unsigned. -/
  | integer (n : Int)
  | float (x : Float)
  /-- Beyond the largest finite float. -/
  | tooLarge

/-- The name of a member. -/
structure Name where
  text : String
  /-- Whether the name is written with an escape. A name that stands for a number must not be. -/
  escaped : Bool
  deriving DecidableEq

/-- A document. -/
inductive Value where
  | null
  | bool (b : Bool)
  | number (n : Number)
  | string (s : String)
  /-- A string with half of a surrogate pair in an escape, which has no text, or an object with
  such a name. -/
  | broken
  | array (items : List Value)
  | object (members : List (Name × Value))

namespace Value

instance : Inhabited Value := ⟨null⟩

/-- A natural number as a document. -/
def nat (n : Nat) : Value := .number (.integer n)

/-- An integer as a document. -/
def int (n : Int) : Value := .number (.integer n)

/-- A float as a document. -/
def float (x : Float) : Value := .number (.float x)

/-- A value that may be absent, `null` if it is. -/
def option {α : Type} (write : α → Value) : Option α → Value
  | none => null
  | some a => write a

/-- A list of values. -/
def list {α : Type} (write : α → Value) (xs : List α) : Value := .array (xs.map write)

/-- The object of members with these names. -/
def record (members : List (String × Value)) : Value :=
  .object (members.map fun m => (⟨m.1, false⟩, m.2))

/-- The last member of that name in an object. -/
def member? (v : Value) (name : String) : Option Value :=
  match v with
  | .object members => (members.reverse.find? fun m => m.1.text == name).map (·.2)
  | _ => none

end Value

end SpinGlass.Json

import SpinGlass.Json.Value
import SpinGlass.Table

/-!
# Typed reading of documents

Readers from documents to values of a type. A record is read from an object, whose unknown
members are ignored and whose known ones must not be repeated, or from an array of its fields
in order. A choice is the name of a case, or an object with that name as its only member.
-/

namespace SpinGlass.Json

/-- Integers from `low` to `high`. -/
def readInt (low high : Int) : Value → Option Int
  | .number (.integer n) => if low ≤ n && n ≤ high then some n else none
  | _ => none

/-- Natural numbers below `2 ^ 64`. -/
def readNat (v : Value) : Option Nat := (readInt 0 (UInt64.size - 1) v).map Int.toNat

/-- Any number, as a float. -/
def readFloat : Value → Option Float
  | .number (.integer n) => some (Float.ofInt n)
  | .number (.float x) => some x
  | _ => none

/-- Truth values. -/
def readBool : Value → Option Bool
  | .bool b => some b
  | _ => none

/-- Strings. -/
def readText : Value → Option String
  | .string s => some s
  | _ => none

section

variable {α β : Type}

/-- A value or `null`. -/
def readOption (read : Value → Option α) : Value → Option (Option α)
  | .null => some none
  | v => (read v).map some

/-- Arrays of values. -/
def readList (read : Value → Option α) : Value → Option (List α)
  | .array items => items.mapM read
  | _ => none

/-- Arrays of exactly two values. -/
def readPair (first : Value → Option α) (second : Value → Option β) : Value → Option (α × β)
  | .array [a, b] => do return (← first a, ← second b)
  | _ => none

/-- Objects whose member names are texts; of two members of one name the later wins. -/
def readTextTable (read : Value → Option α) : Value → Option (Table String α)
  | .object members => do
    return .ofList (← members.mapM fun m => do return (m.1.text, ← read m.2))
  | _ => none

/-- A natural number below `2 ^ 64` in its usual notation, written without escapes. -/
def natOfName? (name : Name) : Option Nat :=
  let digits := name.text.toList
  let padded := digits.length > 1 && digits.head? == some '0'
  if name.escaped || digits.isEmpty || !digits.all Char.isDigit || padded then none
  else
    let n := digits.foldl (fun n c => 10 * n + (c.toNat - '0'.toNat)) 0
    if n < UInt64.size then some n else none

/-- Objects whose member names are natural numbers; of two members of one name the later wins. -/
def readNatTable (read : Value → Option α) : Value → Option (Table Nat α)
  | .object members => do
    return .ofList (← members.mapM fun m => do return (← natOfName? m.1, ← read m.2))
  | _ => none

/-- Objects without members. The keys of such a table have no written form. -/
def readEmptyTable [Ord α] : Value → Option (Table α β)
  | .object [] => some .empty
  | _ => none

end

/-- The object of a table, its members named by the keys. -/
def Value.textTable {α : Type} (write : α → Value) (t : Table String α) : Value :=
  .record (t.entries.map fun e => (e.1, write e.2))

/-- The object of a table, its members named by the keys in decimal. -/
def Value.natTable {α : Type} (write : α → Value) (t : Table Nat α) : Value :=
  .record (t.entries.map fun e => (toString e.1, write e.2))

/-- What a document holds for one field of a record. -/
inductive Slot where
  | given (v : Value)
  /-- An object without that member. -/
  | absent
  /-- An array that ends before the field. -/
  | beyond

namespace Slot

variable {α : Type}

/-- A field that has to be given. -/
def required (read : Value → Option α) : Slot → Option α
  | given v => read v
  | _ => none

/-- A field that an object may leave out or set to `null`. -/
def optional (read : Value → Option α) : Slot → Option (Option α)
  | given v => readOption read v
  | absent => some none
  | beyond => none

/-- A field with a default for when it is not given. -/
def orElse (read : Value → Option α) (default : α) : Slot → Option α
  | given v => read v
  | _ => some default

end Slot

/-- The slots of the fields of these names in an array of values. -/
def arraySlots : List String → List Value → Option (List Slot)
  | [], [] => some []
  | [], _ :: _ => none
  | _ :: names, [] => (arraySlots names []).map (.beyond :: ·)
  | _ :: names, v :: rest => (arraySlots names rest).map (.given v :: ·)

/-- The slot of the field of this name in an object. -/
def memberSlot (members : List (Name × Value)) (name : String) : Option Slot :=
  match members.filter fun m => m.1.text == name with
  | [] => some .absent
  | [m] => some (.given m.2)
  | _ => none

/-- The slots of the fields of a record. -/
def slots (names : List String) : Value → Option (List Slot)
  | .array items => arraySlots names items
  | .object members => names.mapM (memberSlot members)
  | _ => none

/-- The slots of the fields of a case: of an object, or also of an array if the fields may be
given in order. -/
def caseSlots (inOrder : Bool) (names : List String) : Value → Option (List Slot)
  | .array items => if inOrder then arraySlots names items else none
  | v => slots names v

/-- The case that a document chooses and the document that the case holds, `null` if none. -/
def readCase : Value → Option (String × Value)
  | .string name => some (name, .null)
  | .object [(name, v)] => some (name.text, v)
  | _ => none

/-- A case without contents. -/
def readName {α : Type} (ofName? : String → Option α) (v : Value) : Option α :=
  match readCase v with
  | some (name, .null) => ofName? name
  | _ => none

/-- The case that a document names in a field of its own, first in an array. -/
def readTag (field : String) : Value → Option String
  | .array (v :: _) => readText v
  | .object members => do (← memberSlot members field).required readText
  | _ => none

/-- The nesting of containers that a document may have where it is read as a tree. -/
def nestingLimit : Nat := 127

mutual

/-- Whether no container lies deeper than the limit, and every literal has a value. -/
def Value.isUsable (limit : Nat) : Value → Bool
  | .number .tooLarge | .broken => false
  | .null | .bool _ | .number _ | .string _ => true
  | .array items => match limit with
    | 0 => false
    | limit + 1 => itemsUsable limit items
  | .object members => match limit with
    | 0 => false
    | limit + 1 => membersUsable limit members

/-- The same for the items of an array. -/
def itemsUsable (limit : Nat) : List Value → Bool
  | [] => true
  | v :: rest => v.isUsable limit && itemsUsable limit rest

/-- The same for the members of an object. -/
def membersUsable (limit : Nat) : List (Name × Value) → Bool
  | [] => true
  | (_, v) :: rest => v.isUsable limit && membersUsable limit rest

end

/-- Adds a member at its place in the order of names, over one of the same name. -/
def insertMember (name : String) (v : Value) (members : List (String × Value)) :
    List (String × Value) :=
  Table.alterEntries name (fun _ => v) members

mutual

/-- The document with the members of its objects in the order of their names, the last of each
name. -/
def Value.sortMembers : Value → Value
  | .array items => .array (sortItems items)
  | .object members => .record (sortObject [] members)
  | v => v

/-- The same for the items of an array. -/
def sortItems : List Value → List Value
  | [] => []
  | v :: rest => v.sortMembers :: sortItems rest

/-- The same for the members of an object, put among those already sorted. -/
def sortObject (done : List (String × Value)) : List (Name × Value) → List (String × Value)
  | [] => done
  | (name, v) :: rest => sortObject (insertMember name.text v.sortMembers done) rest

end

end SpinGlass.Json

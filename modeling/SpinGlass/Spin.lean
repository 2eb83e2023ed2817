/-!
# Spins and domains

A variable is a spin: it points down or up. A problem reads its variables either as spins in
`{-1, +1}` or as bits in `{0, 1}`, and `Mode` says which.
-/

namespace SpinGlass

/-- The two values of a variable. -/
inductive Spin where
  | down
  | up
  deriving DecidableEq, Repr, Inhabited

namespace Spin

/-- A bit as a spin: `true` is up. -/
def ofBool : Bool → Spin
  | true => up
  | false => down

/-- A spin as a bit: up is `true`. -/
def toBool : Spin → Bool
  | up => true
  | down => false

/-- The spin as an integer, `+1` or `-1`. -/
def toInt : Spin → Int
  | up => 1
  | down => -1

/-- Reads a solver's integer; anything other than `+1` and `-1` is unusable. -/
def ofInt? (n : Int) : Option Spin :=
  if n = 1 then some up else if n = -1 then some down else none

/-- The opposite spin. -/
def flip : Spin → Spin
  | up => down
  | down => up

instance : Neg Spin := ⟨flip⟩

/-- The name under which a spin is stored in documents. -/
def name : Spin → String
  | up => "Up"
  | down => "Down"

@[simp] theorem toBool_ofBool (b : Bool) : (ofBool b).toBool = b := by cases b <;> rfl

@[simp] theorem ofBool_toBool (s : Spin) : ofBool s.toBool = s := by cases s <;> rfl

@[simp] theorem ofInt?_toInt (s : Spin) : ofInt? s.toInt = some s := by cases s <;> rfl

@[simp] theorem flip_flip (s : Spin) : s.flip.flip = s := by cases s <;> rfl

end Spin

/-- How a problem reads its variables. -/
inductive Mode where
  /-- Variables are bits in `{0, 1}`. -/
  | qubo
  /-- Variables are spins in `{-1, +1}`. -/
  | ising
  deriving DecidableEq, Repr

namespace Mode

instance : Inhabited Mode := ⟨ising⟩

/-- The lower-case word for the mode. -/
def name : Mode → String
  | qubo => "qubo"
  | ising => "ising"

/-- The mode a word names. -/
def ofName? : String → Option Mode
  | "qubo" => some qubo
  | "ising" => some ising
  | _ => none

end Mode

end SpinGlass

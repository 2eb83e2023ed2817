import SpinGlass.Table

/-!
# Symbols

Names of variables and their dense indices. Two names may come to share an index, and an index
may be retired. Both are recorded as links and take effect when the table is compacted, so that
a batch of them costs one renumbering.
-/

namespace SpinGlass

/-- What is to become of an index. -/
inductive Rebind where
  /-- It joins a lower index. -/
  | merged (target : Nat)
  | retired
  deriving DecidableEq, Repr

/-- Why an operation on symbols fails. -/
inductive SymbolError where
  | unknownName (name : String)
  | unboundIndex (index : Nat)
  deriving DecidableEq

/-- The wording of a symbol error. -/
def SymbolError.message : SymbolError → String
  | unknownName name => s!"no variable named `{name}`"
  | unboundIndex index => s!"index {index} has no bound name"

/-- The new index of each old one, none where it was retired. -/
structure Remap where
  map : List (Option Nat)
  deriving DecidableEq

namespace Remap

/-- The renumbering of `size` indices that changes nothing. -/
def identity (size : Nat) : Remap := ⟨(List.range size).map some⟩

/-- The new index of `old`. -/
def get? (r : Remap) (old : Nat) : Option Nat := (r.map[old]?).join

/-- Whether every index keeps its number. -/
def isIdentity (r : Remap) : Bool := r.map == (List.range r.map.length).map some

end Remap

/-- A table of names and indices. -/
structure Symbols where
  /-- The index that each name was given, before links are followed. -/
  byName : Table String Nat
  /-- The number of allocated indices. -/
  size : Nat
  /-- Links and retirements that await compaction. -/
  pending : Table Nat Rebind
  /-- The number that the next generated name tries first. -/
  nextInternal : Nat
  deriving DecidableEq

/-- Whether a name is generated by the compiler. -/
def isInternalName (name : String) : Bool := name.toList.head? == some '$'

namespace Symbols

/-- The table without names. -/
def empty : Symbols := ⟨.empty, 0, .empty, 0⟩

instance : Inhabited Symbols := ⟨empty⟩

/-- The index at the end of the links from `i`, unless it is retired. Links lead downwards. -/
def root? (s : Symbols) (i : Nat) : Option Nat :=
  match s.pending.get? i with
  | none => some i
  | some .retired => none
  | some (.merged target) => if target < i then s.root? target else some i
termination_by i

/-- The index of a known name. -/
def lookup? (s : Symbols) (name : String) : Option Nat := (s.byName.get? name).bind s.root?

/-- The index of a name; a new one gets the next free index. -/
def intern (s : Symbols) (name : String) : Nat × Symbols :=
  match s.lookup? name with
  | some root => (root, s)
  | none => (s.size, { s with byName := s.byName.insert name s.size, size := s.size + 1 })

/-- The generated name of a number. -/
def internalName (stem : String) (number : Nat) : String := "$" ++ stem ++ toString number

/-- The first number from `number` on whose generated name is free. One of the first
`byName.size + 1` is. -/
def freeNumber (s : Symbols) (stem : String) : Nat → Nat → Nat
  | 0, number => number
  | tries + 1, number =>
    if s.byName.contains (internalName stem number) then s.freeNumber stem tries (number + 1)
    else number

/-- Allocates an index under a generated name that is free. -/
def fresh (s : Symbols) (stem : String) : (String × Nat) × Symbols :=
  let number := s.freeNumber stem (s.byName.size + 1) s.nextInternal
  let name := internalName stem number
  let (index, s) := { s with nextInternal := number + 1 }.intern name
  ((name, index), s)

/-- Names with their current indices, in name order; retired names are left out. -/
def entries (s : Symbols) : List (String × Nat) :=
  s.byName.entries.filterMap fun e => (s.root? e.2).map fun root => (e.1, root)

/-- The names of an index, sorted. -/
def namesOf (s : Symbols) (index : Nat) : List String :=
  (s.entries.filter fun e => e.2 == index).map (·.1)

/-- The name to show for an index: the first that is not generated, else the first. -/
def nameOf (s : Symbols) (index : Nat) : Except SymbolError String :=
  let names := s.namesOf index
  match (names.find? fun n => !isInternalName n).or names.head? with
  | some name => .ok name
  | none => .error (.unboundIndex index)

/-- Whether every name of an index is generated. -/
def isInternal (s : Symbols) (index : Nat) : Bool := (s.namesOf index).all isInternalName

/-- The greatest allocated index. -/
def maxIndex? (s : Symbols) : Option Nat := if s.size = 0 then none else some (s.size - 1)

/-- The index at the end of the links, or the error for an index that has none. -/
def rootOf (s : Symbols) (index : Nat) : Except SymbolError Nat :=
  match s.root? index with
  | some root => .ok root
  | none => .error (.unboundIndex index)

/-- Records that two indices are one variable; the lower index survives. -/
def merge (s : Symbols) (a b : Nat) : Except SymbolError (Nat × Symbols) := do
  let ra ← s.rootOf a
  let rb ← s.rootOf b
  if ra = rb then return (ra, s)
  let keep := min ra rb
  return (keep, { s with pending := s.pending.insert (max ra rb) (.merged keep) })

/-- Takes an index out of use and returns the names that it carried. -/
def retire (s : Symbols) (index : Nat) : Except SymbolError (List String × Symbols) := do
  let root ← s.rootOf index
  let names := s.namesOf root
  return (names,
    { s with
      byName := s.byName.filter fun name _ => !names.contains name
      pending := s.pending.insert root .retired })

/-- The indices without a link, increasing. -/
def survivors (s : Symbols) : List Nat :=
  (List.range s.size).filter fun i => !s.pending.contains i

/-- The renumbering that compaction makes: survivors keep their order, and every other index goes
where its links lead. -/
def remap (s : Symbols) : Remap :=
  let survivors := s.survivors
  ⟨(List.range s.size).map fun i =>
    (s.root? i).map fun root => (survivors.filter (· < root)).length⟩

/-- The first name whose index is not allocated. There is one only if an index was retired before
it was handed out: its name then survived a compaction that dropped the index. -/
def stray? (s : Symbols) : Option String :=
  (s.byName.entries.find? fun e => s.size ≤ e.2).map (·.1)

/-- Renumbers the surviving indices from zero. A stray name stops the renumbering: the names
before it have their new index then, and nothing else changes. -/
def compact (s : Symbols) : Option Remap × Symbols :=
  if s.pending.isEmpty then (some (.identity s.size), s)
  else
    let remap := s.remap
    let renumber (i : Nat) : Nat := (remap.get? i).getD i
    match s.stray? with
    | none =>
      (some remap,
        { s with
          byName := s.byName.mapValues renumber
          size := s.survivors.length
          pending := .empty })
    | some stray =>
      (none,
        { s with byName := s.byName.mapEntries fun n i => if n < stray then renumber i else i })

/-- Gives two names one index and compacts. -/
def unify (s : Symbols) (a b : String) : Except SymbolError (Option Remap × Symbols) := do
  let index (name : String) : Except SymbolError Nat :=
    match s.lookup? name with
    | some i => .ok i
    | none => .error (.unknownName name)
  let ia ← index a
  let ib ← index b
  let (_, s) ← s.merge ia ib
  return s.compact

end Symbols

end SpinGlass

/-!
# Tables sorted by key

A finite map held as its entries in strictly increasing key order. Two tables with the same
entries are equal, and everything that walks over a table meets the keys in order.
-/

namespace SpinGlass

/-- A finite map from `α` to `β`, its entries sorted by key. -/
structure Table (α β : Type) [Ord α] where
  /-- Keys and values, keys strictly increasing. -/
  entries : List (α × β)
  /-- No key is repeated and none is out of place. -/
  sorted : entries.Pairwise (fun x y => compare x.1 y.1 = .lt)

namespace Table

section Basic

variable {α β γ : Type} [Ord α]

/-- The table without entries. -/
def empty : Table α β := ⟨[], .nil⟩

instance : Inhabited (Table α β) := ⟨empty⟩

instance [DecidableEq α] [DecidableEq β] : DecidableEq (Table α β) := fun s t =>
  decidable_of_iff (s.entries = t.entries)
    ⟨fun h => by cases s; cases t; cases h; rfl, fun h => h ▸ rfl⟩

instance [BEq α] [BEq β] : BEq (Table α β) := ⟨fun s t => s.entries == t.entries⟩

/-- The value stored under `key`. -/
def get? (t : Table α β) (key : α) : Option β :=
  (t.entries.find? fun e => compare key e.1 == .eq).map (·.2)

/-- Whether a value is stored under `key`. -/
def contains (t : Table α β) (key : α) : Bool := t.entries.any fun e => compare key e.1 == .eq

/-- The keys, increasing. -/
def keys (t : Table α β) : List α := t.entries.map (·.1)

/-- The values, in key order. -/
def values (t : Table α β) : List β := t.entries.map (·.2)

/-- The number of entries. -/
def size (t : Table α β) : Nat := t.entries.length

/-- Whether there is no entry. -/
def isEmpty (t : Table α β) : Bool := t.entries.isEmpty

/-- Keeps the entries that satisfy `p`. -/
def filter (t : Table α β) (p : α → β → Bool) : Table α β :=
  ⟨t.entries.filter fun e => p e.1 e.2, t.sorted.filter _⟩

/-- Removes the entry under `key`. -/
def erase (t : Table α β) (key : α) : Table α β :=
  t.filter fun k _ => compare key k != .eq

/-- Applies `f` to every value and its key. -/
def mapEntries (t : Table α β) (f : α → β → γ) : Table α γ :=
  ⟨t.entries.map fun e => (e.1, f e.1 e.2), t.sorted.map _ fun _ _ h => h⟩

/-- Applies `f` to every value. -/
def mapValues (t : Table α β) (f : β → γ) : Table α γ :=
  ⟨t.entries.map fun e => (e.1, f e.2), t.sorted.map _ fun _ _ h => h⟩

/-- The entry with the least key, and the table without it. -/
def takeFirst? (t : Table α β) : Option ((α × β) × Table α β) :=
  match t with
  | ⟨[], _⟩ => none
  | ⟨e :: rest, h⟩ => some (e, ⟨rest, h.of_cons⟩)

/-- The entry with the greatest key. -/
def last? (t : Table α β) : Option (α × β) := t.entries.getLast?

/-- The entries with the value under `key` replaced by `f` of what was there. -/
def alterEntries (key : α) (f : Option β → β) : List (α × β) → List (α × β)
  | [] => [(key, f none)]
  | (a, b) :: rest =>
    match compare key a with
    | .lt => (key, f none) :: (a, b) :: rest
    | .eq => (a, f (some b)) :: rest
    | .gt => (a, b) :: alterEntries key f rest

theorem mem_alterEntries {key : α} {f : Option β → β} {x : α × β} {entries : List (α × β)}
    (h : x ∈ alterEntries key f entries) : x.1 = key ∨ ∃ y ∈ entries, y.1 = x.1 := by
  induction entries with
  | nil => simp [alterEntries] at h; simp [h]
  | cons e rest ih =>
    obtain ⟨a, b⟩ := e
    unfold alterEntries at h
    split at h
    · rcases List.mem_cons.1 h with rfl | h
      · exact .inl rfl
      · exact .inr ⟨x, h, rfl⟩
    · rcases List.mem_cons.1 h with rfl | h
      · exact .inr ⟨(a, b), List.mem_cons_self, rfl⟩
      · exact .inr ⟨x, List.mem_cons_of_mem _ h, rfl⟩
    · rcases List.mem_cons.1 h with rfl | h
      · exact .inr ⟨(a, b), List.mem_cons_self, rfl⟩
      · rcases ih h with h | ⟨y, hy, hyx⟩
        · exact .inl h
        · exact .inr ⟨y, List.mem_cons_of_mem _ hy, hyx⟩

end Basic

section Ordered

variable {α β γ : Type} [Ord α] [Std.TransOrd α]

theorem sorted_alterEntries {key : α} {f : Option β → β} {entries : List (α × β)}
    (h : entries.Pairwise fun x y => compare x.1 y.1 = .lt) :
    (alterEntries key f entries).Pairwise fun x y => compare x.1 y.1 = .lt := by
  induction entries with
  | nil => simp [alterEntries]
  | cons e rest ih =>
    obtain ⟨a, b⟩ := e
    have hrest : ∀ y ∈ rest, compare a y.1 = .lt := fun y hy => List.rel_of_pairwise_cons h hy
    unfold alterEntries
    split
    · next hlt =>
      refine h.cons fun y hy => ?_
      rcases List.mem_cons.1 hy with rfl | hy
      · exact hlt
      · exact Std.TransCmp.lt_trans hlt (hrest y hy)
    · exact h.of_cons.cons fun y hy => hrest y hy
    · next hgt =>
      refine (ih h.of_cons).cons fun y hy => ?_
      rcases mem_alterEntries hy with hkey | ⟨z, hz, hzy⟩
      · rw [hkey]; exact Std.OrientedCmp.lt_of_gt hgt
      · rw [← hzy]; exact hrest z hz

/-- Stores under `key` the result of `f` on the value that was there. -/
def alter (t : Table α β) (key : α) (f : Option β → β) : Table α β :=
  ⟨alterEntries key f t.entries, sorted_alterEntries t.sorted⟩

/-- Stores `value` under `key`, in place of what was there. -/
def insert (t : Table α β) (key : α) (value : β) : Table α β := t.alter key fun _ => value

/-- The table of a list of entries; of two with one key the later wins. -/
def ofList (entries : List (α × β)) : Table α β :=
  entries.foldl (fun t e => t.insert e.1 e.2) empty

/-- Renames keys and drops the entries without a new one; of two that meet the later wins. -/
def filterMapKeys (t : Table α β) (f : α → Option α) : Table α β :=
  ofList (t.entries.filterMap fun e => (f e.1).map fun k => (k, e.2))

variable [Std.LawfulEqOrd α] [DecidableEq α]

theorem find?_alterEntries (key other : α) (f : Option β → β) (entries : List (α × β))
    (h : entries.Pairwise fun x y => compare x.1 y.1 = .lt) :
    ((alterEntries key f entries).find? fun e => compare other e.1 == .eq).map (·.2) =
      if other = key then
        some (f ((entries.find? fun e => compare key e.1 == .eq).map (·.2)))
      else (entries.find? fun e => compare other e.1 == .eq).map (·.2) := by
  induction entries with
  | nil =>
    by_cases ho : other = key <;> simp [alterEntries, ho]
  | cons e rest ih =>
    obtain ⟨a, b⟩ := e
    have hrest : ∀ y ∈ rest, compare a y.1 = .lt := fun y hy => List.rel_of_pairwise_cons h hy
    unfold alterEntries
    split
    · next hlt =>
      by_cases ho : other = key
      · subst ho
        have hnone : rest.find? (fun e => compare other e.1 == .eq) = none := by
          refine List.find?_eq_none.2 fun x hx => ?_
          have hlt' := Std.TransCmp.lt_trans hlt (hrest x hx)
          rw [hlt']; decide
        simp [hlt, hnone]
      · simp [List.find?_cons, ho]
    · next heq =>
      obtain rfl := Std.LawfulEqCmp.eq_of_compare heq
      by_cases ho : other = key <;> simp [ho]
    · next hgt =>
      have hne : key ≠ a := fun h => by simp [h] at hgt
      have hka : (compare key a == Ordering.eq) = false := by simp [hgt]
      simp only [List.find?_cons, hka]
      by_cases ho : other = a
      · subst ho
        simp [Ne.symm hne]
      · have hoa : (compare other a == Ordering.eq) = false := by simp [ho]
        simp only [hoa]
        exact ih h.of_cons

theorem get?_alter (t : Table α β) (key other : α) (f : Option β → β) :
    (t.alter key f).get? other = if other = key then some (f (t.get? key)) else t.get? other :=
  find?_alterEntries key other f t.entries t.sorted

theorem get?_insert (t : Table α β) (key other : α) (value : β) :
    (t.insert key value).get? other = if other = key then some value else t.get? other :=
  get?_alter t key other _

end Ordered

end Table

/-- A finite set, its members in increasing order. -/
abbrev KeySet (α : Type) [Ord α] := Table α Unit

namespace KeySet

variable {α : Type} [Ord α]

/-- The members, increasing. -/
def toList (s : KeySet α) : List α := Table.keys s

/-- Adds a member. -/
def insert [Std.TransOrd α] (s : KeySet α) (a : α) : KeySet α := Table.insert s a ()

/-- Keeps the members that satisfy `p`. -/
def filter (s : KeySet α) (p : α → Bool) : KeySet α := Table.filter s fun a _ => p a

/-- The set of the members of a list. -/
def ofList [Std.TransOrd α] (xs : List α) : KeySet α := xs.foldl insert Table.empty

/-- The least member, and the set without it. -/
def takeFirst? (s : KeySet α) : Option (α × KeySet α) :=
  (Table.takeFirst? s).map fun (e, rest) => (e.1, rest)

end KeySet

end SpinGlass

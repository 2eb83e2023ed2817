import SpinGlass.Table
import Mathlib.Data.List.Induction
import Mathlib.Order.Basic

/-!
# Lookups in tables

A table is known by its lookups: the entries are exactly the keys with their values, every
operation is described by what it does to a lookup, and two tables with the same lookups are
equal. Nothing after this file looks at how the entries are kept in order.
-/

namespace SpinGlass.Table

section Basic

variable {α β : Type} [Ord α]

@[simp] theorem get?_empty (key : α) : (empty : Table α β).get? key = none := rfl

/-- Only the empty table has no first entry. -/
theorem takeFirst?_eq_none {t : Table α β} (h : t.takeFirst? = none) : t = empty := by
  obtain ⟨entries, hsorted⟩ := t
  cases entries with
  | nil => rfl
  | cons e tail => simp [takeFirst?] at h

/-- Only the empty table has size zero. -/
theorem eq_empty_of_size {t : Table α β} (h : t.size = 0) : t = empty := by
  obtain ⟨entries, hsorted⟩ := t
  obtain rfl := List.length_eq_zero_iff.mp h
  rfl

/-- A table that is said to be empty is empty. -/
theorem isEmpty_iff {t : Table α β} : t.isEmpty = true ↔ t = empty := by
  obtain ⟨entries, hsorted⟩ := t
  cases entries <;> simp [isEmpty, empty]

/-- Altering a key makes a table longer by at most one. -/
theorem size_alter_le [Std.TransOrd α] (t : Table α β) (key : α) (f : Option β → β) :
    (t.alter key f).size ≤ t.size + 1 := by
  have h : ∀ entries : List (α × β),
      (alterEntries key f entries).length ≤ entries.length + 1 := by
    intro entries
    induction entries with
    | nil => simp [alterEntries]
    | cons e rest ih =>
      obtain ⟨a, b⟩ := e
      unfold alterEntries
      split <;> simp only [List.length_cons] <;> omega
  exact h t.entries

/-- The last entry of a list is the last to be stored. -/
theorem ofList_append_singleton [Std.TransOrd α] (entries : List (α × β)) (e : α × β) :
    ofList (entries ++ [e]) = (ofList entries).insert e.1 e.2 := by
  simp [ofList]

end Basic

section Lookup

variable {α β γ : Type} [Ord α] [Std.LawfulEqOrd α]

/-- Two entries with one key in a sorted list are the same entry. -/
theorem eq_of_mem_of_fst_eq {entries : List (α × β)}
    (hsorted : entries.Pairwise fun x y => compare x.1 y.1 = .lt) {x y : α × β}
    (hx : x ∈ entries) (hy : y ∈ entries) (hkey : x.1 = y.1) : x = y := by
  induction entries with
  | nil => simp at hx
  | cons e rest ih =>
    have hhead : ∀ z ∈ rest, compare e.1 z.1 = .lt := fun z hz =>
      List.rel_of_pairwise_cons hsorted hz
    rcases List.mem_cons.mp hx with hxe | hx <;> rcases List.mem_cons.mp hy with hye | hy
    · rw [hxe, hye]
    · have h := hhead y hy
      simp [← hkey, hxe] at h
    · have h := hhead x hx
      simp [hkey, hye] at h
    · exact ih hsorted.of_cons hx hy

/-- No key is listed twice. -/
theorem nodup_keys (t : Table α β) : t.keys.Nodup := by
  refine List.pairwise_map.mpr (t.sorted.imp ?_)
  intro x y hlt heq
  simp [heq] at hlt

/-- A lookup succeeds exactly on the entries. -/
theorem get?_eq_some_iff {t : Table α β} {key : α} {b : β} :
    t.get? key = some b ↔ (key, b) ∈ t.entries := by
  unfold get?
  constructor
  · intro h
    obtain ⟨e, hfind, rfl⟩ := Option.map_eq_some_iff.mp h
    have hkey : key = e.1 := by simpa using List.find?_some hfind
    rw [hkey]
    exact List.mem_of_find?_eq_some hfind
  · intro h
    cases hfind : t.entries.find? fun e => compare key e.1 == .eq with
    | none => simpa using List.find?_eq_none.mp hfind _ h
    | some e =>
      have hkey : key = e.1 := by simpa using List.find?_some hfind
      have heq := eq_of_mem_of_fst_eq t.sorted h (List.mem_of_find?_eq_some hfind) hkey
      simp [← heq]

/-- A key is stored exactly when a lookup succeeds. -/
theorem contains_iff {t : Table α β} {key : α} :
    t.contains key = true ↔ ∃ b, t.get? key = some b := by
  simp only [contains, List.any_eq_true, get?_eq_some_iff, beq_iff_eq]
  constructor
  · rintro ⟨⟨k, b⟩, hmem, heq⟩
    obtain rfl := Std.LawfulEqCmp.eq_of_compare heq
    exact ⟨b, hmem⟩
  · rintro ⟨b, hmem⟩
    exact ⟨(key, b), hmem, by simp⟩

/-- A key is missing exactly when a lookup fails. -/
theorem contains_eq_false_iff {t : Table α β} {key : α} :
    t.contains key = false ↔ t.get? key = none := by
  rw [← Bool.not_eq_true, contains_iff, Option.eq_none_iff_forall_ne_some]
  simp

/-- The keys are those under which something is stored. -/
theorem mem_keys_iff {t : Table α β} {key : α} : key ∈ t.keys ↔ ∃ b, t.get? key = some b := by
  simp [keys, get?_eq_some_iff]

theorem mem_values_of_get? {t : Table α β} {key : α} {b : β} (h : t.get? key = some b) :
    b ∈ t.values :=
  List.mem_map_of_mem (get?_eq_some_iff.mp h)

/-- A filtered table answers with what passes the filter. -/
theorem get?_filter (t : Table α β) (p : α → β → Bool) (key : α) :
    (t.filter p).get? key = (t.get? key).filter (p key) := by
  apply Option.ext
  intro b
  simp [get?_eq_some_iff, filter, Option.filter_eq_some_iff]

/-- An erased table has lost one key only. -/
theorem get?_erase [DecidableEq α] (t : Table α β) (key other : α) :
    (t.erase key).get? other = if other = key then none else t.get? other := by
  rw [erase, get?_filter]
  by_cases h : other = key
  · simp [h]
  · have hne : (compare key other != .eq) = true := by
      rw [bne_iff_ne, ne_eq, Std.LawfulEqCmp.compare_eq_iff_eq]
      exact Ne.symm h
    cases t.get? other <;> simp [h, hne]

/-- Mapping entries maps lookups. -/
theorem get?_mapEntries (t : Table α β) (f : α → β → γ) (key : α) :
    (t.mapEntries f).get? key = (t.get? key).map (f key) := by
  apply Option.ext
  intro c
  simp only [get?_eq_some_iff, mapEntries, List.mem_map, Prod.mk.injEq, Option.map_eq_some_iff]
  constructor
  · rintro ⟨e, hmem, rfl, rfl⟩
    exact ⟨e.2, hmem, rfl⟩
  · rintro ⟨b, hmem, rfl⟩
    exact ⟨(key, b), hmem, rfl, rfl⟩

/-- Mapping values maps lookups. -/
theorem get?_mapValues (t : Table α β) (f : β → γ) (key : α) :
    (t.mapValues f).get? key = (t.get? key).map f :=
  get?_mapEntries t (fun _ => f) key

/-- An erased table contains what it contained under other keys. -/
theorem contains_erase_iff [DecidableEq α] {t : Table α β} {key other : α} :
    (t.erase key).contains other = true ↔ other ≠ key ∧ t.contains other = true := by
  simp only [contains_iff, get?_erase]
  by_cases h : other = key <;> simp [h]

/-- Erasing a key makes a table smaller. -/
theorem size_erase_lt {t : Table α β} {key : α} (h : t.contains key = true) :
    (t.erase key).size < t.size := by
  obtain ⟨b, hget⟩ := contains_iff.mp h
  exact List.length_filter_lt_length_iff_exists.mpr
    ⟨(key, b), get?_eq_some_iff.mp hget, by simp⟩

variable [Std.TransOrd α]

/-- Tables with the same lookups are equal. -/
theorem ext_get? {s t : Table α β} (h : ∀ key, s.get? key = t.get? key) : s = t := by
  have hmem : ∀ x, x ∈ s.entries ↔ x ∈ t.entries := by
    rintro ⟨key, b⟩
    rw [← get?_eq_some_iff, ← get?_eq_some_iff, h]
  have hnodup : ∀ u : Table α β, u.entries.Nodup := fun u =>
    u.sorted.imp fun hlt heq => by simp [heq] at hlt
  have hperm : s.entries.Perm t.entries :=
    (List.perm_ext_iff_of_nodup (hnodup s) (hnodup t)).mpr hmem
  have hentries : s.entries = t.entries := by
    refine hperm.eq_of_pairwise (fun x y hx hy hxy hyx => ?_) s.sorted t.sorted
    have hirrefl := Std.TransCmp.lt_trans hxy hyx
    simp at hirrefl
  cases s
  cases t
  simpa using hentries

/-- The first entry is stored, and the rest of the table is the table without it. -/
theorem takeFirst?_eq_some [DecidableEq α] {t rest : Table α β} {key : α} {b : β}
    (h : t.takeFirst? = some ((key, b), rest)) : t.get? key = some b ∧ rest = t.erase key := by
  obtain ⟨entries, hsorted⟩ := t
  cases entries with
  | nil => simp [takeFirst?] at h
  | cons e tail =>
    simp only [takeFirst?, Option.some.injEq, Prod.mk.injEq] at h
    obtain ⟨rfl, rfl⟩ := h
    refine ⟨get?_eq_some_iff.mpr List.mem_cons_self, ext_get? fun other => ?_⟩
    rw [get?_erase]
    have hhead : ∀ z ∈ tail, compare key z.1 = .lt := fun z hz =>
      List.rel_of_pairwise_cons hsorted hz
    split
    · next heq =>
      rw [← contains_eq_false_iff]
      simp only [contains, List.any_eq_false, beq_iff_eq]
      intro z hz
      rw [heq, hhead z hz]
      simp
    · next hne =>
      have hcompare : (compare other key == Ordering.eq) = false := by
        rw [beq_eq_false_iff_ne, ne_eq, Std.LawfulEqCmp.compare_eq_iff_eq]
        exact hne
      simp [get?, hcompare]

variable [DecidableEq α] {entries : List (α × β)} {key : α} {b : β}

/-- The table of a list has only entries of the list. -/
theorem mem_of_get?_ofList (h : (ofList entries).get? key = some b) : (key, b) ∈ entries := by
  induction entries using List.reverseRecOn with
  | nil => simp [ofList] at h
  | append_singleton entries e ih =>
    rw [ofList_append_singleton, get?_insert] at h
    split at h
    · next heq =>
      cases h
      simp [heq]
    · exact List.mem_append_left _ (ih h)

/-- The table of a list has every key of the list. -/
theorem exists_get?_ofList (h : (key, b) ∈ entries) : ∃ c, (ofList entries).get? key = some c := by
  induction entries using List.reverseRecOn with
  | nil => cases h
  | append_singleton entries e ih =>
    rw [ofList_append_singleton, get?_insert]
    split
    · exact ⟨_, rfl⟩
    · next hne =>
      rcases List.mem_append.mp h with h | h
      · exact ih h
      · rw [← List.mem_singleton.mp h] at hne
        exact absurd rfl hne

/-- A key with at most one value in a list has this value in the table of the list. -/
theorem get?_ofList {value : Option β} (h : ∀ b, (key, b) ∈ entries ↔ value = some b) :
    (ofList entries).get? key = value := by
  cases hget : (ofList entries).get? key with
  | some b => exact ((h b).mp (mem_of_get?_ofList hget)).symm
  | none =>
    cases value with
    | none => rfl
    | some b =>
      obtain ⟨c, hc⟩ := exists_get?_ofList ((h b).mpr rfl)
      rw [hget] at hc
      cases hc

/-- In the table of two lists the entries of the second come first. -/
theorem get?_ofList_append (xs ys : List (α × β)) (key : α) :
    (ofList (xs ++ ys)).get? key = ((ofList ys).get? key).or ((ofList xs).get? key) := by
  induction ys using List.reverseRecOn with
  | nil => simp [ofList]
  | append_singleton ys e ih =>
    rw [← List.append_assoc, ofList_append_singleton, ofList_append_singleton, get?_insert,
      get?_insert, ih]
    split <;> simp

end Lookup

end SpinGlass.Table

namespace SpinGlass.KeySet

variable {α : Type} [Ord α] [Std.LawfulEqOrd α] {set : KeySet α} {a b : α}

/-- The members are listed. -/
theorem mem_toList_iff : a ∈ toList set ↔ set.contains a = true := by
  rw [toList, Table.mem_keys_iff, Table.contains_iff]

theorem contains_empty : (.empty : KeySet α).contains a = false := by
  simp [← Bool.not_eq_true, Table.contains_iff]

/-- A set has its old members and the one inserted. -/
theorem contains_insert_iff [Std.TransOrd α] [DecidableEq α] :
    (insert set a).contains b = true ↔ b = a ∨ set.contains b = true := by
  simp only [insert, Table.contains_iff, Table.get?_insert]
  by_cases h : b = a <;> simp [h]

/-- The set of a list has the members of the list. -/
theorem contains_ofList_iff [Std.TransOrd α] [DecidableEq α] {xs : List α} :
    (ofList xs).contains a = true ↔ a ∈ xs := by
  have hfold : ∀ set : KeySet α,
      (xs.foldl insert set).contains a = true ↔ a ∈ xs ∨ set.contains a = true := by
    induction xs with
    | nil => simp
    | cons x rest ih =>
      intro set
      rw [List.foldl_cons, ih, contains_insert_iff, List.mem_cons, or_left_comm, or_assoc]
  rw [ofList, hfold, Table.contains_iff]
  simp

/-- The first member is one, and the rest is the set without it. -/
theorem takeFirst?_eq_some [Std.TransOrd α] [DecidableEq α] {rest : KeySet α}
    (h : takeFirst? set = some (a, rest)) : set.contains a = true ∧ rest = Table.erase set a := by
  obtain ⟨⟨⟨key, u⟩, tail⟩, hfirst, heq⟩ := Option.map_eq_some_iff.mp h
  simp only [Prod.mk.injEq] at heq
  obtain ⟨rfl, rfl⟩ := heq
  have hsome := Table.takeFirst?_eq_some hfirst
  exact ⟨Table.contains_iff.mpr ⟨u, hsome.1⟩, hsome.2⟩

end SpinGlass.KeySet

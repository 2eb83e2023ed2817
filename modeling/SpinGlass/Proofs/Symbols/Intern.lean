import SpinGlass.Proofs.Symbols.Links
import Mathlib.Data.List.Nodup

/-!
# Allocating indices

While a problem is built, the table of symbols has no links: a name leads to the index it was given,
and a new name gets the next index. A generated name is always new, because among more candidates
than there are names one is free.
-/

namespace SpinGlass.Symbols

/-- A table without links whose names lead to allocated indices. -/
structure Plain (s : Symbols) : Prop where
  pending : s.pending = .empty
  lt_size : ∀ name i, s.byName.get? name = some i → i < s.size

/-- A later table has the names of an earlier one, with the same indices. -/
structure Extends (s s' : Symbols) : Prop where
  size_le : s.size ≤ s'.size
  byName : ∀ name i, s.byName.get? name = some i → s'.byName.get? name = some i

theorem Extends.refl (s : Symbols) : s.Extends s := ⟨le_rfl, fun _ _ h => h⟩

theorem Extends.trans {s t u : Symbols} (h : s.Extends t) (h' : t.Extends u) : s.Extends u :=
  ⟨h.size_le.trans h'.size_le, fun name i hi => h'.byName name i (h.byName name i hi)⟩

theorem plain_empty : Symbols.empty.Plain := ⟨rfl, by simp [Symbols.empty]⟩

/-- No two names lead to one index. -/
def Apart (s : Symbols) : Prop :=
  ∀ name name' i, s.byName.get? name = some i → s.byName.get? name' = some i → name = name'

/-- Every allocated index has a name. -/
def Named (s : Symbols) : Prop := ∀ i < s.size, ∃ name, s.byName.get? name = some i

theorem named_empty : Symbols.empty.Named := fun _ hi => absurd hi (Nat.not_lt_zero _)

section Intern

variable {s : Symbols} {name : String}

/-- In a plain table a name has the index it was given. -/
theorem Plain.lookup? (h : s.Plain) (name : String) : s.lookup? name = s.byName.get? name :=
  lookup?_of_pending h.pending name

/-- A new name gets the next index. -/
theorem intern_of_lookup?_eq_none (h : s.lookup? name = none) :
    s.intern name =
      (s.size, { s with byName := s.byName.insert name s.size, size := s.size + 1 }) := by
  unfold Symbols.intern
  rw [h]

/-- A name has the index that it is interned under, and the other names keep theirs. -/
theorem Plain.intern (h : s.Plain) (name : String) :
    (s.intern name).2.Plain ∧ s.Extends (s.intern name).2 ∧
      (s.intern name).2.byName.get? name = some (s.intern name).1 := by
  unfold Symbols.intern
  cases hname : s.lookup? name with
  | some i => exact ⟨h, .refl s, by rw [← h.lookup? name, hname]⟩
  | none =>
    rw [h.lookup?] at hname
    have hget : ∀ other, (s.byName.insert name s.size).get? other =
        if other = name then some s.size else s.byName.get? other := fun _ => Table.get?_insert ..
    refine ⟨⟨h.pending, fun other i hi => ?_⟩, ⟨Nat.le_succ _, fun other i hi => ?_⟩,
      by simp [hget]⟩
    · simp only [hget] at hi
      split at hi
      · cases hi
        exact Nat.lt_succ_self _
      · exact Nat.lt_succ_of_lt (h.lt_size other i hi)
    · simp only [hget]
      split
      · next heq =>
        rw [heq, hname] at hi
        cases hi
      · exact hi

/-- Interning a name adds no other name. -/
theorem names_intern {other : String} {i : Nat}
    (h : (s.intern name).2.byName.get? other = some i) :
    other = name ∨ s.byName.get? other = some i := by
  unfold Symbols.intern at h
  cases hname : s.lookup? name with
  | some root =>
    rw [hname] at h
    exact .inr h
  | none =>
    simp only [hname, Table.get?_insert] at h
    split at h
    · next heq => exact .inl heq
    · exact .inr h

/-- A new name gets an index of its own. -/
theorem Apart.intern (h : s.Apart) (hplain : s.Plain) (name : String) :
    (s.intern name).2.Apart := by
  unfold Symbols.intern
  cases hname : s.lookup? name with
  | some root => exact h
  | none =>
    intro a b i ha hb
    simp only [Table.get?_insert] at ha hb
    by_cases hna : a = name <;> by_cases hnb : b = name
    · rw [hna, hnb]
    · rw [if_pos hna, Option.some.injEq] at ha
      rw [if_neg hnb] at hb
      exact absurd (hplain.lt_size b i hb) (by omega)
    · rw [if_neg hna] at ha
      rw [if_pos hnb, Option.some.injEq] at hb
      exact absurd (hplain.lt_size a i ha) (by omega)
    · rw [if_neg hna] at ha
      rw [if_neg hnb] at hb
      exact h a b i ha hb

/-- Every index keeps its name, and a new one gets the name that is interned. -/
theorem Named.intern (h : s.Named) (hplain : s.Plain) (name : String) :
    (s.intern name).2.Named := by
  obtain ⟨_, hextends, hname⟩ := hplain.intern name
  intro i hi
  by_cases hold : i < s.size
  · obtain ⟨old, hname⟩ := h i hold
    exact ⟨old, hextends.byName old i hname⟩
  · cases hlookup : s.lookup? name with
    | some root =>
      unfold Symbols.intern at hi
      rw [hlookup] at hi
      exact absurd hi hold
    | none =>
      rw [intern_of_lookup?_eq_none hlookup] at hi hname ⊢
      have heq : i = s.size := Nat.le_antisymm (Nat.le_of_lt_succ hi) (Nat.not_lt.mp hold)
      exact ⟨name, heq ▸ hname⟩

end Intern

section Fresh

variable {s : Symbols} {stem : String}

/-- Different numbers make different names. -/
theorem internalName_injective {a b : Nat} (h : internalName stem a = internalName stem b) :
    a = b := by
  unfold internalName at h
  rw [String.append_right_inj] at h
  have hdigits : Nat.ofDigitChars 10 (Nat.repr a).toList 0 =
      Nat.ofDigitChars 10 (Nat.repr b).toList 0 :=
    congrArg (fun text => Nat.ofDigitChars 10 text.toList 0) h
  simpa using hdigits

/-- A search goes up past numbers whose names are taken, to one whose name is free or to the end of
its tries. -/
theorem freeNumber_spec (s : Symbols) (stem : String) (tries number : Nat) :
    number ≤ s.freeNumber stem tries number ∧
      (∀ k, number ≤ k → k < s.freeNumber stem tries number →
        s.byName.contains (internalName stem k) = true) ∧
      (s.byName.contains (internalName stem (s.freeNumber stem tries number)) = false ∨
        s.freeNumber stem tries number = number + tries) := by
  induction tries generalizing number with
  | zero => exact ⟨le_rfl, fun k hle hlt => absurd hlt (Nat.not_lt.mpr hle), .inr rfl⟩
  | succ tries ih =>
    unfold freeNumber
    split
    · next htaken =>
      obtain ⟨hle, hpassed, hend⟩ := ih (number + 1)
      refine ⟨by omega, fun k hk hlt => ?_, hend.imp_right fun hend => by omega⟩
      rcases Nat.eq_or_lt_of_le hk with rfl | hk
      · exact htaken
      · exact hpassed k hk hlt
    · next hfree =>
      exact ⟨le_rfl, fun k hle hlt => absurd hlt (Nat.not_lt.mpr hle),
        .inl (Bool.eq_false_iff.mpr hfree)⟩

/-- Numbers in a row whose names are all taken are no more than there are names. -/
theorem le_add_size_of_contains {a b : Nat}
    (h : ∀ k, a ≤ k → k < b → s.byName.contains (internalName stem k) = true) :
    b ≤ a + s.byName.size := by
  let taken := (List.range' a (b - a)).map (internalName stem)
  have hnodup : taken.Nodup :=
    List.Nodup.map_on (fun _ _ _ _ heq => internalName_injective heq) List.nodup_range'
  have hsubset : taken ⊆ s.byName.keys := by
    intro name hname
    obtain ⟨k, hk, rfl⟩ := List.mem_map.mp hname
    rw [List.mem_range'_1] at hk
    rw [Table.mem_keys_iff, ← Table.contains_iff]
    exact h k hk.1 (by omega)
  have hle := hnodup.length_le_of_subset hsubset
  simp only [taken, Table.keys, Table.size, List.length_map, List.length_range'] at hle ⊢
  omega

/-- The number that the next generated name gets. -/
def nextNumber (s : Symbols) (stem : String) : Nat :=
  s.freeNumber stem (s.byName.size + 1) s.nextInternal

/-- One more candidate than there are names is enough to find a free name. -/
theorem get?_nextNumber (s : Symbols) (stem : String) :
    s.byName.get? (internalName stem (s.nextNumber stem)) = none := by
  obtain ⟨_, hpassed, hfree | hend⟩ :=
    freeNumber_spec s stem (s.byName.size + 1) s.nextInternal
  · exact Table.contains_eq_false_iff.mp hfree
  · have hle := le_add_size_of_contains hpassed
    omega

/-- The name leads nowhere, wherever the counter stands. -/
theorem lookup?_nextNumber (s : Symbols) (stem : String) (next : Nat) :
    ({ s with nextInternal := next } : Symbols).lookup?
      (internalName stem (s.nextNumber stem)) = none := by
  unfold Symbols.lookup?
  dsimp only
  rw [get?_nextNumber]
  rfl

theorem isInternalName_internalName (stem : String) (number : Nat) :
    isInternalName (internalName stem number) = true := by
  simp [isInternalName, internalName]

/-- All names that a generated one is added to stay, and no other is added. -/
theorem names_fresh {name : String} {i : Nat}
    (h : (s.fresh stem).2.byName.get? name = some i) :
    isInternalName name = true ∨ s.byName.get? name = some i := by
  refine (names_intern h).imp (fun heq => ?_) fun hold => hold
  rw [heq]
  exact isInternalName_internalName _ _

/-- A generated name is interned, and it is a new one. -/
theorem fresh_eq_intern (s : Symbols) (stem : String) : ∃ name next,
    ({ s with nextInternal := next } : Symbols).lookup? name = none ∧
      s.fresh stem = ((name, (({ s with nextInternal := next } : Symbols).intern name).1),
        (({ s with nextInternal := next } : Symbols).intern name).2) :=
  ⟨internalName stem (s.nextNumber stem), s.nextNumber stem + 1,
    s.lookup?_nextNumber stem _, rfl⟩

/-- A generated name gets the next index. -/
theorem size_fresh (s : Symbols) (stem : String) :
    (s.fresh stem).1.2 = s.size ∧ (s.fresh stem).2.size = s.size + 1 := by
  obtain ⟨name, next, hnone, hfresh⟩ := s.fresh_eq_intern stem
  rw [hfresh, intern_of_lookup?_eq_none hnone]
  exact ⟨rfl, rfl⟩

/-- A generated name gets a new index, and the table stays plain. -/
theorem Plain.fresh (h : s.Plain) (stem : String) :
    (s.fresh stem).1.2 = s.size ∧ (s.fresh stem).2.size = s.size + 1 ∧ (s.fresh stem).2.Plain ∧
      s.Extends (s.fresh stem).2 := by
  obtain ⟨hindex, hsize⟩ := s.size_fresh stem
  obtain ⟨name, next, _, hfresh⟩ := s.fresh_eq_intern stem
  have hplain : Plain { s with nextInternal := next } := ⟨h.pending, h.lt_size⟩
  obtain ⟨hinterned, hextends, _⟩ := hplain.intern name
  refine ⟨hindex, hsize, ?_⟩
  rw [hfresh]
  exact ⟨hinterned, ⟨hextends.size_le, hextends.byName⟩⟩

/-- A generated name leaves every index with a name, no two names with one index, and the names of
the indices that were there before alone. -/
theorem names_of_fresh (h : s.Plain) (hnamed : s.Named) (hapart : s.Apart) (stem : String) :
    (s.fresh stem).2.Named ∧ (s.fresh stem).2.Apart ∧
      ∀ name i, i < s.size → (s.fresh stem).2.byName.get? name = some i →
        s.byName.get? name = some i := by
  obtain ⟨name, next, hnone, hfresh⟩ := s.fresh_eq_intern stem
  have hplain : Plain { s with nextInternal := next } := ⟨h.pending, h.lt_size⟩
  have hnamed : Named { s with nextInternal := next } := hnamed
  have hapart : Apart { s with nextInternal := next } := hapart
  rw [hfresh]
  refine ⟨hnamed.intern hplain name, hapart.intern hplain name, fun other i hi hother => ?_⟩
  rw [intern_of_lookup?_eq_none hnone] at hother
  simp only [Table.get?_insert] at hother
  split at hother
  · cases hother
    exact absurd hi (lt_irrefl _)
  · exact hother

end Fresh

end SpinGlass.Symbols

import SpinGlass.Proofs.Symbols.Reachable
import Mathlib.Order.Bounds.Basic

/-!
# Generated names

A generated name is looked for by trying one number after the other. Different numbers make
different names, so the search ends after no more tries than there are names in the table. It
starts from a counter that no call sets back. So a name is not generated again under its stem, not
even when its index was retired and the table has forgotten it.
-/

namespace SpinGlass.Symbols

/-- The table after calls, with whatever indices. -/
def calls (s : Symbols) (cs : List SymbolCall) : Symbols := cs.foldl call s

section Search

variable (s : Symbols) (stem : String)

/-- The search ends at the first number from the counter on whose name is free. -/
theorem isLeast_nextNumber :
    IsLeast {k | s.nextInternal ≤ k ∧ s.byName.get? (internalName stem k) = none}
      (s.nextNumber stem) := by
  obtain ⟨hle, hpassed, _⟩ := freeNumber_spec s stem (s.byName.size + 1) s.nextInternal
  refine ⟨⟨hle, s.get?_nextNumber stem⟩, fun k ⟨hk, hfree⟩ => ?_⟩
  by_contra hlt
  have htaken := hpassed k hk (Nat.not_le.mp hlt)
  rw [Table.contains_eq_false_iff.mpr hfree] at htaken
  cases htaken

/-- It passes over no more numbers than there are names. -/
theorem nextNumber_le : s.nextNumber stem ≤ s.nextInternal + s.byName.size :=
  le_add_size_of_contains (freeNumber_spec s stem (s.byName.size + 1) s.nextInternal).2.1

end Search

section Counter

variable {s s' : Symbols}

theorem nextInternal_intern (s : Symbols) (name : String) :
    (s.intern name).2.nextInternal = s.nextInternal := by
  unfold intern
  cases s.lookup? name <;> rfl

theorem nextInternal_merge {i j k : Nat} (h : s.merge i j = .ok (k, s')) :
    s'.nextInternal = s.nextInternal := by
  unfold merge at h
  obtain ⟨a, _, h⟩ := bind_eq_ok.mp h
  obtain ⟨b, _, h⟩ := bind_eq_ok.mp h
  split at h
  · cases h
    rfl
  · cases h
    rfl

/-- Not even a renumbering that is stopped half way changes the counter. -/
theorem nextInternal_compact (s : Symbols) : s.compact.2.nextInternal = s.nextInternal := by
  unfold compact
  split
  · rfl
  · dsimp only
    split <;> rfl

/-- No call sets the counter back. -/
theorem nextInternal_le_call (s : Symbols) (c : SymbolCall) :
    s.nextInternal ≤ (s.call c).nextInternal := by
  cases c with
  | intern name => exact (nextInternal_intern s name).ge
  | fresh stem =>
    have hle : s.nextInternal ≤ s.nextNumber stem := (s.isLeast_nextNumber stem).1.1
    simp only [call, fresh_eq, grow]
    omega
  | merge i j =>
    cases hmerge : s.merge i j with
    | error => simp only [call, hmerge, le_refl]
    | ok result => simpa only [call, hmerge] using (nextInternal_merge hmerge).ge
  | retire i =>
    rcases s.retire_cases i with ⟨_, e, herror⟩ | ⟨r, _, hretire⟩
    · simp only [call, herror, le_refl]
    · simp only [call, hretire, dropRoot, link, le_refl]
  | compact => exact (nextInternal_compact s).ge
  | unify a b =>
    cases hunify : s.unify a b with
    | error => simp only [call, hunify, le_refl]
    | ok result =>
      obtain ⟨remap, s'⟩ := result
      obtain ⟨i, j, k, t, hmerge, hcompact⟩ := exists_of_unify hunify
      have hcounter : s'.nextInternal = s.nextInternal := by
        rw [← nextInternal_merge hmerge, ← nextInternal_compact t, hcompact]
      simpa only [call, hunify] using hcounter.ge

/-- Nor does a run of calls. -/
theorem nextInternal_le_calls (s : Symbols) (cs : List SymbolCall) :
    s.nextInternal ≤ (s.calls cs).nextInternal := by
  induction cs generalizing s with
  | nil => exact le_rfl
  | cons c cs ih => exact (nextInternal_le_call s c).trans (ih (s.call c))

/-- A later number is greater, whatever is called in between. -/
theorem nextNumber_lt_nextNumber (s : Symbols) (stem : String) (cs : List SymbolCall) :
    s.nextNumber stem < ((s.fresh stem).2.calls cs).nextNumber stem := by
  have hgrown : (s.fresh stem).2.nextInternal = s.nextNumber stem + 1 := by
    rw [fresh_eq]
    rfl
  calc s.nextNumber stem
    _ < (s.fresh stem).2.nextInternal := by omega
    _ ≤ ((s.fresh stem).2.calls cs).nextInternal := nextInternal_le_calls _ cs
    _ ≤ ((s.fresh stem).2.calls cs).nextNumber stem := (isLeast_nextNumber _ stem).1.1

end Counter

/-- Of any table, whatever calls led to it, a name can be generated under any stem: the search ends
at the first number from the counter on whose name is free, past no more numbers than there are
names. The name begins with the mark of generated names, it was not in the table, and it gets the
next index; the other names lead where they led. After whatever further calls, another name is
generated under the stem. -/
theorem fresh_isNew (s : Symbols) (stem : String) :
    (∃ number, (s.fresh stem).1.1 = internalName stem number ∧
      IsLeast {k | s.nextInternal ≤ k ∧ s.byName.get? (internalName stem k) = none} number ∧
      number ≤ s.nextInternal + s.byName.size) ∧
    isInternalName (s.fresh stem).1.1 = true ∧
    s.byName.get? (s.fresh stem).1.1 = none ∧
    (s.fresh stem).1.2 = s.size ∧
    (s.fresh stem).2.byName.get? (s.fresh stem).1.1 = some s.size ∧
    (∀ other, other ≠ (s.fresh stem).1.1 →
      (s.fresh stem).2.byName.get? other = s.byName.get? other ∧
      (s.fresh stem).2.lookup? other = s.lookup? other) ∧
    ∀ cs, (((s.fresh stem).2.calls cs).fresh stem).1.1 ≠ (s.fresh stem).1.1 := by
  have hstored : ∀ other, (s.fresh stem).2.byName.get? other =
      if other = (s.fresh stem).1.1 then some s.size else s.byName.get? other := by
    intro other
    rw [fresh_eq]
    exact Table.get?_insert ..
  refine ⟨⟨s.nextNumber stem, by rw [fresh_eq], s.isLeast_nextNumber stem, s.nextNumber_le stem⟩,
    ?_, ?_, by rw [fresh_eq], by rw [hstored, if_pos rfl], fun other hne => ⟨?_, ?_⟩,
    fun cs heq => ?_⟩
  · rw [fresh_eq]
    exact isInternalName_internalName _ _
  · rw [fresh_eq]
    exact s.get?_nextNumber stem
  · rw [hstored, if_neg hne]
  · rw [fresh_eq] at hne ⊢
    rw [lookup?_grow, if_neg hne]
  · have hlt := s.nextNumber_lt_nextNumber stem cs
    rw [fresh_eq ((s.fresh stem).2.calls cs), fresh_eq s] at heq
    have hsame := internalName_injective heq
    rw [fresh_eq s] at hlt
    omega

/-- The table has forgotten a name that was retired, but the counter has not. -/
example :
    let s := (Symbols.empty.fresh "pin").2.calls [.retire 0, .compact]
    s.byName.get? "$pin0" = none ∧ (s.fresh "pin").1 = ("$pin1", 0) := by
  decide +kernel

end SpinGlass.Symbols

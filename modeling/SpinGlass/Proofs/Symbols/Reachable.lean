import SpinGlass.Proofs.Success
import SpinGlass.Proofs.Symbols.Consistent

/-!
# Reachable tables

The calls on a table are not restricted to allocated indices, and an index that is linked or retired
before it is handed out makes a table that is not in order. Two facts survive whatever the calls
are: links lead downwards, and every root has a name. So where nothing is pending, every index has a
name.
-/

namespace SpinGlass.Symbols

/-- A call that is carried out in full: a stray name would stop its renumbering half way. -/
def Completes (s : Symbols) : SymbolCall → Prop
  | .compact => s.compact.1.isSome = true
  | .unify a b => ∀ remap s', s.unify a b = .ok (remap, s') → remap.isSome = true
  | _ => True

/-- The tables that calls lead to from the empty one, with whatever indices. -/
inductive Reachable : Symbols → Prop
  | empty : Reachable .empty
  | call {s : Symbols} {c : SymbolCall} (h : Reachable s) (hcompletes : s.Completes c) :
      Reachable (s.call c)

/-- A table whose links lead downwards and whose roots all have names. -/
structure Covered (s : Symbols) : Prop where
  downward : s.Downward
  named : ∀ r, s.IsRoot r → ∃ name, s.lookup? name = some r

theorem covered_empty : Symbols.empty.Covered := ⟨tidy_empty.links.downward, tidy_empty.named⟩

section Calls

variable {s s' : Symbols} {name : String} {i r : Nat}

/-- A new root has the new name. -/
theorem Covered.grow (h : s.Covered) (hname : s.lookup? name = none) (next : Nat) :
    (s.grow name next).Covered := by
  refine ⟨h.downward, fun r ⟨hlt, hpending⟩ => ?_⟩
  rcases Nat.lt_succ_iff_lt_or_eq.mp hlt with hlt | rfl
  · obtain ⟨other, hother⟩ := h.named r ⟨hlt, hpending⟩
    have hne : other ≠ name := by
      rintro rfl
      rw [hname] at hother
      cases hother
    exact ⟨other, by rw [lookup?_grow, if_neg hne, hother]⟩
  · refine ⟨name, ?_⟩
    rw [lookup?_grow, if_pos rfl]
    exact root?_of_none hpending

/-- The roots that a merge leaves keep their names. -/
theorem Covered.merged (h : s.Covered) {keep drop : Nat} (hkeep : s.pending.get? keep = none)
    (hdrop : s.pending.get? drop = none) (hlt : keep < drop) :
    (s.link drop (.merged keep)).Covered := by
  refine ⟨h.downward.link fun target htarget => ?_, fun r hr => ?_⟩
  · cases htarget
    exact hlt
  · obtain ⟨hr, hne⟩ := isRoot_link.mp hr
    obtain ⟨name, hname⟩ := h.named r hr
    refine ⟨name, ?_⟩
    rw [h.downward.lookup?_merged hkeep hdrop hlt, hname, Option.map_some, if_neg hne]

/-- The roots that a retirement leaves keep their names. -/
theorem Covered.dropRoot (h : s.Covered) (hr : s.pending.get? r = none) :
    (s.dropRoot r).Covered := by
  have hlink : (s.link r .retired).Downward := h.downward.link fun target htarget => by
    cases htarget
  refine ⟨hlink, fun k hk => ?_⟩
  have hk : (s.link r .retired).IsRoot k := hk
  obtain ⟨hk, hne⟩ := isRoot_link.mp hk
  obtain ⟨name, hname⟩ := h.named k hk
  refine ⟨name, ?_⟩
  rw [h.downward.lookup?_dropRoot hr, hname]
  exact if_neg fun heq => hne (Option.some.inj heq)

/-- The roots are renumbered together with their names. -/
theorem Covered.compact (h : s.Covered) (hcompletes : s.compact.1.isSome = true) :
    s.compact.2.Covered := by
  by_cases hpending : s.pending = .empty
  · have hsame : s.compact.2 = s := by
      unfold Symbols.compact
      rw [if_pos (Table.isEmpty_iff.mpr hpending)]
    rwa [hsame]
  obtain ⟨remap, hremap⟩ := Option.isSome_iff_exists.mp hcompletes
  have hcompact : s.compact = (some remap, s.compact.2) := by rw [← hremap]
  obtain ⟨hget, hsize, hnone, hnames⟩ := compact_eq_some hcompact
  refine ⟨(linksDown_of_pending hnone).downward, fun k hk => ?_⟩
  obtain ⟨r, hr, rfl⟩ := exists_rank_eq (hsize ▸ hk.1)
  obtain ⟨name, hname⟩ := h.named r hr
  obtain ⟨i, hi, hroot⟩ := Option.bind_eq_some_iff.mp hname
  refine ⟨name, ?_⟩
  rw [lookup?, hnames, hi, Option.map_some, hget, if_pos (lt_size_of_compact hcompact hpending hi),
    hroot]
  exact root?_of_none (by simp [hnone])

/-- Two indices that lead somewhere are merged, and nothing else happens. -/
theorem Covered.merge (h : s.Covered) {i j k : Nat} (hmerge : s.merge i j = .ok (k, s')) :
    s'.Covered := by
  rcases h.downward.merge_cases i j with
    ⟨_, e, herror⟩ | ⟨r, _, _, hsame⟩ | ⟨keep, drop, hkeep, hdrop, hlt, hlink, _⟩
  · rw [herror] at hmerge
    cases hmerge
  · rw [hsame] at hmerge
    cases hmerge
    exact h
  · rw [hlink] at hmerge
    cases hmerge
    exact h.merged hkeep hdrop hlt

/-- Names are given one index by a merge and a renumbering. -/
theorem exists_of_unify {a b : String} {remap : Option Remap} (h : s.unify a b = .ok (remap, s')) :
    ∃ i j k t, s.merge i j = .ok (k, t) ∧ t.compact = (remap, s') := by
  unfold unify at h
  obtain ⟨i, _, h⟩ := bind_eq_ok.mp h
  obtain ⟨j, _, h⟩ := bind_eq_ok.mp h
  obtain ⟨⟨k, t⟩, hmerge, h⟩ := bind_eq_ok.mp h
  exact ⟨i, j, k, t, hmerge, Except.ok.inj h⟩

/-- Whatever the call, links lead downwards and every root has a name. -/
theorem Covered.call (h : s.Covered) {c : SymbolCall} (hcompletes : s.Completes c) :
    (s.call c).Covered := by
  cases c with
  | intern name =>
    cases hname : s.lookup? name with
    | some i =>
      have hsame : s.call (.intern name) = s := by
        simp [Symbols.call, Symbols.intern, hname]
      rwa [hsame]
    | none =>
      have hgrow : s.call (.intern name) = s.grow name s.nextInternal := intern_eq_grow hname
      rw [hgrow]
      exact h.grow hname _
  | fresh stem =>
    obtain ⟨name, next, hname, hgrow⟩ := s.exists_fresh_eq_grow stem
    have hgrow : s.call (.fresh stem) = s.grow name next := hgrow
    rw [hgrow]
    exact h.grow hname next
  | merge i j =>
    cases hmerge : s.merge i j with
    | error => simpa only [Symbols.call, hmerge] using h
    | ok result => simpa only [Symbols.call, hmerge] using h.merge hmerge
  | retire i =>
    rcases s.retire_cases i with ⟨_, e, herror⟩ | ⟨r, hroot, hretire⟩
    · simpa only [Symbols.call, herror] using h
    · simpa only [Symbols.call, hretire] using h.dropRoot (h.downward.pending_root? hroot).1
  | compact => exact h.compact hcompletes
  | unify a b =>
    cases hunify : s.unify a b with
    | error => simpa only [Symbols.call, hunify] using h
    | ok result =>
      obtain ⟨remap, s'⟩ := result
      obtain ⟨i, j, k, t, hmerge, hcompact⟩ := exists_of_unify hunify
      have ht := (h.merge hmerge).compact
      rw [hcompact] at ht
      simpa only [Symbols.call, hunify] using ht (hcompletes remap s' hunify)

/-- Every root of a reachable table has a name. -/
theorem Reachable.covered (h : s.Reachable) : s.Covered := by
  induction h with
  | empty => exact covered_empty
  | call _ hcompletes ih => exact ih.call hcompletes

/-- Where nothing is pending, every index of a reachable table has a name. -/
theorem Reachable.exists_name (h : s.Reachable) (hpending : s.pending = .empty) (hi : i < s.size) :
    ∃ name, s.lookup? name = some i :=
  h.covered.named i ((isRoot_iff_of_pending hpending).mpr hi)

end Calls

end SpinGlass.Symbols

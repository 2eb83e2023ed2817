import SpinGlass.Problem.Energy
import SpinGlass.Proofs.Table.Lookup
import Mathlib.Order.Nat
import Mathlib.Tactic.Common

/-!
# Links between indices

A merged index leads to a lower one, so following links ends at a root or at a retired index.
Recording one more link at a root redirects exactly the indices that led there.
-/

namespace SpinGlass.Symbols

/-- Links lead downwards. -/
def Downward (s : Symbols) : Prop :=
  ∀ i target, s.pending.get? i = some (.merged target) → target < i

/-- Only allocated indices are linked, and links lead downwards. -/
structure LinksDown (s : Symbols) : Prop where
  lt_size : ∀ i rebind, s.pending.get? i = some rebind → i < s.size
  target_lt : ∀ i target, s.pending.get? i = some (.merged target) → target < i

/-- An allocated index that is neither merged nor retired. -/
def IsRoot (s : Symbols) (i : Nat) : Prop := i < s.size ∧ s.pending.get? i = none

/-- The table with one more link. -/
def link (s : Symbols) (i : Nat) (rebind : Rebind) : Symbols :=
  { s with pending := s.pending.insert i rebind }

/-- An assignment gives merged indices the spin of their targets. -/
def Respects (s : Symbols) (spins : Assignment) : Prop :=
  ∀ i target, s.pending.get? i = some (.merged target) → spins i = spins target

section Roots

variable {s : Symbols} {i r : Nat}

theorem LinksDown.downward (hs : s.LinksDown) : s.Downward := hs.target_lt

/-- Without links there is nothing to lead downwards. -/
theorem linksDown_of_pending (h : s.pending = .empty) : s.LinksDown := by
  constructor <;> simp [h]

/-- Without links every allocated index is a root. -/
theorem isRoot_iff_of_pending (h : s.pending = .empty) : s.IsRoot i ↔ i < s.size := by
  simp [IsRoot, h]

/-- Without links every assignment respects them. -/
theorem respects_of_pending (h : s.pending = .empty) (spins : Assignment) : s.Respects spins := by
  intro i target hi
  simp [h] at hi

/-- Roots depend on the links only. -/
theorem root?_congr {s' : Symbols} (h : s.pending = s'.pending) (i : Nat) :
    s.root? i = s'.root? i := by
  induction i using Nat.strongRecOn with
  | ind i ih =>
    rw [root?, root?, ← h]
    cases hi : s.pending.get? i with
    | none => rfl
    | some rebind =>
      cases rebind with
      | retired => rfl
      | merged target =>
        simp only
        split
        · next hlt => exact ih target hlt
        · rfl

theorem root?_of_none (h : s.pending.get? i = none) : s.root? i = some i := by
  rw [root?, h]

/-- Without links a name leads where it is stored. -/
theorem lookup?_of_pending (h : s.pending = .empty) (name : String) :
    s.lookup? name = s.byName.get? name := by
  unfold lookup?
  cases s.byName.get? name with
  | none => rfl
  | some i => exact root?_of_none (by simp [h])

theorem root?_of_retired (h : s.pending.get? i = some .retired) : s.root? i = none := by
  rw [root?, h]

theorem root?_of_merged {target : Nat} (h : s.pending.get? i = some (.merged target))
    (hlt : target < i) : s.root? i = s.root? target := by
  rw [root?, h]
  simp [hlt]

/-- Links end at an index without one, no higher than where they start. -/
theorem Downward.pending_root? (hs : s.Downward) (h : s.root? i = some r) :
    s.pending.get? r = none ∧ r ≤ i := by
  induction i using Nat.strongRecOn with
  | ind i ih =>
    cases hi : s.pending.get? i with
    | none =>
      rw [root?_of_none hi, Option.some.injEq] at h
      exact h ▸ ⟨hi, le_rfl⟩
    | some rebind =>
      cases rebind with
      | retired =>
        rw [root?_of_retired hi] at h
        cases h
      | merged target =>
        have hlt := hs i target hi
        rw [root?_of_merged hi hlt] at h
        have htarget := ih target hlt h
        exact ⟨htarget.1, htarget.2.trans hlt.le⟩

theorem LinksDown.pending_root? (hs : s.LinksDown) (h : s.root? i = some r) :
    s.pending.get? r = none ∧ r ≤ i :=
  hs.downward.pending_root? h

/-- From an allocated index, links end at a root. -/
theorem Downward.isRoot_root? (hs : s.Downward) (hi : i < s.size) (h : s.root? i = some r) :
    s.IsRoot r := by
  have hroot := hs.pending_root? h
  exact ⟨by omega, hroot.1⟩

theorem LinksDown.isRoot_root? (hs : s.LinksDown) (hi : i < s.size) (h : s.root? i = some r) :
    s.IsRoot r :=
  hs.downward.isRoot_root? hi h

/-- An index that is not allocated leads nowhere else. -/
theorem LinksDown.root?_of_size_le (hs : s.LinksDown) (hi : s.size ≤ i) : s.root? i = some i := by
  apply root?_of_none
  cases h : s.pending.get? i with
  | none => rfl
  | some rebind => exact absurd (hs.lt_size i rebind h) (by omega)

/-- An assignment that respects the links gives an index the spin of its root. -/
theorem LinksDown.eq_root? (hs : s.LinksDown) {spins : Assignment} (hspins : s.Respects spins)
    (h : s.root? i = some r) : spins i = spins r := by
  induction i using Nat.strongRecOn with
  | ind i ih =>
    cases hi : s.pending.get? i with
    | none =>
      rw [root?_of_none hi, Option.some.injEq] at h
      rw [h]
    | some rebind =>
      cases rebind with
      | retired =>
        rw [root?_of_retired hi] at h
        cases h
      | merged target =>
        have hlt := hs.target_lt i target hi
        rw [root?_of_merged hi hlt] at h
        rw [hspins i target hi]
        exact ih target hlt h

/-- A name is listed with the index that it leads to. -/
theorem mem_entries {name : String} : (name, i) ∈ s.entries ↔ s.lookup? name = some i := by
  simp only [entries, lookup?, List.mem_filterMap, Option.map_eq_some_iff, Prod.mk.injEq,
    Option.bind_eq_some_iff, Table.get?_eq_some_iff]
  constructor
  · rintro ⟨e, he, root, hroot, rfl, rfl⟩
    exact ⟨e.2, he, hroot⟩
  · rintro ⟨index, he, hroot⟩
    exact ⟨(name, index), he, i, hroot, rfl, rfl⟩

/-- A name is one of an index exactly if it leads there. -/
theorem mem_namesOf {name : String} : name ∈ s.namesOf i ↔ s.lookup? name = some i := by
  simp [namesOf, ← mem_entries]

end Roots

section Link

variable {s : Symbols} {drop : Nat} {rebind : Rebind}

theorem pending_link (other : Nat) :
    (s.link drop rebind).pending.get? other =
      if other = drop then some rebind else s.pending.get? other :=
  Table.get?_insert ..

/-- A link downwards keeps links leading downwards. -/
theorem Downward.link (hs : s.Downward)
    (htarget : ∀ target, rebind = .merged target → target < drop) :
    (s.link drop rebind).Downward := by
  intro i target hi
  rw [pending_link] at hi
  split at hi
  · next heq =>
    rw [heq]
    exact htarget target (Option.some.inj hi)
  · exact hs i target hi

/-- A link from an allocated index downwards keeps links between allocated indices. -/
theorem LinksDown.link (hs : s.LinksDown) (hdrop : drop < s.size)
    (htarget : ∀ target, rebind = .merged target → target < drop) :
    (s.link drop rebind).LinksDown where
  lt_size i r hi := by
    rw [pending_link] at hi
    split at hi
    · next heq => exact heq ▸ hdrop
    · exact hs.lt_size i r hi
  target_lt := hs.downward.link htarget

/-- A link takes its index out of the roots. -/
theorem isRoot_link {i : Nat} : (s.link drop rebind).IsRoot i ↔ s.IsRoot i ∧ i ≠ drop := by
  unfold IsRoot
  rw [pending_link]
  by_cases h : i = drop
  · simp [h]
  · simp [h, Symbols.link]

/-- A link at an index without one redirects the indices that led there. -/
theorem Downward.root?_link (hs : s.Downward) (hdrop : s.pending.get? drop = none) (i : Nat) :
    (s.link drop rebind).root? i =
      (s.root? i).bind fun r => if r = drop then (s.link drop rebind).root? drop else some r := by
  induction i using Nat.strongRecOn with
  | ind i ih =>
    by_cases hi : i = drop
    · rw [hi, root?_of_none hdrop]
      simp
    · have hpending : (s.link drop rebind).pending.get? i = s.pending.get? i := by
        rw [pending_link, if_neg hi]
      cases hrebind : s.pending.get? i with
      | none =>
        rw [root?_of_none (hpending.trans hrebind), root?_of_none hrebind]
        simp [hi]
      | some r =>
        cases r with
        | retired =>
          rw [root?_of_retired (hpending.trans hrebind), root?_of_retired hrebind]
          rfl
        | merged target =>
          have hlt := hs i target hrebind
          rw [root?_of_merged (hpending.trans hrebind) hlt, root?_of_merged hrebind hlt]
          exact ih target hlt

/-- After a merge, what led to `drop` leads to `keep`. -/
theorem Downward.root?_merged (hs : s.Downward) {keep : Nat} (hkeep : s.pending.get? keep = none)
    (hdrop : s.pending.get? drop = none) (hlt : keep < drop) (i : Nat) :
    (s.link drop (.merged keep)).root? i =
      (s.root? i).map fun r => if r = drop then keep else r := by
  have htarget : (s.link drop (.merged keep)).root? drop = some keep := by
    have hlink : (s.link drop (.merged keep)).pending.get? drop = some (.merged keep) := by
      rw [pending_link, if_pos rfl]
    rw [root?_of_merged hlink hlt]
    exact root?_of_none (by rw [pending_link, if_neg hlt.ne, hkeep])
  rw [hs.root?_link hdrop i, htarget]
  cases s.root? i with
  | none => rfl
  | some r =>
    simp only [Option.bind_some, Option.map_some]
    split <;> rfl

theorem LinksDown.root?_merged (hs : s.LinksDown) {keep : Nat} (hkeep : s.IsRoot keep)
    (hdrop : s.IsRoot drop) (hlt : keep < drop) (i : Nat) :
    (s.link drop (.merged keep)).root? i =
      (s.root? i).map fun r => if r = drop then keep else r :=
  hs.downward.root?_merged hkeep.2 hdrop.2 hlt i

/-- After a retirement, what led to `drop` leads nowhere. -/
theorem Downward.root?_retired (hs : s.Downward) (hdrop : s.pending.get? drop = none) (i : Nat) :
    (s.link drop .retired).root? i =
      (s.root? i).bind fun r => if r = drop then none else some r := by
  have htarget : (s.link drop .retired).root? drop = none :=
    root?_of_retired (by rw [pending_link, if_pos rfl])
  rw [hs.root?_link hdrop i, htarget]

theorem LinksDown.root?_retired (hs : s.LinksDown) (hdrop : s.IsRoot drop) (i : Nat) :
    (s.link drop .retired).root? i =
      (s.root? i).bind fun r => if r = drop then none else some r :=
  hs.downward.root?_retired hdrop.2 i

/-- An assignment respects one more merge if it gives both indices one spin. -/
theorem respects_link_merged {keep : Nat} (hdrop : s.IsRoot drop) {spins : Assignment} :
    (s.link drop (.merged keep)).Respects spins ↔
      s.Respects spins ∧ spins drop = spins keep := by
  constructor
  · intro h
    refine ⟨fun i target hi => h i target ?_, h drop keep ?_⟩
    · rw [pending_link, if_neg, hi]
      rintro rfl
      rw [hdrop.2] at hi
      cases hi
    · rw [pending_link, if_pos rfl]
  · rintro ⟨h, heq⟩ i target hi
    rw [pending_link] at hi
    split at hi
    · next hdrop =>
      cases hi
      rw [hdrop, heq]
    · exact h i target hi

/-- Two roots are merged by a link from the higher one. -/
theorem merge_eq_link {keep : Nat} (hkeep : s.IsRoot keep) (hdrop : s.IsRoot drop)
    (hlt : keep < drop) : s.merge keep drop = .ok (keep, s.link drop (.merged keep)) := by
  have hmin : min keep drop = keep := Nat.min_eq_left hlt.le
  have hmax : max keep drop = drop := Nat.max_eq_right hlt.le
  simp [merge, rootOf, root?_of_none hkeep.2, root?_of_none hdrop.2, Bind.bind, Except.bind,
    hlt.ne, hmin, hmax, link, Pure.pure, Except.pure]

/-- Two indices are merged if both lead somewhere: there is nothing to do if they lead to one index,
and the higher index is linked to the lower one if they lead to two. -/
theorem Downward.merge_cases (h : s.Downward) (i j : Nat) :
    ((s.root? i = none ∨ s.root? j = none) ∧ ∃ e, s.merge i j = .error e) ∨
      (∃ r, s.root? i = some r ∧ s.root? j = some r ∧ s.merge i j = .ok (r, s)) ∨
      ∃ keep drop, s.pending.get? keep = none ∧ s.pending.get? drop = none ∧ keep < drop ∧
        s.merge i j = .ok (keep, s.link drop (.merged keep)) ∧
        (s.root? i = some keep ∧ s.root? j = some drop ∨
          s.root? i = some drop ∧ s.root? j = some keep) := by
  unfold merge rootOf
  cases hri : s.root? i with
  | none => exact .inl ⟨.inl rfl, _, rfl⟩
  | some a =>
    cases hrj : s.root? j with
    | none => exact .inl ⟨.inr rfl, _, rfl⟩
    | some b =>
      have ha := (h.pending_root? hri).1
      have hb := (h.pending_root? hrj).1
      refine .inr ?_
      rcases lt_trichotomy a b with hlt | rfl | hlt
      · refine .inr ⟨a, b, ha, hb, hlt, ?_, .inl ⟨rfl, rfl⟩⟩
        simp [Bind.bind, Except.bind, hlt.ne, Nat.min_eq_left hlt.le, Nat.max_eq_right hlt.le,
          Symbols.link, Pure.pure, Except.pure]
      · exact .inl ⟨a, rfl, rfl, by simp [Bind.bind, Except.bind, Pure.pure, Except.pure]⟩
      · refine .inr ⟨b, a, hb, ha, hlt, ?_, .inr ⟨rfl, rfl⟩⟩
        simp [Bind.bind, Except.bind, hlt.ne', Nat.min_eq_right hlt.le, Nat.max_eq_left hlt.le,
          Symbols.link, Pure.pure, Except.pure]

/-- A root is retired by a link, and its names are dropped. -/
theorem retire_eq_link (hdrop : s.IsRoot drop) :
    s.retire drop = .ok (s.namesOf drop,
      { s.link drop .retired with
        byName := s.byName.filter fun name _ => !(s.namesOf drop).contains name }) := by
  simp [retire, rootOf, root?_of_none hdrop.2, Bind.bind, Except.bind, link, Pure.pure,
    Except.pure]

end Link

end SpinGlass.Symbols

import SpinGlass.Proofs.Symbols.Links
import Mathlib.Data.List.Basic

/-!
# Compaction

Roots are numbered in their order from zero, and every index that leads to a root takes its
number. The numbers are exactly those below the new size.
-/

namespace SpinGlass

/-- In an increasing list, the members below the one at a position are those before it. -/
theorem length_filter_lt_getElem {xs : List Nat} (hxs : xs.Pairwise (· < ·)) (k : Nat)
    (hk : k < xs.length) : (xs.filter (· < xs[k])).length = k := by
  induction xs generalizing k with
  | nil => simp at hk
  | cons a rest ih =>
    have hhead : ∀ b ∈ rest, a < b := fun b hb => List.rel_of_pairwise_cons hxs hb
    cases k with
    | zero =>
      have hnone : rest.filter (· < a) = [] := by
        rw [List.filter_eq_nil_iff]
        intro b hb
        have := hhead b hb
        simp
        omega
      simp [hnone]
    | succ k =>
      have hk' : k < rest.length := by simpa using hk
      have hlt : a < rest[k] := hhead _ (List.getElem_mem hk')
      simpa [hlt] using ih hxs.of_cons k hk'

namespace Symbols

variable {s : Symbols}

/-- The number of a root among the roots. -/
def rank (s : Symbols) (root : Nat) : Nat := (s.survivors.filter (· < root)).length

theorem mem_survivors {i : Nat} : i ∈ s.survivors ↔ s.IsRoot i := by
  simp [survivors, IsRoot, Table.contains_eq_false_iff]

theorem pairwise_survivors (s : Symbols) : s.survivors.Pairwise (· < ·) :=
  List.pairwise_lt_range.filter _

/-- Every root stands at the position of its rank. -/
theorem exists_survivors_getElem {r : Nat} (hr : s.IsRoot r) :
    ∃ h : s.rank r < s.survivors.length, s.survivors[s.rank r] = r := by
  obtain ⟨k, hk, heq⟩ := List.getElem_of_mem (mem_survivors.mpr hr)
  have hrank : s.rank r = k := by
    rw [rank, ← heq]
    exact length_filter_lt_getElem s.pairwise_survivors k hk
  exact ⟨by omega, by simpa only [hrank] using heq⟩

theorem rank_lt_length {r : Nat} (hr : s.IsRoot r) : s.rank r < s.survivors.length :=
  (exists_survivors_getElem hr).1

/-- Ranks keep the order of roots. The other index need not be a root. -/
theorem rank_lt_rank_iff {r n : Nat} (hr : s.IsRoot r) : s.rank r < s.rank n ↔ r < n := by
  have hmono : ∀ {a b : Nat}, a ≤ b → s.rank a ≤ s.rank b := fun hab =>
    (List.monotone_filter_right s.survivors fun i hi => by
      simp only [decide_eq_true_eq] at hi ⊢
      omega).length_le
  constructor
  · intro h
    by_contra hle
    exact absurd (hmono (Nat.not_lt.mp hle)) (Nat.not_le.mpr h)
  · intro h
    have hsubset : r :: s.survivors.filter (· < r) ⊆ s.survivors.filter (· < n) := by
      intro i hi
      rw [List.mem_filter, decide_eq_true_eq]
      rcases List.mem_cons.mp hi with rfl | hi
      · exact ⟨mem_survivors.mpr hr, h⟩
      · rw [List.mem_filter, decide_eq_true_eq] at hi
        exact ⟨hi.1, hi.2.trans h⟩
    have hnodup : (r :: s.survivors.filter (· < r)).Nodup := by
      refine List.nodup_cons.mpr ⟨by simp, ?_⟩
      exact (s.pairwise_survivors.imp fun hlt => hlt.ne).filter _
    exact hnodup.length_le_of_subset hsubset

/-- Roots with one rank are one root. -/
theorem eq_of_rank_eq {a b : Nat} (ha : s.IsRoot a) (hb : s.IsRoot b) (h : s.rank a = s.rank b) :
    a = b := by
  have hab := (rank_lt_rank_iff ha (n := b)).mpr
  have hba := (rank_lt_rank_iff hb (n := a)).mpr
  omega

/-- Every number below the number of roots is the rank of one. -/
theorem exists_rank_eq {k : Nat} (hk : k < s.survivors.length) : ∃ r, s.IsRoot r ∧ s.rank r = k :=
  ⟨s.survivors[k], mem_survivors.mp (List.getElem_mem hk),
    length_filter_lt_getElem s.pairwise_survivors k hk⟩

/-- Without links every index survives. -/
theorem survivors_of_pending (h : s.pending = .empty) : s.survivors = List.range s.size := by
  rw [survivors, h]
  exact List.filter_eq_self.mpr fun _ _ => rfl

/-- Without links the rank of an index is the index. -/
theorem rank_of_pending (h : s.pending = .empty) {i : Nat} (hi : i < s.size) : s.rank i = i := by
  have hsurvivors := survivors_of_pending h
  have hk : i < s.survivors.length := by simpa [hsurvivors] using hi
  have hget : s.survivors[i] = i := by simp [hsurvivors]
  simpa only [rank, hget] using length_filter_lt_getElem s.pairwise_survivors i hk

/-- A renumbering answers for old indices only. -/
theorem get?_remap (i : Nat) :
    s.remap.get? i = if i < s.size then (s.root? i).map s.rank else none := by
  unfold Remap.get? remap
  rw [List.getElem?_map]
  split
  · next hi =>
    rw [List.getElem?_range hi]
    rfl
  · next hi => simp [List.getElem?_eq_none (l := List.range s.size) (by simpa using hi)]

/-- If every name has an allocated index, nothing stops a compaction. -/
theorem exists_compact_eq_some (h : ∀ name i, s.byName.get? name = some i → i < s.size) :
    ∃ remap s', s.compact = (some remap, s') := by
  have hstray : s.stray? = none := by
    rw [stray?, Option.map_eq_none_iff, List.find?_eq_none]
    intro e he
    simpa using h e.1 e.2 (Table.get?_eq_some_iff.mpr he)
  unfold compact
  split
  · exact ⟨_, _, rfl⟩
  · rw [hstray]
    exact ⟨_, _, rfl⟩

/-- Where something is pending, a compaction is stopped by a name whose index is not allocated. -/
theorem lt_size_of_compact {remap : Remap} {s' : Symbols} (h : s.compact = (some remap, s'))
    (hpending : s.pending ≠ .empty) {name : String} {i : Nat}
    (hname : s.byName.get? name = some i) : i < s.size := by
  unfold compact at h
  rw [if_neg (mt Table.isEmpty_iff.mp hpending)] at h
  cases hstray : s.stray? with
  | some stray => simp [hstray] at h
  | none =>
    rw [stray?, Option.map_eq_none_iff, List.find?_eq_none] at hstray
    simpa using hstray _ (Table.get?_eq_some_iff.mp hname)

/-- What a compaction does: every index goes to the rank of its root, and so do the names. -/
theorem compact_eq_some {remap : Remap} {s' : Symbols} (h : s.compact = (some remap, s')) :
    (∀ i, remap.get? i = if i < s.size then (s.root? i).map s.rank else none) ∧
      s'.size = s.survivors.length ∧ s'.pending = .empty ∧
      ∀ name, s'.byName.get? name =
        (s.byName.get? name).map fun i => (remap.get? i).getD i := by
  unfold compact at h
  split at h
  · next hempty =>
    have hpending := Table.isEmpty_iff.mp hempty
    simp only [Prod.mk.injEq, Option.some.injEq] at h
    obtain ⟨rfl, rfl⟩ := h
    have hget : ∀ i, (Remap.identity s.size).get? i =
        if i < s.size then (s.root? i).map s.rank else none := by
      intro i
      have hroot : s.root? i = some i := root?_of_none (by simp [hpending])
      split
      · next hi =>
        simp [Remap.get?, Remap.identity, List.getElem?_range hi, hroot,
          rank_of_pending hpending hi]
      · next hi =>
        simp [Remap.get?, Remap.identity,
          List.getElem?_eq_none (l := List.range s.size) (by simpa using hi)]
    refine ⟨hget, ?_, hpending, fun name => ?_⟩
    · simp [survivors_of_pending hpending]
    · cases hname : s.byName.get? name with
      | none => rfl
      | some i =>
        rw [Option.map_some, hget]
        have hroot : s.root? i = some i := root?_of_none (by simp [hpending])
        split
        · next hi => simp [hroot, rank_of_pending hpending hi]
        · rfl
  · simp only at h
    split at h
    · simp only [Prod.mk.injEq, Option.some.injEq] at h
      obtain ⟨rfl, rfl⟩ := h
      exact ⟨get?_remap, rfl, rfl, fun name => Table.get?_mapValues ..⟩
    · simp at h

end Symbols

end SpinGlass

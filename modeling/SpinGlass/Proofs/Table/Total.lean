import SpinGlass.Proofs.Table.Lookup
import Mathlib.Algebra.BigOperators.Ring.List
import Mathlib.Algebra.Order.Ring.Rat
import Mathlib.Tactic.Linarith
import Mathlib.Tactic.Ring

/-!
# Totals over tables

An energy is a sum over the entries of a table. This file says how such a sum changes when one
entry is altered, erased or renamed, so that no later argument opens a table again.
-/

namespace SpinGlass.Table

variable {α β γ : Type} [Ord α]

/-- The sum of `f` over the entries of a table. -/
def total (t : Table α β) (f : α → β → ℚ) : ℚ := (t.entries.map fun e => f e.1 e.2).sum

@[simp] theorem total_empty (f : α → β → ℚ) : (empty : Table α β).total f = 0 := rfl

/-- Mapping the values of a table changes the summand. -/
theorem total_mapValues (t : Table α β) (g : β → γ) (f : α → γ → ℚ) :
    (t.mapValues g).total f = t.total fun a b => f a (g b) := by
  simp [total, mapValues, Function.comp_def]

/-- A common factor can be taken out of a total. -/
theorem total_mul_left (t : Table α β) (c : ℚ) (f : α → β → ℚ) :
    (t.total fun a b => c * f a b) = c * t.total f :=
  List.sum_map_mul_left _ _ _

/-- A total of sums is the sum of the totals. -/
theorem total_add (t : Table α β) (f g : α → β → ℚ) :
    (t.total fun a b => f a b + g a b) = t.total f + t.total g :=
  List.sum_map_add

/-- What a filter drops and what it keeps make up the whole total. -/
theorem total_filter_add_total_filter_not (t : Table α β) (p : α → β → Bool) (f : α → β → ℚ) :
    (t.filter p).total f + (t.filter fun a b => !p a b).total f = t.total f := by
  have h : ∀ entries : List (α × β),
      ((entries.filter fun e => p e.1 e.2).map fun e => f e.1 e.2).sum +
        ((entries.filter fun e => !p e.1 e.2).map fun e => f e.1 e.2).sum =
        (entries.map fun e => f e.1 e.2).sum := by
    intro entries
    induction entries with
    | nil => simp
    | cons e rest ih =>
      cases hp : p e.1 e.2 <;> simp [hp, ← ih] <;> ring
  exact h t.entries

variable [Std.LawfulEqOrd α]

/-- Summands that agree on what is stored have the same total. -/
theorem total_congr {t : Table α β} {f g : α → β → ℚ}
    (h : ∀ a b, t.get? a = some b → f a b = g a b) : t.total f = t.total g := by
  unfold total
  congr 1
  exact List.map_congr_left fun e he => h e.1 e.2 (get?_eq_some_iff.mpr he)

/-- A total of zeros is zero. -/
theorem total_eq_zero {t : Table α β} {f : α → β → ℚ}
    (h : ∀ a b, t.get? a = some b → f a b = 0) : t.total f = 0 := by
  rw [total_congr (g := fun _ _ => 0) h]
  simp [total]

/-- A filter that drops zeros only keeps the total. -/
theorem total_filter {t : Table α β} {p : α → β → Bool} {f : α → β → ℚ}
    (h : ∀ a b, t.get? a = some b → p a b = false → f a b = 0) :
    (t.filter p).total f = t.total f := by
  rw [← total_filter_add_total_filter_not t p f, left_eq_add]
  refine total_eq_zero fun a b hget => ?_
  rw [get?_filter, Option.filter_eq_some_iff] at hget
  exact h a b hget.1 (by simpa using hget.2)

variable [Std.TransOrd α]

/-- An altered entry changes the total by the difference of its summands. -/
theorem total_alter (t : Table α β) (key : α) (g : Option β → β) (f : α → β → ℚ) :
    (t.alter key g).total f =
      t.total f - (t.get? key).elim 0 (f key) + f key (g (t.get? key)) := by
  have h : ∀ entries : List (α × β), entries.Pairwise (fun x y => compare x.1 y.1 = .lt) →
      ((alterEntries key g entries).map fun e => f e.1 e.2).sum =
        (entries.map fun e => f e.1 e.2).sum -
          ((entries.find? fun e => compare key e.1 == .eq).map (·.2)).elim 0 (f key) +
          f key (g ((entries.find? fun e => compare key e.1 == .eq).map (·.2))) := by
    intro entries hsorted
    induction entries with
    | nil => simp [alterEntries]
    | cons e rest ih =>
      obtain ⟨a, b⟩ := e
      unfold alterEntries
      split
      · next hlt =>
        have hnone : rest.find? (fun e => compare key e.1 == .eq) = none := by
          refine List.find?_eq_none.mpr fun x hx => ?_
          rw [Std.TransCmp.lt_trans hlt (List.rel_of_pairwise_cons hsorted hx)]
          decide
        simp [hlt, hnone]
        ring
      · next heq =>
        obtain rfl := Std.LawfulEqCmp.eq_of_compare heq
        simp
        ring
      · next hgt =>
        have hne : (compare key a == Ordering.eq) = false := by simp [hgt]
        simp only [List.map_cons, List.sum_cons, ih hsorted.of_cons, List.find?_cons, hne]
        ring
  exact h t.entries t.sorted

/-- An inserted entry takes the place of what was there. -/
theorem total_insert (t : Table α β) (key : α) (b : β) (f : α → β → ℚ) :
    (t.insert key b).total f = t.total f - (t.get? key).elim 0 (f key) + f key b :=
  total_alter t key _ f

variable [DecidableEq α]

/-- An erased entry is missing from the total. -/
theorem total_erase (t : Table α β) (key : α) (f : α → β → ℚ) :
    (t.erase key).total f = t.total f - (t.get? key).elim 0 (f key) := by
  have hsplit := total_filter_add_total_filter_not t (fun k _ => compare key k != .eq) f
  have hsingle : (t.filter fun k _ => !(compare key k != .eq)).total f =
      (t.get? key).elim 0 (f key) := by
    cases hget : t.get? key with
    | none =>
      refine total_eq_zero fun a b h => ?_
      rw [get?_filter, Option.filter_eq_some_iff] at h
      obtain ⟨ha, hkey⟩ := h
      have hkey : key = a := by simpa using hkey
      rw [hkey, ha] at hget
      cases hget
    | some b =>
      have hentries : (t.filter fun k _ => !(compare key k != .eq)) = insert empty key b := by
        refine ext_get? fun other => ?_
        rw [get?_filter, get?_insert]
        by_cases h : other = key
        · simp [h, hget]
        · have hne : compare key other ≠ .eq := by
            rw [ne_eq, Std.LawfulEqCmp.compare_eq_iff_eq]
            exact Ne.symm h
          cases t.get? other <;> simp [h, hne]
      rw [hentries, total_insert]
      simp
  rw [hsingle] at hsplit
  unfold erase
  linarith

/-- Where only one key counts, the total is the summand of its entry. -/
theorem total_eq_elim {t : Table α β} (key : α) {f : α → β → ℚ}
    (h : ∀ a b, t.get? a = some b → a ≠ key → f a b = 0) :
    t.total f = (t.get? key).elim 0 (f key) := by
  have herase : (t.erase key).total f = 0 := by
    refine total_eq_zero fun a b hget => ?_
    rw [get?_erase] at hget
    split at hget
    · cases hget
    · next hne => exact h a b hget hne
  rw [total_erase] at herase
  linarith

end SpinGlass.Table

import SpinGlass.Proofs.Table.Total

/-!
# Renamed tables

A table read from a sorted list has the entries of the list. Hence a renaming of keys that keeps
their order loses no entry and lets no two of them meet.
-/

namespace SpinGlass.Table

variable {α β γ : Type} [Ord α] [Std.TransOrd α]

/-- An entry beyond all others is stored at the end. -/
theorem alterEntries_of_forall_lt {key : α} {f : Option β → β} {entries : List (α × β)}
    (h : ∀ e ∈ entries, compare e.1 key = .lt) :
    alterEntries key f entries = entries ++ [(key, f none)] := by
  induction entries with
  | nil => rfl
  | cons e rest ih =>
    obtain ⟨a, b⟩ := e
    have hgt : compare key a = .gt := Std.OrientedCmp.gt_of_lt (h (a, b) List.mem_cons_self)
    simp only [alterEntries, hgt, List.cons_append]
    rw [ih fun e he => h e (List.mem_cons_of_mem _ he)]

/-- A table of a sorted list has the entries of the list. -/
theorem entries_ofList {entries : List (α × β)}
    (h : entries.Pairwise fun x y => compare x.1 y.1 = .lt) :
    (ofList entries).entries = entries := by
  have hfold : ∀ (rest : List (α × β)) (t : Table α β),
      (t.entries ++ rest).Pairwise (fun x y => compare x.1 y.1 = .lt) →
      (rest.foldl (fun t e => t.insert e.1 e.2) t).entries = t.entries ++ rest := by
    intro rest
    induction rest with
    | nil => simp
    | cons e rest ih =>
      intro t hsorted
      have hlt : ∀ x ∈ t.entries, compare x.1 e.1 = .lt := fun x hx =>
        (List.pairwise_append.mp hsorted).2.2 x hx e List.mem_cons_self
      have hinsert : (t.insert e.1 e.2).entries = t.entries ++ [e] := alterEntries_of_forall_lt hlt
      rw [List.foldl_cons, ih _ (by simpa [hinsert] using hsorted), hinsert]
      simp
  exact (hfold entries empty h).trans (List.nil_append _)

/-- Renaming keys in order renames the entries one by one. -/
theorem entries_ofList_filterMap {t : Table α β} {f : α × β → Option (α × γ)} {g : α → α}
    {u : α × β → γ} (hf : ∀ e ∈ t.entries, f e = some (g e.1, u e))
    (hmono : ∀ x ∈ t.entries, ∀ y ∈ t.entries, compare x.1 y.1 = .lt →
      compare (g x.1) (g y.1) = .lt) :
    (ofList (t.entries.filterMap f)).entries = t.entries.map fun e => (g e.1, u e) := by
  have hmap : t.entries.filterMap f = t.entries.map fun e => (g e.1, u e) := by
    rw [← List.filterMap_eq_map']
    exact List.filterMap_congr fun e he => by simp [hf e he]
  rw [hmap]
  apply entries_ofList
  rw [List.pairwise_map]
  exact t.sorted.imp_of_mem fun hx hy hlt => hmono _ hx _ hy hlt

variable [Std.LawfulEqOrd α]

section

variable {t : Table α β} {f : α → Option α} {g : α → α}
  (hf : ∀ a b, t.get? a = some b → f a = some (g a))
  (hmono : ∀ a a' b b', t.get? a = some b → t.get? a' = some b' → compare a a' = .lt →
    compare (g a) (g a') = .lt)

include hf hmono

/-- Renaming keys in order renames the entries one by one. -/
theorem entries_filterMapKeys :
    (t.filterMapKeys f).entries = t.entries.map fun e => (g e.1, e.2) := by
  refine entries_ofList_filterMap (u := Prod.snd) (fun e he => ?_) (fun x hx y hy hlt => ?_)
  · simp [hf e.1 e.2 (get?_eq_some_iff.mpr he)]
  · exact hmono _ _ _ _ (get?_eq_some_iff.mpr hx) (get?_eq_some_iff.mpr hy) hlt

/-- What is stored after a renaming was stored under the old key. -/
theorem get?_filterMapKeys {key : α} {b : β} :
    (t.filterMapKeys f).get? key = some b ↔ ∃ a, t.get? a = some b ∧ g a = key := by
  rw [get?_eq_some_iff, entries_filterMapKeys hf hmono]
  simp [get?_eq_some_iff]

/-- A renaming of keys renames the keys in the summand. -/
theorem total_filterMapKeys (h : α → β → ℚ) :
    (t.filterMapKeys f).total h = t.total fun a b => h (g a) b := by
  simp [total, entries_filterMapKeys hf hmono, Function.comp_def]

end

/-- A renaming of keys that keeps every entry changes nothing. -/
theorem ofList_filterMap_eq_self {t : Table α β} {f : α × β → Option (α × β)}
    (h : ∀ e ∈ t.entries, f e = some e) : ofList (t.entries.filterMap f) = t := by
  have hentries := entries_ofList_filterMap (g := id) (u := Prod.snd) h fun _ _ _ _ hlt => hlt
  refine ext_get? fun key => Option.ext fun b => ?_
  rw [get?_eq_some_iff, get?_eq_some_iff, hentries]
  simp

end SpinGlass.Table

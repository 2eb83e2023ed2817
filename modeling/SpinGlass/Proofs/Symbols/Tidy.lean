import SpinGlass.Proofs.Symbols.Compaction
import SpinGlass.Proofs.Symbols.Intern

/-!
# Tables in order

A table changes in four ways: it gets a new name, two roots are merged, a root is retired with its
names, or all is renumbered. None of them leaves a name without a root or a root without a name, so
that a renumbered table has a name for each of its indices.
-/

namespace SpinGlass.Symbols

/-- A table in order: links lead downwards, every name leads to a root, and every root has a
name. -/
structure Tidy (s : Symbols) : Prop where
  links : s.LinksDown
  lt_size : ∀ name i, s.byName.get? name = some i → i < s.size
  live : ∀ name i, s.byName.get? name = some i → ∃ r, s.root? i = some r
  named : ∀ r, s.IsRoot r → ∃ name, s.lookup? name = some r

/-- The table with a new name for the next index. -/
def grow (s : Symbols) (name : String) (next : Nat) : Symbols :=
  { s with byName := s.byName.insert name s.size, size := s.size + 1, nextInternal := next }

/-- The table without a root and its names. -/
def dropRoot (s : Symbols) (root : Nat) : Symbols :=
  { s.link root .retired with
    byName := s.byName.filter fun name _ => !(s.namesOf root).contains name }

theorem tidy_empty : Symbols.empty.Tidy where
  links := linksDown_of_pending rfl
  lt_size name i hi := by simp [Symbols.empty] at hi
  live name i hi := by simp [Symbols.empty] at hi
  named r hr := absurd hr.1 (Nat.not_lt_zero _)

section Changes

variable {s : Symbols} {name : String} {i r : Nat}

/-- What a name leads to is a root. -/
theorem Tidy.isRoot (h : s.Tidy) (hi : s.lookup? name = some r) : s.IsRoot r := by
  obtain ⟨i, hname, hroot⟩ := Option.bind_eq_some_iff.mp hi
  exact h.links.isRoot_root? (h.lt_size name i hname) hroot

theorem intern_eq_grow (hname : s.lookup? name = none) :
    (s.intern name).2 = s.grow name s.nextInternal := by
  rw [intern_of_lookup?_eq_none hname]
  rfl

/-- A generated name is a new one for the next index, and the counter goes past its number. -/
theorem fresh_eq (s : Symbols) (stem : String) :
    s.fresh stem = ((internalName stem (s.nextNumber stem), s.size),
      s.grow (internalName stem (s.nextNumber stem)) (s.nextNumber stem + 1)) := by
  unfold fresh
  dsimp only
  rw [← nextNumber, intern_of_lookup?_eq_none (s.lookup?_nextNumber stem _)]
  rfl

/-- A generated name is new. -/
theorem exists_fresh_eq_grow (s : Symbols) (stem : String) :
    ∃ name next, s.lookup? name = none ∧ (s.fresh stem).2 = s.grow name next :=
  ⟨_, _, s.lookup?_nextNumber stem s.nextInternal, by rw [fresh_eq]⟩

/-- A new name changes no links. -/
theorem root?_grow (name : String) (next i : Nat) : (s.grow name next).root? i = s.root? i := by
  apply root?_congr
  rfl

/-- A new name leads where the new index leads, and the others lead where they led. -/
theorem lookup?_grow (name : String) (next : Nat) (other : String) :
    (s.grow name next).lookup? other = if other = name then s.root? s.size else s.lookup? other := by
  unfold lookup?
  rw [show (s.grow name next).byName = s.byName.insert name s.size from rfl, Table.get?_insert,
    funext (root?_grow name next)]
  split <;> rfl

/-- A new name leads to the new index, and the others lead where they led. -/
theorem Tidy.lookup?_grow (h : s.Tidy) (name : String) (next : Nat) (other : String) :
    (s.grow name next).lookup? other = if other = name then some s.size else s.lookup? other := by
  rw [Symbols.lookup?_grow, h.links.root?_of_size_le le_rfl]

/-- A new name keeps a table in order. -/
theorem Tidy.grow (h : s.Tidy) (hname : s.lookup? name = none) (next : Nat) :
    (s.grow name next).Tidy := by
  have hget : ∀ other, (s.grow name next).byName.get? other =
      if other = name then some s.size else s.byName.get? other := fun _ => Table.get?_insert ..
  refine ⟨⟨fun i rebind hi => Nat.lt_succ_of_lt (h.links.lt_size i rebind hi),
    h.links.target_lt⟩, fun other i hi => ?_, fun other i hi => ?_, fun r hr => ?_⟩
  · rw [hget] at hi
    split at hi
    · cases hi
      exact Nat.lt_succ_self _
    · exact Nat.lt_succ_of_lt (h.lt_size other i hi)
  · rw [hget] at hi
    rw [root?_grow]
    split at hi
    · cases hi
      exact ⟨_, h.links.root?_of_size_le le_rfl⟩
    · exact h.live other i hi
  · obtain ⟨hlt, hpending⟩ := hr
    rcases Nat.lt_succ_iff_lt_or_eq.mp hlt with hlt | rfl
    · obtain ⟨other, hother⟩ := h.named r ⟨hlt, hpending⟩
      refine ⟨other, ?_⟩
      rw [h.lookup?_grow, if_neg, hother]
      rintro rfl
      rw [hname] at hother
      cases hother
    · refine ⟨name, ?_⟩
      rw [h.lookup?_grow, if_pos rfl]

/-- After a merge, what led to `drop` leads to `keep`. -/
theorem Downward.lookup?_merged (h : s.Downward) {keep drop : Nat}
    (hkeep : s.pending.get? keep = none) (hdrop : s.pending.get? drop = none) (hlt : keep < drop)
    (name : String) :
    (s.link drop (.merged keep)).lookup? name =
      (s.lookup? name).map fun r => if r = drop then keep else r := by
  unfold lookup?
  rw [show (s.link drop (.merged keep)).byName = s.byName from rfl,
    funext (h.root?_merged hkeep hdrop hlt), Option.map_bind]
  rfl

theorem Tidy.lookup?_merged (h : s.Tidy) {keep drop : Nat} (hkeep : s.IsRoot keep)
    (hdrop : s.IsRoot drop) (hlt : keep < drop) (name : String) :
    (s.link drop (.merged keep)).lookup? name =
      (s.lookup? name).map fun r => if r = drop then keep else r :=
  h.links.downward.lookup?_merged hkeep.2 hdrop.2 hlt name

/-- A merge keeps a table in order: the names of both roots lead to the lower one. -/
theorem Tidy.merged (h : s.Tidy) {keep drop : Nat} (hkeep : s.IsRoot keep)
    (hdrop : s.IsRoot drop) (hlt : keep < drop) : (s.link drop (.merged keep)).Tidy := by
  refine ⟨h.links.link hdrop.1 fun target htarget => ?_, h.lt_size, fun name i hi => ?_,
    fun r hr => ?_⟩
  · cases htarget
    exact hlt
  · obtain ⟨r, hr⟩ := h.live name i hi
    rw [h.links.root?_merged hkeep hdrop hlt, hr]
    exact ⟨_, rfl⟩
  · obtain ⟨hr, hne⟩ := isRoot_link.mp hr
    obtain ⟨name, hname⟩ := h.named r hr
    refine ⟨name, ?_⟩
    rw [h.lookup?_merged hkeep hdrop hlt, hname, Option.map_some, if_neg hne]

/-- The names of a dropped root are stored no more. -/
theorem get?_dropRoot (r : Nat) (name : String) : (s.dropRoot r).byName.get? name =
    if s.lookup? name = some r then none else s.byName.get? name := by
  unfold dropRoot
  simp only [Table.get?_filter, ← mem_namesOf]
  by_cases hmem : name ∈ s.namesOf r
  · cases s.byName.get? name <;> simp [hmem]
  · cases s.byName.get? name <;> simp [hmem]

/-- What led to a dropped root leads nowhere. -/
theorem Downward.root?_dropRoot (h : s.Downward) (hr : s.pending.get? r = none) (i : Nat) :
    (s.dropRoot r).root? i = (s.root? i).bind fun k => if k = r then none else some k := by
  have hlink : ∀ i, (s.dropRoot r).root? i = (s.link r .retired).root? i := root?_congr rfl
  rw [hlink, h.root?_retired hr]

theorem Tidy.root?_dropRoot (h : s.Tidy) (hr : s.IsRoot r) (i : Nat) :
    (s.dropRoot r).root? i = (s.root? i).bind fun k => if k = r then none else some k :=
  h.links.downward.root?_dropRoot hr.2 i

/-- The names of a dropped root lead nowhere, and the others lead where they led. -/
theorem Downward.lookup?_dropRoot (h : s.Downward) (hr : s.pending.get? r = none)
    (name : String) :
    (s.dropRoot r).lookup? name = if s.lookup? name = some r then none else s.lookup? name := by
  have hroot : ∀ i, (s.dropRoot r).root? i = (s.root? i).bind fun k =>
      if k = r then none else some k := h.root?_dropRoot hr
  rw [show (s.dropRoot r).lookup? name =
    ((s.dropRoot r).byName.get? name).bind (s.dropRoot r).root? from rfl, get?_dropRoot]
  by_cases hname : s.lookup? name = some r
  · rw [if_pos hname, if_pos hname]
    rfl
  · rw [if_neg hname, if_neg hname]
    unfold lookup? at hname ⊢
    cases hget : s.byName.get? name with
    | none => rfl
    | some i =>
      rw [hget, Option.bind_some] at hname
      rw [Option.bind_some, Option.bind_some, hroot]
      cases hi : s.root? i with
      | none => rfl
      | some k => exact if_neg fun heq => hname (hi.trans (congrArg some heq))

theorem Tidy.lookup?_dropRoot (h : s.Tidy) (hr : s.IsRoot r) (name : String) :
    (s.dropRoot r).lookup? name = if s.lookup? name = some r then none else s.lookup? name :=
  h.links.downward.lookup?_dropRoot hr.2 name

/-- A retirement keeps a table in order: the root goes with all its names. -/
theorem Tidy.dropRoot (h : s.Tidy) (hr : s.IsRoot r) : (s.dropRoot r).Tidy := by
  have hlinks : (s.link r .retired).LinksDown := h.links.link hr.1 fun target htarget => by
    cases htarget
  have hstored : ∀ name i, (s.dropRoot r).byName.get? name = some i →
      s.lookup? name ≠ some r ∧ s.byName.get? name = some i := by
    intro name i hi
    rw [get?_dropRoot] at hi
    split at hi
    · cases hi
    · next hne => exact ⟨hne, hi⟩
  refine ⟨⟨hlinks.lt_size, hlinks.target_lt⟩,
    fun name i hi => h.lt_size name i (hstored name i hi).2, fun name i hi => ?_, fun k hk => ?_⟩
  · obtain ⟨hne, hi⟩ := hstored name i hi
    obtain ⟨root, hi'⟩ := h.live name i hi
    unfold lookup? at hne
    rw [hi, Option.bind_some, hi', Ne, Option.some.injEq] at hne
    refine ⟨root, ?_⟩
    rw [h.root?_dropRoot hr, hi', Option.bind_some, if_neg hne]
  · have hk : (s.link r .retired).IsRoot k := hk
    obtain ⟨hk, hne⟩ := isRoot_link.mp hk
    obtain ⟨name, hname⟩ := h.named k hk
    refine ⟨name, ?_⟩
    rw [h.lookup?_dropRoot hr, hname]
    exact if_neg fun heq => hne (Option.some.inj heq)

/-- A table in order can be renumbered. The names keep their order of roots, and the table stays in
order. -/
theorem Tidy.compact (h : s.Tidy) : ∃ remap s', s.compact = (some remap, s') ∧ s'.Tidy ∧
    s'.size = s.survivors.length ∧ (∀ i, s'.root? i = some i) ∧
    (∀ i, remap.get? i = if i < s.size then (s.root? i).map s.rank else none) ∧
    ∀ name, s'.lookup? name = (s.lookup? name).map s.rank := by
  obtain ⟨remap, s', hcompact⟩ := exists_compact_eq_some h.lt_size
  obtain ⟨hremap, hsize, hpending, hnames⟩ := compact_eq_some hcompact
  have hroot : ∀ i, s'.root? i = some i := fun i => root?_of_none (by simp [hpending])
  have hstored : ∀ name, s'.byName.get? name = (s.lookup? name).map s.rank := by
    intro name
    rw [hnames]
    unfold lookup?
    cases hname : s.byName.get? name with
    | none => rfl
    | some i =>
      obtain ⟨r, hr⟩ := h.live name i hname
      rw [Option.map_some, hremap, if_pos (h.lt_size name i hname), Option.bind_some, hr]
      rfl
  have hlookup : ∀ name, s'.lookup? name = (s.lookup? name).map s.rank := by
    intro name
    rw [← hstored]
    unfold Symbols.lookup?
    cases s'.byName.get? name with
    | none => rfl
    | some i => exact hroot i
  refine ⟨remap, s', hcompact, ⟨linksDown_of_pending hpending, fun name k hk => ?_,
    fun name k _ => ⟨k, hroot k⟩, fun k hk => ?_⟩, hsize, hroot, hremap, hlookup⟩
  · rw [hstored, Option.map_eq_some_iff] at hk
    obtain ⟨r, hr, rfl⟩ := hk
    rw [hsize]
    exact rank_lt_length (h.isRoot hr)
  · obtain ⟨r, hr, rfl⟩ := exists_rank_eq (hsize ▸ hk.1)
    obtain ⟨name, hname⟩ := h.named r hr
    exact ⟨name, by rw [hlookup, hname]; rfl⟩

end Changes

end SpinGlass.Symbols

import SpinGlass.Proofs.Symbols.Runs

/-!
# Consistency of a table of symbols

Every call keeps a table in order, joins the names that it is asked to join and no others, and
retires the indices that it is asked to retire. So after any run two names have one index exactly
if they were joined, an index leads nowhere exactly if it was retired, and a renumbering gives each
class of indices one of the numbers from zero, in the order of their least members.
-/

namespace SpinGlass.Symbols

section Calls

variable {s : Symbols} {name : String} {i j r : Nat} {asked : String → String → Prop}

/-- Two indices are merged if both lead to a root: there is nothing to do if it is one root, and
the higher root is linked to the lower one if there are two. -/
theorem LinksDown.merge_cases (h : s.LinksDown) (hi : i < s.size) (hj : j < s.size) :
    ((s.root? i = none ∨ s.root? j = none) ∧ ∃ e, s.merge i j = .error e) ∨
      (∃ r, s.root? i = some r ∧ s.root? j = some r ∧ s.merge i j = .ok (r, s)) ∨
      ∃ keep drop, s.IsRoot keep ∧ s.IsRoot drop ∧ keep < drop ∧
        s.merge i j = .ok (keep, s.link drop (.merged keep)) ∧
        (s.root? i = some keep ∧ s.root? j = some drop ∨
          s.root? i = some drop ∧ s.root? j = some keep) := by
  rcases h.downward.merge_cases i j with hnone | hsame | ⟨keep, drop, _, _, hlt, hmerge, hroots⟩
  · exact .inl hnone
  · exact .inr (.inl hsame)
  · refine .inr (.inr ⟨keep, drop, ?_, ?_, hlt, hmerge, hroots⟩)
    · exact hroots.elim (fun hr => h.isRoot_root? hi hr.1) fun hr => h.isRoot_root? hj hr.2
    · exact hroots.elim (fun hr => h.isRoot_root? hj hr.2) fun hr => h.isRoot_root? hi hr.1

/-- An index is retired if it leads to a root, and the root goes with its names. -/
theorem retire_cases (s : Symbols) (i : Nat) :
    (s.root? i = none ∧ ∃ e, s.retire i = .error e) ∨
      ∃ r, s.root? i = some r ∧ s.retire i = .ok (s.namesOf r, s.dropRoot r) := by
  unfold retire rootOf
  cases s.root? i with
  | none => exact .inl ⟨rfl, _, rfl⟩
  | some r => exact .inr ⟨r, rfl, rfl⟩

/-- Two names with an index are merged, and the table is renumbered. -/
theorem Tidy.unify_eq (h : s.Tidy) {a b : String} (ha : s.lookup? a = some i)
    (hb : s.lookup? b = some j) : s.unify a b = .ok (s.call (.merge i j)).compact := by
  have hi := h.isRoot ha
  have hj := h.isRoot hb
  unfold unify call
  simp only [ha, hb]
  rcases h.links.merge_cases hi.1 hj.1 with
    ⟨hnone, _⟩ | ⟨_, _, _, hmerge⟩ | ⟨_, _, _, _, _, hmerge, _⟩
  · rw [root?_of_none hi.2, root?_of_none hj.2] at hnone
    rcases hnone with hnone | hnone <;> cases hnone
  · simp [hmerge, Bind.bind, Except.bind, Pure.pure, Except.pure]
  · simp [hmerge, Bind.bind, Except.bind, Pure.pure, Except.pure]

/-- Names are given one index only if both have one. -/
theorem exists_unify_eq_error {a b : String} (h : ¬ (s.Bound a ∧ s.Bound b)) :
    ∃ e, s.unify a b = .error e := by
  unfold unify
  cases ha : s.lookup? a with
  | none =>
    simp only [ha]
    exact ⟨_, rfl⟩
  | some i =>
    cases hb : s.lookup? b with
    | none =>
      simp only [ha, hb]
      exact ⟨_, rfl⟩
    | some j => exact absurd ⟨⟨i, ha⟩, ⟨j, hb⟩⟩ h

/-- A new name is joined to no other. -/
theorem Tidy.joinsOnly_grow (h : s.Tidy) (hname : s.lookup? name = none) (next : Nat) :
    JoinsOnly s (s.grow name next) fun _ _ => False := by
  have hold : ∀ other i, s.lookup? other = some i → (s.grow name next).lookup? other = some i := by
    intro other i hi
    rw [h.lookup?_grow, if_neg, hi]
    rintro rfl
    rw [hname] at hi
    cases hi
  refine ⟨fun a b ⟨i, ha, hb⟩ _ => ⟨i, hold a i ha, hold b i hb⟩, fun _ _ hfalse => hfalse.elim,
    fun a b ⟨i, ha, hb⟩ => ?_⟩
  rw [h.lookup?_grow] at ha hb
  -- the new index is none of the old ones
  have hne : ∀ other, s.lookup? other ≠ some s.size := fun other hother =>
    absurd (h.isRoot hother).1 (lt_irrefl _)
  split at ha <;> split at hb
  · next ha' hb' => exact .inl (ha'.trans hb'.symm)
  · cases ha
    exact absurd hb (hne b)
  · cases hb
    exact absurd ha (hne a)
  · exact .inr (.inl ⟨i, ha, hb⟩)

/-- A merge joins the names of both roots, if it was asked to join some name of one to some name of
the other. -/
theorem Tidy.joinsOnly_merged (h : s.Tidy) {keep drop : Nat} (hkeep : s.IsRoot keep)
    (hdrop : s.IsRoot drop) (hlt : keep < drop)
    (hasked : ∀ a b, asked a b → s.lookup? a = some keep ∧ s.lookup? b = some drop ∨
      s.lookup? a = some drop ∧ s.lookup? b = some keep)
    (hsome : ∃ a b, asked a b) :
    JoinsOnly s (s.link drop (.merged keep)) asked := by
  have hlookup := h.lookup?_merged hkeep hdrop hlt
  have hjoined : ∀ a b, s.lookup? a = some keep → s.lookup? b = some drop →
      (s.link drop (.merged keep)).lookup? a = some keep ∧
        (s.link drop (.merged keep)).lookup? b = some keep := by
    intro a b ha hb
    rw [hlookup, hlookup, ha, hb, Option.map_some, Option.map_some, if_neg hlt.ne, if_pos rfl]
    exact ⟨rfl, rfl⟩
  refine ⟨fun a b ⟨i, ha, hb⟩ _ => ?_, fun a b hab _ _ => ?_, fun a b ⟨i, ha, hb⟩ => ?_⟩
  · refine ⟨if i = drop then keep else i, ?_, ?_⟩
    · rw [hlookup, ha, Option.map_some]
    · rw [hlookup, hb, Option.map_some]
  · rcases hasked a b hab with ⟨ha, hb⟩ | ⟨ha, hb⟩
    · exact ⟨keep, hjoined a b ha hb⟩
    · exact ⟨keep, (hjoined b a hb ha).symm⟩
  · rw [hlookup, Option.map_eq_some_iff] at ha hb
    obtain ⟨ra, ha, hra⟩ := ha
    obtain ⟨rb, hb, hrb⟩ := hb
    obtain ⟨c, d, hcd, hc, hd⟩ : ∃ c d, (asked c d ∨ asked d c) ∧ s.lookup? c = some keep ∧
        s.lookup? d = some drop := by
      obtain ⟨c, d, hcd⟩ := hsome
      rcases hasked c d hcd with ⟨hc, hd⟩ | ⟨hd, hc⟩
      · exact ⟨c, d, .inl hcd, hc, hd⟩
      · exact ⟨d, c, .inr hcd, hc, hd⟩
    -- names that are joined have one root, or one has the lower root and one has the higher
    split at hra <;> split at hrb
    · next ha' hb' =>
      subst ha' hb'
      exact .inr (.inl ⟨_, ha, hb⟩)
    · next ha' _ =>
      subst ha' hra hrb
      exact .inr (.inr ⟨d, c, hcd.symm, ⟨_, ha, hd⟩, ⟨_, hc, hb⟩⟩)
    · next _ hb' =>
      subst hb' hrb hra
      exact .inr (.inr ⟨c, d, hcd, ⟨_, ha, hc⟩, ⟨_, hd, hb⟩⟩)
    · subst hra hrb
      exact .inr (.inl ⟨_, ha, hb⟩)

/-- A retirement joins no names. -/
theorem Tidy.joinsOnly_dropRoot (h : s.Tidy) (hr : s.IsRoot r) :
    JoinsOnly s (s.dropRoot r) fun _ _ => False := by
  have hlookup := h.lookup?_dropRoot hr
  refine ⟨fun a b ⟨i, ha, hb⟩ ⟨k, hk⟩ => ?_, fun _ _ hfalse => hfalse.elim,
    fun a b ⟨i, ha, hb⟩ => ?_⟩
  · rw [hlookup, ha] at hk
    split at hk
    · cases hk
    · next hne => exact ⟨i, by rw [hlookup, ha, if_neg hne], by rw [hlookup, hb, if_neg hne]⟩
  · rw [hlookup] at ha hb
    split at ha
    · cases ha
    · split at hb
      · cases hb
      · exact .inr (.inl ⟨i, ha, hb⟩)

/-- A renumbering leaves alike what was alike, and nothing else. -/
theorem Tidy.alike_compact (h : s.Tidy) (a b : String) :
    s.compact.2.Alike a b ↔ s.Alike a b := by
  obtain ⟨remap, s', hcompact, _, _, _, _, hlookup⟩ := h.compact
  rw [hcompact]
  constructor
  · rintro ⟨k, ha, hb⟩
    rw [hlookup, Option.map_eq_some_iff] at ha hb
    obtain ⟨ra, ha, rfl⟩ := ha
    obtain ⟨rb, hb, heq⟩ := hb
    exact ⟨ra, ha, hb.trans (congrArg some (eq_of_rank_eq (h.isRoot hb) (h.isRoot ha) heq))⟩
  · rintro ⟨i, ha, hb⟩
    exact ⟨s.rank i, by rw [hlookup, ha]; rfl, by rw [hlookup, hb]; rfl⟩

/-- After a renumbering no index is retired. -/
theorem Tidy.root?_compact (h : s.Tidy) (i : Nat) : s.compact.2.root? i = some i := by
  obtain ⟨remap, s', hcompact, _, _, hroot, _⟩ := h.compact
  rw [hcompact]
  exact hroot i

theorem Tidy.compact_snd (h : s.Tidy) : s.compact.2.Tidy := by
  obtain ⟨remap, s', hcompact, htidy, _⟩ := h.compact
  rw [hcompact]
  exact htidy

end Calls

section Performed

variable {s : Symbols}

/-- A call does what it is asked to do: the table stays in order, the names that the call asks to
join have one index and no others are joined, and the indices that lead nowhere are those that the
history records as retired. -/
structure Performs (s : Symbols) (c : SymbolCall) : Prop where
  tidy : (s.call c).Tidy
  joins : JoinsOnly s (s.call c) (s.Asks c)
  retires : ∀ h : History, (∀ i, h.retired i ↔ s.root? i = none) →
    ∀ i, (h.record s c).retired i ↔ (s.call c).root? i = none

theorem Tidy.performs_intern (h : s.Tidy) (name : String) : s.Performs (.intern name) := by
  cases hname : s.lookup? name with
  | some r =>
    have hcall : s.call (.intern name) = s := by
      simp only [call, intern, hname]
    refine ⟨?_, ?_, fun hist hretired => ?_⟩ <;> rw [hcall]
    · exact h
    · exact joinsOnly_self fun _ _ hfalse => hfalse.elim
    · exact hretired
  | none =>
    have hcall : s.call (.intern name) = s.grow name s.nextInternal := intern_eq_grow hname
    refine ⟨?_, ?_, fun hist hretired i => ?_⟩ <;> rw [hcall]
    · exact h.grow hname s.nextInternal
    · exact h.joinsOnly_grow hname s.nextInternal
    · rw [root?_grow]
      exact hretired i

theorem Tidy.performs_fresh (h : s.Tidy) (stem : String) : s.Performs (.fresh stem) := by
  obtain ⟨name, next, hname, hfresh⟩ := s.exists_fresh_eq_grow stem
  have hcall : s.call (.fresh stem) = s.grow name next := hfresh
  refine ⟨?_, ?_, fun hist hretired i => ?_⟩ <;> rw [hcall]
  · exact h.grow hname next
  · exact h.joinsOnly_grow hname next
  · rw [root?_grow]
    exact hretired i

/-- A merge of allocated indices joins the names that are to be joined, if they are names of the
two indices and there are some, and it retires no index. -/
theorem Tidy.merged_call (h : s.Tidy) {i j : Nat} (hi : i < s.size) (hj : j < s.size)
    (asked : String → String → Prop)
    (hasked : ∀ a b, asked a b → s.lookup? a = s.root? i ∧ s.lookup? b = s.root? j)
    (hsome : ∀ keep drop, s.root? i = some keep → s.root? j = some drop → ∃ a b, asked a b) :
    (s.call (.merge i j)).Tidy ∧ JoinsOnly s (s.call (.merge i j)) asked ∧
      ∀ k, (s.call (.merge i j)).root? k = none ↔ s.root? k = none := by
  rcases h.links.merge_cases hi hj with
    ⟨hnone, e, hmerge⟩ | ⟨r, hri, hrj, hmerge⟩ | ⟨keep, drop, hkeep, hdrop, hlt, hmerge, hroots⟩
  · have hcall : s.call (.merge i j) = s := by simp only [call, hmerge]
    rw [hcall]
    refine ⟨h, joinsOnly_self fun a b hab ⟨ra, ha⟩ ⟨rb, hb⟩ => ?_, fun _ => Iff.rfl⟩
    obtain ⟨hai, hbj⟩ := hasked a b hab
    rw [← hai, ← hbj, ha, hb] at hnone
    rcases hnone with hnone | hnone <;> cases hnone
  · have hcall : s.call (.merge i j) = s := by simp only [call, hmerge]
    rw [hcall]
    refine ⟨h, joinsOnly_self fun a b hab _ _ => ?_, fun _ => Iff.rfl⟩
    obtain ⟨hai, hbj⟩ := hasked a b hab
    exact ⟨r, hai.trans hri, hbj.trans hrj⟩
  · have hcall : s.call (.merge i j) = s.link drop (.merged keep) := by simp only [call, hmerge]
    rw [hcall]
    refine ⟨h.merged hkeep hdrop hlt, h.joinsOnly_merged hkeep hdrop hlt (fun a b hab => ?_) ?_,
      fun k => ?_⟩
    · obtain ⟨hai, hbj⟩ := hasked a b hab
      rwa [← hai, ← hbj] at hroots
    · rcases hroots with ⟨hri, hrj⟩ | ⟨hri, hrj⟩ <;> exact hsome _ _ hri hrj
    · rw [h.links.root?_merged hkeep hdrop hlt, Option.map_eq_none_iff]

theorem Tidy.performs_merge (h : s.Tidy) {i j : Nat} (hi : i < s.size) (hj : j < s.size) :
    s.Performs (.merge i j) := by
  obtain ⟨htidy, hjoins, hroot⟩ := h.merged_call hi hj (s.Asks (.merge i j))
    (fun _ _ hab => hab) fun keep drop hri hrj => by
      obtain ⟨a, ha⟩ := h.named keep (h.links.isRoot_root? hi hri)
      obtain ⟨b, hb⟩ := h.named drop (h.links.isRoot_root? hj hrj)
      exact ⟨a, b, ha.trans hri.symm, hb.trans hrj.symm⟩
  exact ⟨htidy, hjoins, fun hist hretired k => (hretired k).trans (hroot k).symm⟩

theorem Tidy.performs_retire (h : s.Tidy) {index : Nat} (hi : index < s.size) :
    s.Performs (.retire index) := by
  rcases s.retire_cases index with ⟨hnone, e, hretire⟩ | ⟨r, hr, hretire⟩
  · have hcall : s.call (.retire index) = s := by
      simp only [call, hretire]
    refine ⟨?_, ?_, fun hist hretired i => ?_⟩ <;> rw [hcall]
    · exact h
    · exact joinsOnly_self fun _ _ hfalse => hfalse.elim
    · change hist.retired i ∨ s.root? i = s.root? index ↔ s.root? i = none
      rw [hretired, hnone, or_self]
  · have hcall : s.call (.retire index) = s.dropRoot r := by
      simp only [call, hretire]
    have hroot := h.links.isRoot_root? hi hr
    refine ⟨?_, ?_, fun hist hretired i => ?_⟩ <;> rw [hcall]
    · exact h.dropRoot hroot
    · exact h.joinsOnly_dropRoot hroot
    · change hist.retired i ∨ s.root? i = s.root? index ↔ (s.dropRoot r).root? i = none
      rw [hretired, hr, h.root?_dropRoot hroot]
      cases s.root? i with
      | none => simp
      | some k => simp

theorem Tidy.performs_compact (h : s.Tidy) : s.Performs .compact := by
  refine ⟨h.compact_snd, ?_, fun hist _ i => ?_⟩
  · exact (joinsOnly_self fun _ _ hfalse => hfalse.elim).congr h.alike_compact
  · change False ↔ s.compact.2.root? i = none
    rw [h.root?_compact]
    simp

theorem Tidy.performs_unify (h : s.Tidy) (a b : String) : s.Performs (.unify a b) := by
  by_cases hbound : s.Bound a ∧ s.Bound b
  · obtain ⟨⟨i, ha⟩, j, hb⟩ := hbound
    have hi := h.isRoot ha
    have hj := h.isRoot hb
    have hcall : s.call (.unify a b) = (s.call (.merge i j)).compact.2 := by
      simp only [call, h.unify_eq ha hb]
    obtain ⟨htidy, hjoins, _⟩ := h.merged_call hi.1 hj.1 (s.Asks (.unify a b))
      (fun x y ⟨hx, hy⟩ => by
        rw [hx, hy, ha, hb, root?_of_none hi.2, root?_of_none hj.2]
        exact ⟨rfl, rfl⟩)
      fun _ _ _ _ => ⟨a, b, rfl, rfl⟩
    refine ⟨?_, ?_, fun hist hretired k => ?_⟩ <;> rw [hcall]
    · exact htidy.compact_snd
    · exact hjoins.congr htidy.alike_compact
    · change hist.retired k ∧ ¬ (s.Bound a ∧ s.Bound b) ↔ _
      rw [htidy.root?_compact]
      simp [show s.Bound a from ⟨i, ha⟩, show s.Bound b from ⟨j, hb⟩]
  · obtain ⟨e, hunify⟩ := exists_unify_eq_error hbound
    have hcall : s.call (.unify a b) = s := by
      simp only [call, hunify]
    refine ⟨?_, ?_, fun hist hretired k => ?_⟩ <;> rw [hcall]
    · exact h
    · refine joinsOnly_self fun x y ⟨hx, hy⟩ hxbound hybound => ?_
      exact absurd ⟨hx ▸ hxbound, hy ▸ hybound⟩ hbound
    · change hist.retired k ∧ ¬ (s.Bound a ∧ s.Bound b) ↔ _
      rw [hretired, and_iff_left hbound]

/-- Every allowed call does what it is asked to do. -/
theorem Tidy.performs (h : s.Tidy) {c : SymbolCall} (hallowed : s.Allows c) : s.Performs c := by
  cases c with
  | intern name => exact h.performs_intern name
  | fresh stem => exact h.performs_fresh stem
  | merge i j => exact h.performs_merge hallowed.1 hallowed.2
  | retire index => exact h.performs_retire hallowed
  | compact => exact h.performs_compact
  | unify a b => exact h.performs_unify a b

end Performed

section Reached

variable {s : Symbols} {h : History}

/-- A table and a history that agree: the names of one index are the joined ones, and the indices
that lead nowhere are the retired ones. -/
structure Recorded (s : Symbols) (h : History) : Prop where
  tidy : s.Tidy
  tracks : s.Tracks h.joined
  retired_iff : ∀ i, h.retired i ↔ s.root? i = none

theorem recorded_start : Recorded .empty .start := by
  refine ⟨tidy_empty, fun a b => ⟨fun hab => .inl ?_, ?_⟩, fun i => ?_⟩
  · induction hab with
    | rel a b hab => exact hab.elim
    | refl a => rfl
    | symm a b _ ih => exact ih.symm
    | trans a b c _ _ ihab ihbc => exact ihab.trans ihbc
  · rintro (rfl | ⟨i, ha, _⟩)
    · exact .refl a
    · simp [lookup?, Symbols.empty] at ha
  · rw [root?_of_none (by simp [Symbols.empty])]
    simp [History.start]

/-- A call keeps the table and the history in agreement. -/
theorem Recorded.call (hrec : s.Recorded h) {c : SymbolCall} (hallowed : s.Allows c) :
    (s.call c).Recorded (h.record s c) := by
  have hperforms := hrec.tidy.performs hallowed
  exact ⟨hperforms.tidy, hrec.tracks.step hperforms.joins, hperforms.retires h hrec.retired_iff⟩

/-- So does a run. -/
theorem recorded_of_reaches (hrun : Reaches s h) : s.Recorded h := by
  induction hrun with
  | start => exact recorded_start
  | call _ hallowed ih => exact ih.call hallowed

/-- What holds of a table after any run. -/
structure Consistent (s : Symbols) (h : History) : Prop where
  /-- Links lead downwards, so following them ends. -/
  target_lt : ∀ i target, s.pending.get? i = some (.merged target) → target < i
  /-- Two names have one index exactly if they were joined. -/
  lookup?_eq_iff : ∀ a b, s.Bound a → s.Bound b →
    (s.lookup? a = s.lookup? b ↔ Relation.EqvGen h.joined a b)
  /-- Every root has a name. -/
  named : ∀ r, s.IsRoot r → ∃ name, s.lookup? name = some r
  /-- The root of a class of indices is its least member. -/
  least : ∀ i < s.size, ∀ r, s.root? i = some r →
    s.IsRoot r ∧ s.root? r = some r ∧ ∀ j, s.root? j = some r → r ≤ j

/-- What a renumbering does to a table. -/
structure Renumbered (s : Symbols) (h : History) (remap : Remap) (s' : Symbols) : Prop where
  /-- The indices in use are those from zero to the size. -/
  used_iff : ∀ i, (∃ name, s'.lookup? name = some i) ↔ i < s'.size
  /-- A name goes where the renumbering sends its index. -/
  lookup?_of_some : ∀ name i, s.lookup? name = some i →
    ∃ k, remap.get? i = some k ∧ s'.lookup? name = some k
  lookup?_of_none : ∀ name, s.lookup? name = none → s'.lookup? name = none
  /-- Just the retired indices are sent nowhere. -/
  get?_eq_none_iff : ∀ i < s.size, remap.get? i = none ↔ h.retired i
  /-- An index is sent where its root is sent. -/
  get?_root : ∀ i < s.size, ∀ r, s.root? i = some r → remap.get? i = remap.get? r
  /-- Roots keep their order. -/
  lt_of_lt : ∀ a b, s.IsRoot a → s.IsRoot b → a < b →
    ∃ k l, remap.get? a = some k ∧ remap.get? b = some l ∧ k < l

theorem Recorded.consistent (hrec : s.Recorded h) : s.Consistent h := by
  have hlinks := hrec.tidy.links
  refine ⟨hlinks.target_lt, fun a b ⟨i, ha⟩ ⟨j, hb⟩ => ?_, hrec.tidy.named, fun i hi r hr => ?_⟩
  · rw [hrec.tracks a b, ha, hb]
    constructor
    · intro heq
      exact .inr ⟨i, ha, hb.trans heq.symm⟩
    · rintro (rfl | ⟨k, ha', hb'⟩)
      · exact ha.symm.trans hb
      · rw [← ha, ← hb, ha', hb']
  · have hroot := hlinks.isRoot_root? hi hr
    exact ⟨hroot, root?_of_none hroot.2, fun j hj => (hlinks.pending_root? hj).2⟩

theorem Recorded.exists_renumbered (hrec : s.Recorded h) :
    ∃ remap s', s.compact = (some remap, s') ∧ s.Renumbered h remap s' := by
  obtain ⟨remap, s', hcompact, htidy, hsize, hroot, hremap, hlookup⟩ := hrec.tidy.compact
  have hlinks := hrec.tidy.links
  have hget : ∀ i < s.size, remap.get? i = (s.root? i).map s.rank := fun i hi => by
    rw [hremap, if_pos hi]
  have hget_root : ∀ r, s.IsRoot r → remap.get? r = some (s.rank r) := fun r hr => by
    rw [hget r hr.1, root?_of_none hr.2]
    rfl
  refine ⟨remap, s', hcompact, fun i => ⟨fun ⟨name, hname⟩ => (htidy.isRoot hname).1, fun hi => ?_⟩,
    fun name i hi => ?_, fun name hname => ?_, fun i hi => ?_, fun i hi r hr => ?_,
    fun a b ha hb hlt => ?_⟩
  · rw [hsize] at hi
    obtain ⟨r, hr, rfl⟩ := exists_rank_eq hi
    obtain ⟨name, hname⟩ := hrec.tidy.named r hr
    exact ⟨name, by rw [hlookup, hname]; rfl⟩
  · exact ⟨s.rank i, hget_root i (hrec.tidy.isRoot hi), by rw [hlookup, hi]; rfl⟩
  · rw [hlookup, hname]
    rfl
  · rw [hget i hi, Option.map_eq_none_iff, hrec.retired_iff]
  · rw [hget i hi, hr, hget_root r (hlinks.isRoot_root? hi hr)]
    rfl
  · exact ⟨s.rank a, s.rank b, hget_root a ha, hget_root b hb, (rank_lt_rank_iff ha).mpr hlt⟩

/-- After any run of calls links lead downwards, two names have one index exactly if they were
joined, every root has a name, and the root of a class is its least index. A renumbering then sends
every class that is not retired to one of the numbers from zero, in order, and the names with it;
and giving two names one index is a merge and a renumbering. -/
theorem consistent_of_reaches (hrun : Reaches s h) :
    s.Consistent h ∧ (∃ remap s', s.compact = (some remap, s') ∧ s.Renumbered h remap s') ∧
      ∀ a b i j, s.lookup? a = some i → s.lookup? b = some j →
        s.Allows (.merge i j) ∧ s.unify a b = .ok (s.call (.merge i j)).compact := by
  have hrec := recorded_of_reaches hrun
  refine ⟨hrec.consistent, hrec.exists_renumbered, fun a b i j ha hb => ?_⟩
  exact ⟨⟨(hrec.tidy.isRoot ha).1, (hrec.tidy.isRoot hb).1⟩, hrec.tidy.unify_eq ha hb⟩

/-- Of three names the last is joined to the first, and the index of the second is retired. -/
theorem consistent_of_reaches_three : ∃ s h, Reaches s h ∧
    s.lookup? "A" = some 0 ∧ s.lookup? "B" = none ∧ s.lookup? "C" = some 0 ∧
    Relation.EqvGen h.joined "A" "C" ∧ h.retired 1 ∧ ¬ h.retired 2 := by
  have hnames : Reaches _ _ := .call (.call (.call .start (c := .intern "A") trivial)
    (c := .intern "B") trivial) (c := .intern "C") trivial
  have hmerged : Reaches _ _ :=
    .call hnames (c := .merge 2 0) ⟨by decide +kernel, by decide +kernel⟩
  have hrun : Reaches _ _ := .call hmerged (c := .retire 1) (by change _ < _; decide +kernel)
  obtain ⟨hconsistent, ⟨remap, s', hcompact, hrenumbered⟩, _⟩ := consistent_of_reaches hrun
  have hremap : remap = ⟨[some 0, none, some 0]⟩ :=
    Option.some.inj ((congrArg Prod.fst hcompact).symm.trans (by decide +kernel))
  subst hremap
  refine ⟨_, _, hrun, by decide +kernel, by decide +kernel, by decide +kernel, ?_, ?_, ?_⟩
  · have hiff := hconsistent.lookup?_eq_iff "A" "C" ⟨0, by decide +kernel⟩ ⟨0, by decide +kernel⟩
    exact hiff.mp (by decide +kernel)
  · exact (hrenumbered.get?_eq_none_iff 1 (by decide +kernel)).mp (by decide)
  · exact (hrenumbered.get?_eq_none_iff 2 (by decide +kernel)).not.mp (by decide)

end Reached

end SpinGlass.Symbols

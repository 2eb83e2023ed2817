import SpinGlass.Proofs.Symbols.Tidy
import Mathlib.Logic.Relation

/-!
# Runs of calls on a table of symbols

A run starts from the empty table, and each of its calls interns a name, generates one, merges or
retires allocated indices, renumbers, or gives two names one index. Beside the table runs a history:
which names were joined, and which indices were retired since the last renumbering. Each call keeps
the table in order and in agreement with the history, and so does every run.
-/

namespace SpinGlass

/-- A call on a table of symbols. -/
inductive SymbolCall where
  | intern (name : String)
  | fresh (stem : String)
  | merge (a b : Nat)
  | retire (index : Nat)
  | compact
  | unify (a b : String)

namespace Symbols

/-- The table after a call. One that fails leaves the table as it is. -/
def call (s : Symbols) : SymbolCall → Symbols
  | .intern name => (s.intern name).2
  | .fresh stem => (s.fresh stem).2
  | .merge a b =>
    match s.merge a b with
    | .ok (_, s') => s'
    | .error _ => s
  | .retire index =>
    match s.retire index with
    | .ok (_, s') => s'
    | .error _ => s
  | .compact => s.compact.2
  | .unify a b =>
    match s.unify a b with
    | .ok (_, s') => s'
    | .error _ => s

/-- Only allocated indices may be merged or retired. -/
def Allows (s : Symbols) : SymbolCall → Prop
  | .merge a b => a < s.size ∧ b < s.size
  | .retire index => index < s.size
  | _ => True

/-- A name that has an index. -/
def Bound (s : Symbols) (name : String) : Prop := ∃ i, s.lookup? name = some i

/-- Two names of one index. -/
def Alike (s : Symbols) (a b : String) : Prop := ∃ i, s.lookup? a = some i ∧ s.lookup? b = some i

/-- The names that a call asks to join: the names of two indices, or two names. -/
def Asks (s : Symbols) : SymbolCall → String → String → Prop
  | .merge i j, a, b => s.lookup? a = s.root? i ∧ s.lookup? b = s.root? j
  | .unify x y, a, b => a = x ∧ b = y
  | _, _, _ => False

/-- What has become of names and indices. -/
structure History where
  /-- The names that were joined and are still bound. -/
  joined : String → String → Prop
  /-- The indices that were retired since the last renumbering. -/
  retired : Nat → Prop

/-- The history of the empty table. -/
def History.start : History := ⟨fun _ _ => False, fun _ => False⟩

/-- The history after a call. A call that fails joins no names, since some of them are not bound. -/
def History.record (h : History) (s : Symbols) (c : SymbolCall) : History where
  joined a b := (h.joined a b ∨ s.Asks c a b) ∧ (s.call c).Bound a ∧ (s.call c).Bound b
  retired i :=
    match c with
    | .retire index => h.retired i ∨ s.root? i = s.root? index
    | .compact => False
    | .unify a b => h.retired i ∧ ¬ (s.Bound a ∧ s.Bound b)
    | _ => h.retired i

/-- The tables that runs reach, with the histories of the runs. -/
inductive Reaches : Symbols → History → Prop
  | start : Reaches .empty .start
  | call {s : Symbols} {h : History} {c : SymbolCall} (hrun : Reaches s h) (hallowed : s.Allows c) :
      Reaches (s.call c) (h.record s c)

section Joining

variable {s s' t : Symbols} {a b c : String} {asked : String → String → Prop}

theorem Alike.symm (h : s.Alike a b) : s.Alike b a := by
  obtain ⟨i, ha, hb⟩ := h
  exact ⟨i, hb, ha⟩

theorem Alike.trans (h : s.Alike a b) (h' : s.Alike b c) : s.Alike a c := by
  obtain ⟨i, ha, hb⟩ := h
  obtain ⟨j, hb', hc⟩ := h'
  rw [hb, Option.some.injEq] at hb'
  subst hb'
  exact ⟨i, ha, hc⟩

theorem Alike.bound (h : s.Alike a b) : s.Bound a := by
  obtain ⟨i, ha, _⟩ := h
  exact ⟨i, ha⟩

theorem Bound.alike (h : s.Bound a) : s.Alike a a := by
  obtain ⟨i, hi⟩ := h
  exact ⟨i, hi, hi⟩

/-- A change that joins the names it is asked to join, and no others. -/
structure JoinsOnly (s s' : Symbols) (asked : String → String → Prop) : Prop where
  kept : ∀ a b, s.Alike a b → s'.Bound a → s'.Alike a b
  joined : ∀ a b, asked a b → s'.Bound a → s'.Bound b → s'.Alike a b
  only : ∀ a b, s'.Alike a b → a = b ∨ s.Alike a b ∨
    ∃ c d, (asked c d ∨ asked d c) ∧ s.Alike a c ∧ s.Alike d b

/-- Names are alike exactly if they are joined. -/
def Tracks (s : Symbols) (joined : String → String → Prop) : Prop :=
  ∀ a b, Relation.EqvGen joined a b ↔ a = b ∨ s.Alike a b

/-- A change that joins what it is asked to join adds just that to the joined names. -/
theorem Tracks.step {joined : String → String → Prop} (h : s.Tracks joined)
    (hstep : JoinsOnly s s' asked) :
    s'.Tracks fun a b => (joined a b ∨ asked a b) ∧ s'.Bound a ∧ s'.Bound b := by
  have hold : ∀ a b, Relation.EqvGen joined a b → s'.Bound a → a = b ∨ s'.Alike a b :=
    fun a b hab ha => ((h a b).mp hab).imp id fun halike => hstep.kept a b halike ha
  -- what was joined stays joined as long as it is bound
  have hlift : ∀ a b, Relation.EqvGen joined a b → s'.Bound a →
      Relation.EqvGen (fun a b => (joined a b ∨ asked a b) ∧ s'.Bound a ∧ s'.Bound b) a b := by
    intro a b hab
    induction hab with
    | rel a b hab =>
      intro ha
      rcases hold a b (.rel a b hab) ha with rfl | halike
      · exact .refl a
      · exact .rel a b ⟨.inl hab, ha, halike.symm.bound⟩
    | refl a => exact fun _ => .refl a
    | symm a b hab ih =>
      intro hb
      rcases hold b a (.symm a b hab) hb with rfl | halike
      · exact .refl b
      · exact .symm a b (ih halike.symm.bound)
    | trans a b c hab hbc ihab ihbc =>
      intro ha
      rcases hold a b hab ha with rfl | halike
      · exact ihbc ha
      · exact .trans a b c (ihab ha) (ihbc halike.symm.bound)
  intro a b
  constructor
  · intro hab
    induction hab with
    | rel a b hab =>
      obtain ⟨hold' | hasked, ha, hb⟩ := hab
      · exact hold a b (.rel a b hold') ha
      · exact .inr (hstep.joined a b hasked ha hb)
    | refl a => exact .inl rfl
    | symm a b _ ih => exact ih.imp Eq.symm Alike.symm
    | trans a b c _ _ ihab ihbc =>
      rcases ihab with rfl | hab
      · exact ihbc
      · rcases ihbc with rfl | hbc
        · exact .inr hab
        · exact .inr (hab.trans hbc)
  · rintro (rfl | hab)
    · exact .refl a
    rcases hstep.only a b hab with rfl | halike | ⟨c, d, hasked, hac, hdb⟩
    · exact .refl a
    · exact hlift a b ((h a b).mpr (.inr halike)) hab.bound
    · have hac' := hstep.kept a c hac hab.bound
      have hbd' := hstep.kept b d hdb.symm hab.symm.bound
      have hc := hac'.symm.bound
      have hd := hbd'.symm.bound
      refine .trans a c b (hlift a c ((h a c).mpr (.inr hac)) hab.bound) ?_
      refine .trans c d b ?_ (hlift d b ((h d b).mpr (.inr hdb)) hd)
      rcases hasked with hcd | hdc
      · exact .rel c d ⟨.inr hcd, hc, hd⟩
      · exact .symm d c (.rel d c ⟨.inr hdc, hd, hc⟩)

/-- A table in which the same names are alike is reached by the same joining. -/
theorem JoinsOnly.congr (h : JoinsOnly s s' asked) (halike : ∀ a b, t.Alike a b ↔ s'.Alike a b) :
    JoinsOnly s t asked := by
  have hbound : ∀ a, t.Bound a → s'.Bound a := fun a ha => ((halike a a).mp ha.alike).bound
  refine ⟨fun a b hab ha => (halike a b).mpr (h.kept a b hab (hbound a ha)),
    fun a b hab ha hb => ?_, fun a b hab => h.only a b ((halike a b).mp hab)⟩
  exact (halike a b).mpr (h.joined a b hab (hbound a ha) (hbound b hb))

/-- A table that stays as it is joins names that are alike. -/
theorem joinsOnly_self (h : ∀ a b, asked a b → s.Bound a → s.Bound b → s.Alike a b) :
    JoinsOnly s s asked :=
  ⟨fun _ _ hab _ => hab, h, fun _ _ hab => .inr (.inl hab)⟩

end Joining

end Symbols

end SpinGlass

import SpinGlass.Proofs.Symbols.Consistent
import Mathlib.Data.List.Sort

/-!
# Redirected roots

A step on a table names the variables that it changes: it gives two names one index, or it retires
the index of a name. Whatever the names, a step does one of three things to the roots: nothing, or
one root gives way to a lower one, or one root is dropped. The last two are one redirection, of a
root to another one or to none, and what it does to a table is said here once.
-/

namespace SpinGlass

/-- A step on a table of symbols. -/
inductive SymbolStep where
  /-- Two names come to share an index. -/
  | unify (a b : String)
  /-- The index of a name is taken out of use. -/
  | retire (name : String)

/-- A root, and the root that takes its place, none where it is dropped. -/
structure Redirection where
  drop : Nat
  goal : Option Nat

namespace Redirection

/-- Where a redirection sends a root. -/
def send? (d : Redirection) (r : Nat) : Option Nat := if r = d.drop then d.goal else some r

/-- The redirection of renamed roots. -/
def rename (d : Redirection) (f : Nat → Nat) : Redirection := ⟨f d.drop, d.goal.map f⟩

/-- A root that is not dropped is sent to itself. -/
theorem send?_of_ne {d : Redirection} {r : Nat} (h : r ≠ d.drop) : d.send? r = some r := if_neg h

theorem send?_drop (d : Redirection) : d.send? d.drop = d.goal := if_pos rfl

end Redirection

namespace Symbols

/-- The table after a step that is not renumbered, none where a name has no index. -/
def perform? (s : Symbols) : SymbolStep → Option Symbols
  | .unify a b => do
    let i ← s.lookup? a
    let j ← s.lookup? b
    (s.merge i j).toOption.map (·.2)
  | .retire name => do
    let i ← s.lookup? name
    (s.retire i).toOption.map (·.2)

/-- All the names of a step have an index. -/
def Knows (s : Symbols) : SymbolStep → Prop
  | .unify a b => s.Bound a ∧ s.Bound b
  | .retire name => s.Bound name

/-- What a step does to the roots, none where a name has no index. A step whose names have one
index already redirects nothing. -/
def redirect? (s : Symbols) : SymbolStep → Option (Option Redirection)
  | .unify a b => do
    let i ← s.lookup? a
    let j ← s.lookup? b
    return if i = j then none else some ⟨max i j, some (min i j)⟩
  | .retire name => (s.lookup? name).map fun i => some ⟨i, none⟩

/-- The table with a root redirected. -/
def redirected (s : Symbols) (d : Redirection) : Symbols :=
  match d.goal with
  | some keep => s.link d.drop (.merged keep)
  | none => s.dropRoot d.drop

/-- A redirection of an index without a link to a lower one without a link. -/
structure Permits (s : Symbols) (d : Redirection) : Prop where
  drop : s.pending.get? d.drop = none
  goal : ∀ keep, d.goal = some keep → s.pending.get? keep = none ∧ keep < d.drop

/-- A table whose links lead downwards and whose names all lead to a root. -/
structure Rooted (s : Symbols) : Prop where
  downward : s.Downward
  live : ∀ name i, s.byName.get? name = some i → ∃ r, s.root? i = some r

/-- A rooted table whose names all have an allocated index. -/
structure Resolved (s : Symbols) : Prop extends s.Rooted where
  lt_size : ∀ name i, s.byName.get? name = some i → i < s.size

variable {s s' : Symbols} {d : Redirection} {name : String} {i r : Nat} {step : SymbolStep}

section Roots

/-- What a name leads to has no link. -/
theorem Downward.pending_lookup? (h : s.Downward) (hname : s.lookup? name = some r) :
    s.pending.get? r = none := by
  obtain ⟨i, _, hroot⟩ := Option.bind_eq_some_iff.mp hname
  exact (h.pending_root? hroot).1

theorem Resolved.isRoot_lookup? (h : s.Resolved) (hname : s.lookup? name = some r) :
    s.IsRoot r := by
  obtain ⟨i, hi, hroot⟩ := Option.bind_eq_some_iff.mp hname
  exact h.downward.isRoot_root? (h.lt_size name i hi) hroot

theorem Tidy.resolved (h : s.Tidy) : s.Resolved := ⟨⟨h.links.downward, h.live⟩, h.lt_size⟩

/-- Without links every index leads to itself. -/
theorem rooted_of_pending (h : s.pending = .empty) : s.Rooted :=
  ⟨(linksDown_of_pending h).downward, fun _ i _ => ⟨i, root?_of_none (by simp [h])⟩⟩

end Roots

section Redirected

theorem size_redirected (s : Symbols) (d : Redirection) : (s.redirected d).size = s.size := by
  unfold redirected
  split <;> rfl

theorem nextInternal_redirected (s : Symbols) (d : Redirection) :
    (s.redirected d).nextInternal = s.nextInternal := by
  unfold redirected
  split <;> rfl

/-- The redirected root is a root no more. -/
theorem isRoot_redirected : (s.redirected d).IsRoot i ↔ s.IsRoot i ∧ i ≠ d.drop := by
  unfold redirected
  split
  · exact isRoot_link
  · have hsame : (s.dropRoot d.drop).IsRoot i ↔ (s.link d.drop .retired).IsRoot i := Iff.rfl
    rw [hsame, isRoot_link]

/-- The other roots stay, in their order. -/
theorem survivors_redirected (s : Symbols) (d : Redirection) :
    (s.redirected d).survivors = s.survivors.filter (· ≠ d.drop) := by
  have hmem : ∀ i, i ∈ (s.redirected d).survivors ↔ i ∈ s.survivors.filter (· ≠ d.drop) := by
    intro i
    rw [mem_survivors, isRoot_redirected, List.mem_filter, mem_survivors, decide_eq_true_eq]
  exact (pairwise_survivors _).eq_of_mem_iff (s.pairwise_survivors.filter _) hmem

/-- Indices lead where they led, and from there where the redirection sends them. -/
theorem Downward.root?_redirected (h : s.Downward) (hd : s.Permits d) (i : Nat) :
    (s.redirected d).root? i = (s.root? i).bind d.send? := by
  unfold redirected Redirection.send?
  split
  · next keep hgoal =>
    obtain ⟨hkeep, hlt⟩ := hd.goal keep hgoal
    rw [h.root?_merged hkeep hd.drop hlt, hgoal]
    cases s.root? i with
    | none => rfl
    | some r => exact apply_ite some _ _ _
  · next hgoal => rw [h.root?_dropRoot hd.drop, hgoal]

/-- So do names. -/
theorem Downward.lookup?_redirected (h : s.Downward) (hd : s.Permits d) (name : String) :
    (s.redirected d).lookup? name = (s.lookup? name).bind d.send? := by
  unfold redirected Redirection.send?
  split
  · next keep hgoal =>
    obtain ⟨hkeep, hlt⟩ := hd.goal keep hgoal
    rw [h.lookup?_merged hkeep hd.drop hlt, hgoal]
    cases s.lookup? name with
    | none => rfl
    | some r => exact apply_ite some _ _ _
  · next hgoal =>
    rw [h.lookup?_dropRoot hd.drop, hgoal]
    cases s.lookup? name with
    | none => rfl
    | some r => simp

/-- A name that is still stored is stored as before, and it does not lead to a root that was
dropped. -/
theorem get?_redirected (hi : (s.redirected d).byName.get? name = some i) :
    s.byName.get? name = some i ∧ (d.goal = none → s.lookup? name ≠ some d.drop) := by
  unfold redirected at hi
  split at hi
  · next keep hgoal => exact ⟨hi, fun hnone => by simp [hgoal] at hnone⟩
  · rw [get?_dropRoot] at hi
    split at hi
    · cases hi
    · next hne => exact ⟨hi, fun _ => hne⟩

/-- A redirection keeps the names leading to roots. -/
theorem Rooted.redirected (h : s.Rooted) (hd : s.Permits d) : (s.redirected d).Rooted := by
  refine ⟨?_, fun name i hi => ?_⟩
  · unfold Symbols.redirected
    split
    · next keep hgoal =>
      refine h.downward.link fun target htarget => ?_
      cases htarget
      exact (hd.goal keep hgoal).2
    · have hlink : (s.link d.drop .retired).Downward := h.downward.link fun target htarget => by
        cases htarget
      exact hlink
  · obtain ⟨hold, hkept⟩ := get?_redirected hi
    obtain ⟨r, hr⟩ := h.live name i hold
    rw [h.downward.root?_redirected hd, hr, Option.bind_some]
    by_cases heq : r = d.drop
    · have hlookup : s.lookup? name = some d.drop := by
        rw [lookup?, hold, Option.bind_some, hr, heq]
      rw [heq, Redirection.send?_drop]
      exact Option.ne_none_iff_exists'.mp fun hnone => hkept hnone hlookup
    · exact ⟨r, Redirection.send?_of_ne heq⟩

/-- A redirection allocates no index, and takes none back. -/
theorem Resolved.redirected (h : s.Resolved) (hd : s.Permits d) : (s.redirected d).Resolved := by
  refine ⟨h.toRooted.redirected hd, fun name i hi => ?_⟩
  rw [size_redirected]
  exact h.lt_size name i (get?_redirected hi).1

end Redirected

section Performed

/-- Names of a step lead to the root that it redirects, and to the lower one that takes its
place. -/
theorem exists_lookup?_of_redirect? (hstep : s.redirect? step = some (some d)) :
    (∃ name, s.lookup? name = some d.drop) ∧
      ∀ keep, d.goal = some keep → keep < d.drop ∧ ∃ name, s.lookup? name = some keep := by
  cases step with
  | unify a b =>
    obtain ⟨i, hi, hstep⟩ := Option.bind_eq_some_iff.mp hstep
    obtain ⟨j, hj, hstep⟩ := Option.bind_eq_some_iff.mp hstep
    simp only [Option.pure_def, Option.some.injEq] at hstep
    split at hstep
    · cases hstep
    · next hne =>
      cases hstep
      refine ⟨?_, fun keep hkeep => ?_⟩
      · rcases Std.MaxEqOr.max_eq_or i j with hmax | hmax
        · exact ⟨a, hi.trans (congrArg some hmax.symm)⟩
        · exact ⟨b, hj.trans (congrArg some hmax.symm)⟩
      · cases hkeep
        refine ⟨by simp only; omega, ?_⟩
        rcases Std.MinEqOr.min_eq_or i j with hmin | hmin
        · exact ⟨a, hi.trans (congrArg some hmin.symm)⟩
        · exact ⟨b, hj.trans (congrArg some hmin.symm)⟩
  | retire name =>
    obtain ⟨i, hi, hstep⟩ := Option.map_eq_some_iff.mp hstep
    cases hstep
    exact ⟨⟨name, hi⟩, fun keep hkeep => by cases hkeep⟩

/-- So the redirection of a step is permitted. -/
theorem Downward.permits (h : s.Downward) (hstep : s.redirect? step = some (some d)) :
    s.Permits d := by
  obtain ⟨⟨name, hdrop⟩, hgoal⟩ := exists_lookup?_of_redirect? hstep
  refine ⟨h.pending_lookup? hdrop, fun keep hkeep => ?_⟩
  obtain ⟨hlt, name, hname⟩ := hgoal keep hkeep
  exact ⟨h.pending_lookup? hname, hlt⟩

/-- A step is carried out by its redirection. -/
theorem Downward.perform?_eq (h : s.Downward) (step : SymbolStep) : s.perform? step =
    (s.redirect? step).map fun d => d.elim s s.redirected := by
  cases step with
  | unify a b =>
    cases hi : s.lookup? a with
    | none => simp [perform?, redirect?, hi]
    | some i =>
      cases hj : s.lookup? b with
      | none => simp [perform?, redirect?, hi, hj]
      | some j =>
        have hri := root?_of_none (h.pending_lookup? hi)
        have hrj := root?_of_none (h.pending_lookup? hj)
        simp only [perform?, redirect?, hi, hj, Option.bind_eq_bind, Option.bind_some,
          Option.pure_def, Option.map_some]
        rcases h.merge_cases i j with hnone | ⟨r, hir, hjr, hmerge⟩ |
          ⟨keep, drop, _, _, hlt, hmerge, hroots⟩
        · simp [hri, hrj] at hnone
        · obtain rfl := Option.some.inj (hri.symm.trans hir)
          obtain rfl := Option.some.inj (hrj.symm.trans hjr)
          rw [hmerge, if_pos rfl]
          rfl
        · have hne : i ≠ j ∧ max i j = drop ∧ min i j = keep := by
            rw [hri, hrj] at hroots
            simp only [Option.some.injEq] at hroots
            omega
          rw [hmerge, if_neg hne.1, hne.2.1, hne.2.2]
          rfl
  | retire name =>
    cases hi : s.lookup? name with
    | none => simp [perform?, redirect?, hi]
    | some i =>
      have hri := root?_of_none (h.pending_lookup? hi)
      rcases s.retire_cases i with ⟨hnone, _⟩ | ⟨r, hir, hretire⟩
      · rw [hri] at hnone
        cases hnone
      · obtain rfl := Option.some.inj (hri.symm.trans hir)
        simp only [perform?, redirect?, hi, hretire, Option.bind_eq_bind, Option.bind_some]
        rfl

/-- A step that is carried out leaves the table alone or redirects a root. -/
theorem Downward.perform?_cases (h : s.Downward) (hperform : s.perform? step = some s') :
    s' = s ∨ ∃ d, s.Permits d ∧ s' = s.redirected d := by
  rw [h.perform?_eq, Option.map_eq_some_iff] at hperform
  obtain ⟨o, hstep, rfl⟩ := hperform
  cases o with
  | none => exact .inl rfl
  | some d => exact .inr ⟨d, h.permits hstep, rfl⟩

/-- A step keeps the names leading to allocated roots. -/
theorem Resolved.perform? (h : s.Resolved) (hperform : s.perform? step = some s') :
    s'.Resolved := by
  rcases h.downward.perform?_cases hperform with rfl | ⟨d, hd, rfl⟩
  · exact h
  · exact h.redirected hd

end Performed

end Symbols

end SpinGlass

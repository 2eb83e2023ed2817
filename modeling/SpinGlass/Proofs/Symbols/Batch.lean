import SpinGlass.Proofs.Symbols.Redirect

/-!
# Renumbering once

Steps on a table may each be followed by a renumbering, or all be carried out first and then be
followed by one. Both lead to one table, and the one renumbering is the composition of the many. A
redirection does to the renumbered roots what it does to the roots, and it keeps those that it
leaves in their order. So a renumbered table stays, from step to step, what a renumbering makes of
the table that was not renumbered.
-/

namespace SpinGlass

/-- One renumbering after another. What the first retires stays retired. -/
def Remap.andThen (first later : Remap) : Remap := ⟨first.map.map (·.bind later.get?)⟩

namespace Symbols

/-- The table with its roots renumbered, and the renumbering; none where a stray name stops it. -/
def renumber? (s : Symbols) : Option (Remap × Symbols) :=
  s.compact.1.map fun remap => (remap, s.compact.2)

/-- The table after steps that are carried out one after the other, and renumbered once. -/
def batch? (s : Symbols) (steps : List SymbolStep) : Option (Remap × Symbols) :=
  (steps.foldlM perform? s).bind renumber?

/-- The table after a step that is renumbered at once, and the renumbering. -/
def performNow? (s : Symbols) : SymbolStep → Option (Remap × Symbols)
  | .unify a b =>
    match s.unify a b with
    | .ok (remap, t) => remap.map fun remap => (remap, t)
    | .error _ => none
  | .retire name => (s.perform? (.retire name)).bind renumber?

/-- The table after steps that are each renumbered at once, and the composition of the
renumberings. -/
def stepwise? (s : Symbols) : List SymbolStep → Option (Remap × Symbols)
  | [] => some (.identity s.size, s)
  | step :: steps => do
    let (first, t) ← s.performNow? step
    let (later, u) ← t.stepwise? steps
    return (first.andThen later, u)

/-- The names of every step have an index when its turn comes. -/
def KnowsAll : Symbols → List SymbolStep → Prop
  | _, [] => True
  | s, step :: steps => s.Knows step ∧ ∀ t, s.perform? step = some t → t.KnowsAll steps

instance (s : Symbols) (name : String) : Decidable (s.Bound name) :=
  decidable_of_iff _ Option.isSome_iff_exists

instance (s : Symbols) (step : SymbolStep) : Decidable (s.Knows step) :=
  match step with
  | .unify a b => inferInstanceAs (Decidable (s.Bound a ∧ s.Bound b))
  | .retire name => inferInstanceAs (Decidable (s.Bound name))

instance decidableKnowsAll : ∀ (s : Symbols) (steps : List SymbolStep), Decidable (s.KnowsAll steps)
  | _, [] => .isTrue trivial
  | s, step :: steps =>
    match h : s.perform? step with
    | none => decidable_of_iff (s.Knows step) (by simp [KnowsAll, h])
    | some t =>
      have := decidableKnowsAll t steps
      decidable_of_iff (s.Knows step ∧ t.KnowsAll steps) (by simp [KnowsAll, h])

/-- The table `t` and the renumbering that a renumbering of `s` gives. -/
structure CompactsTo (s : Symbols) (remap : Remap) (t : Symbols) : Prop where
  length : remap.map.length = s.size
  get? : ∀ i < s.size, remap.get? i = (s.root? i).map s.rank
  size : t.size = s.survivors.length
  pending : t.pending = .empty
  nextInternal : t.nextInternal = s.nextInternal
  byName : ∀ name, t.byName.get? name = (s.lookup? name).map s.rank

end Symbols

section Composition

/-- A renumbering says what becomes of each old index. -/
theorem Remap.ext_get? {first later : Remap} (hlength : first.map.length = later.map.length)
    (h : ∀ i < first.map.length, first.get? i = later.get? i) : first = later := by
  obtain ⟨xs⟩ := first
  obtain ⟨ys⟩ := later
  have hget : xs = ys := by
    apply List.ext_getElem hlength
    intro i hi hi'
    have hi := h i hi
    simpa [Remap.get?, hi', hlength ▸ hi'] using hi
  rw [hget]

theorem Remap.length_andThen (first later : Remap) :
    (first.andThen later).map.length = first.map.length := by
  simp [Remap.andThen]

theorem Remap.get?_andThen (first later : Remap) (i : Nat) :
    (first.andThen later).get? i = (first.get? i).bind later.get? := by
  unfold Remap.get? Remap.andThen
  rw [List.getElem?_map]
  cases first.map[i]? <;> rfl

theorem Remap.length_identity (size : Nat) : (Remap.identity size).map.length = size := by
  simp [Remap.identity]

theorem Remap.get?_identity {size i : Nat} (hi : i < size) :
    (Remap.identity size).get? i = some i := by
  simp [Remap.get?, Remap.identity, hi]

theorem Remap.andThen_assoc (r s t : Remap) :
    (r.andThen s).andThen t = r.andThen (s.andThen t) := by
  apply Remap.ext_get?
  · simp only [length_andThen]
  · intro i _
    rw [get?_andThen, get?_andThen, get?_andThen, Option.bind_assoc]
    simp only [get?_andThen]

end Composition

namespace Symbols

variable {s t u : Symbols} {remap first later : Remap} {d : Redirection} {step : SymbolStep}
  {steps : List SymbolStep}

section Renumbering

theorem renumber?_eq_some_iff_compact :
    s.renumber? = some (remap, t) ↔ s.compact = (some remap, t) := by
  unfold renumber?
  rw [Option.map_eq_some_iff]
  constructor
  · rintro ⟨r, hr, heq⟩
    cases heq
    rw [← hr]
  · intro h
    exact ⟨remap, by rw [h], by rw [h]⟩

/-- Where nothing is pending, a renumbering changes nothing. -/
theorem renumber?_of_pending (h : s.pending = .empty) :
    s.renumber? = some (.identity s.size, s) := by
  rw [renumber?_eq_some_iff_compact, compact, if_pos (Table.isEmpty_iff.mpr h)]

/-- A renumbering answers for every old index, and generates names from where it was. -/
theorem length_of_compact (h : s.compact = (some remap, t)) :
    remap.map.length = s.size ∧ t.nextInternal = s.nextInternal := by
  unfold compact at h
  split at h
  · cases h
    exact ⟨Remap.length_identity _, rfl⟩
  · simp only at h
    split at h
    · cases h
      exact ⟨by simp [Symbols.remap], rfl⟩
    · cases h

/-- If every name leads to a root, the renumbering is that of the roots. -/
theorem Resolved.compactsTo (h : s.Resolved) (hcompact : s.compact = (some remap, t)) :
    s.CompactsTo remap t := by
  obtain ⟨hget, hsize, hpending, hnames⟩ := compact_eq_some hcompact
  obtain ⟨hlength, hnext⟩ := length_of_compact hcompact
  refine ⟨hlength, fun i hi => by rw [hget, if_pos hi], hsize, hpending, hnext, fun name => ?_⟩
  rw [hnames, lookup?]
  cases hi : s.byName.get? name with
  | none => rfl
  | some i =>
    obtain ⟨r, hr⟩ := h.live name i hi
    rw [Option.map_some, hget, if_pos (h.lt_size name i hi), Option.bind_some, hr]
    rfl

/-- There is one table that a renumbering gives, and one renumbering. -/
theorem CompactsTo.unique (h : s.CompactsTo remap t) (h' : s.CompactsTo later u) :
    remap = later ∧ t = u := by
  constructor
  · apply Remap.ext_get? (h.length.trans h'.length.symm)
    intro i hi
    rw [h.length] at hi
    rw [h.get? i hi, h'.get? i hi]
  · have hnames : t.byName = u.byName :=
      Table.ext_get? fun name => (h.byName name).trans (h'.byName name).symm
    obtain ⟨_, _, _, _⟩ := t
    obtain ⟨_, _, _, _⟩ := u
    simp only at hnames
    rw [Symbols.mk.injEq]
    exact ⟨hnames, h.size.trans h'.size.symm, h.pending.trans h'.pending.symm,
      h.nextInternal.trans h'.nextInternal.symm⟩

/-- If every name leads to a root, a renumbering gives just that. -/
theorem Resolved.renumber?_eq_some_iff (h : s.Resolved) :
    s.renumber? = some (remap, t) ↔ s.CompactsTo remap t := by
  obtain ⟨remap', t', hcompact⟩ := exists_compact_eq_some h.lt_size
  have hcompacts := h.compactsTo hcompact
  rw [renumber?_eq_some_iff_compact, hcompact]
  constructor
  · intro heq
    cases heq
    exact hcompacts
  · intro hother
    obtain ⟨rfl, rfl⟩ := hcompacts.unique hother
    rfl

/-- Where nothing is pending and every name has an allocated index, a renumbering changes
nothing. -/
theorem Resolved.compactsTo_self (h : s.Resolved) (hpending : s.pending = .empty) :
    s.CompactsTo (.identity s.size) s :=
  h.renumber?_eq_some_iff.mp (renumber?_of_pending hpending)

end Renumbering

section Square

/-- A renumbered table has no links, and its names have allocated indices. -/
theorem CompactsTo.resolved (h : s.CompactsTo remap t) (hs : s.Resolved) : t.Resolved := by
  refine ⟨rooted_of_pending h.pending, fun name i hi => ?_⟩
  rw [h.byName, Option.map_eq_some_iff] at hi
  obtain ⟨r, hr, rfl⟩ := hi
  rw [h.size]
  exact rank_lt_length (hs.isRoot_lookup? hr)

/-- In a renumbered table a name leads to the number of its root. -/
theorem CompactsTo.lookup? (h : s.CompactsTo remap t) (name : String) :
    t.lookup? name = (s.lookup? name).map s.rank := by
  rw [lookup?_of_pending h.pending, h.byName]

/-- A step does to the renumbered roots what it does to the roots. -/
theorem CompactsTo.redirect? (h : s.CompactsTo remap t) (hs : s.Resolved) (step : SymbolStep) :
    t.redirect? step = (s.redirect? step).map (·.map (·.rename s.rank)) := by
  cases step with
  | unify a b =>
    cases hi : s.lookup? a with
    | none => simp [Symbols.redirect?, h.lookup?, hi]
    | some i =>
      cases hj : s.lookup? b with
      | none => simp [Symbols.redirect?, h.lookup?, hi, hj]
      | some j =>
        have hri := hs.isRoot_lookup? hi
        have hrj := hs.isRoot_lookup? hj
        simp only [Symbols.redirect?, h.lookup?, hi, hj, Option.map_some, Option.bind_eq_bind,
          Option.bind_some, Option.pure_def]
        have hlt := rank_lt_rank_iff hri (n := j)
        have hgt := rank_lt_rank_iff hrj (n := i)
        -- ranks keep the order of the two roots
        rcases Nat.lt_trichotomy i j with hij | rfl | hij
        · have hrank := hlt.mpr hij
          rw [if_neg hrank.ne, if_neg hij.ne, max_eq_right hrank.le, min_eq_left hrank.le,
            max_eq_right hij.le, min_eq_left hij.le]
          rfl
        · rw [if_pos rfl, if_pos rfl]
          rfl
        · have hrank := hgt.mpr hij
          rw [if_neg hrank.ne', if_neg hij.ne', max_eq_left hrank.le, min_eq_right hrank.le,
            max_eq_left hij.le, min_eq_right hij.le]
          rfl
  | retire name =>
    simp only [Symbols.redirect?, h.lookup?, Option.map_map]
    rfl

/-- The roots that a redirection leaves are renumbered in their order. -/
theorem CompactsTo.survivors_redirected (h : s.CompactsTo remap t) (hd : s.IsRoot d.drop) :
    (t.redirected (d.rename s.rank)).survivors = (s.redirected d).survivors.map s.rank := by
  have hranks : s.survivors.map s.rank = t.survivors := by
    rw [survivors_of_pending h.pending, h.size]
    apply List.ext_getElem (by simp)
    intro k hk _
    rw [List.getElem_map, List.getElem_range]
    exact length_filter_lt_getElem s.pairwise_survivors k (by simpa using hk)
  rw [Symbols.survivors_redirected, Symbols.survivors_redirected, ← hranks, List.filter_map]
  congr 1
  apply List.filter_congr
  intro r hr
  have hne : s.rank r ≠ s.rank d.drop ↔ r ≠ d.drop :=
    not_congr ⟨eq_of_rank_eq (mem_survivors.mp hr) hd, congrArg s.rank⟩
  exact decide_eq_decide.mpr hne

/-- A root gets one number by both ways. -/
theorem CompactsTo.rank_redirected (h : s.CompactsTo remap t) (hd : s.IsRoot d.drop) (r : Nat) :
    (t.redirected (d.rename s.rank)).rank (s.rank r) = (s.redirected d).rank r := by
  rw [rank, h.survivors_redirected hd, List.filter_map, List.length_map, rank]
  congr 1
  apply List.filter_congr
  intro k hk
  have hroot := (isRoot_redirected.mp (mem_survivors.mp hk)).1
  exact decide_eq_decide.mpr (rank_lt_rank_iff hroot)

/-- To send a root on and number it is to number it, send it on, and number it again. -/
theorem CompactsTo.send?_rank (h : s.CompactsTo remap t) (hd : s.IsRoot d.drop) {o : Option Nat}
    (ho : ∀ r, o = some r → s.IsRoot r) :
    ((o.map s.rank).bind (d.rename s.rank).send?).map (t.redirected (d.rename s.rank)).rank =
      (o.bind d.send?).map (s.redirected d).rank := by
  cases o with
  | none => rfl
  | some r =>
    rw [Option.map_some, Option.bind_some, Option.bind_some]
    by_cases hr : r = d.drop
    · have hdrop : (d.rename s.rank).send? (s.rank d.drop) = d.goal.map s.rank :=
        (d.rename s.rank).send?_drop
      rw [hr, d.send?_drop, hdrop, Option.map_map]
      congr 1
      funext k
      exact h.rank_redirected hd k
    · have hne : s.rank r ≠ (d.rename s.rank).drop :=
        fun heq => hr (eq_of_rank_eq (ho r rfl) hd heq)
      rw [Redirection.send?_of_ne hr, Redirection.send?_of_ne hne, Option.map_some, Option.map_some,
        h.rank_redirected hd]

/-- A redirection and a renumbering after a renumbering are a redirection and a renumbering. -/
theorem CompactsTo.redirected (h : s.CompactsTo remap t) (hs : s.Resolved) (hd : s.Permits d)
    (hdrop : s.IsRoot d.drop) (hd' : t.Permits (d.rename s.rank))
    (hlater : (t.redirected (d.rename s.rank)).CompactsTo later u) :
    (s.redirected d).CompactsTo (remap.andThen later) u := by
  have ht := h.resolved hs
  have hsurvivors := h.survivors_redirected hdrop
  refine ⟨?_, fun i hi => ?_, ?_, hlater.pending, ?_, fun name => ?_⟩
  · rw [Remap.length_andThen, h.length, size_redirected]
  · rw [size_redirected] at hi
    have hroot : ∀ r, s.root? i = some r → s.IsRoot r := fun r hr => hs.downward.isRoot_root? hi hr
    rw [Remap.get?_andThen, h.get? i hi, hs.downward.root?_redirected hd,
      ← h.send?_rank hdrop hroot]
    cases hi : s.root? i with
    | none => rfl
    | some r =>
      have hlt : s.rank r < (t.redirected (d.rename s.rank)).size := by
        rw [size_redirected, h.size]
        exact rank_lt_length (hroot r hi)
      rw [Option.map_some, Option.bind_some, Option.bind_some, hlater.get? _ hlt,
        ht.downward.root?_redirected hd', root?_of_none (by simp [h.pending]), Option.bind_some]
  · rw [hlater.size, hsurvivors, List.length_map]
  · rw [hlater.nextInternal, nextInternal_redirected, h.nextInternal, nextInternal_redirected]
  · rw [hlater.byName, ht.downward.lookup?_redirected hd', h.lookup?,
      hs.downward.lookup?_redirected hd, h.send?_rank hdrop fun r hr => hs.isRoot_lookup? hr]

/-- A renumbering after a renumbering is a renumbering. -/
theorem CompactsTo.trans (h : s.CompactsTo remap t) (hs : s.Resolved)
    (hlater : t.CompactsTo later u) : s.CompactsTo (remap.andThen later) u := by
  have ht := h.resolved hs
  obtain ⟨rfl, rfl⟩ := (ht.compactsTo_self h.pending).unique hlater
  have hremap : remap.andThen (.identity t.size) = remap := by
    apply Remap.ext_get? (Remap.length_andThen ..)
    intro i hi
    rw [Remap.length_andThen, h.length] at hi
    rw [Remap.get?_andThen, h.get? i hi]
    cases hr : s.root? i with
    | none => rfl
    | some r =>
      rw [Option.map_some, Option.bind_some, Remap.get?_identity]
      rw [h.size]
      exact rank_lt_length (hs.downward.isRoot_root? hi hr)
  rwa [hremap]

/-- A step on a table and on the renumbered one either fails on both or leaves tables that a
renumbering makes the same again. -/
theorem CompactsTo.perform? (h : s.CompactsTo remap t) (hs : s.Resolved) (step : SymbolStep) :
    (s.perform? step = none ∧ t.perform? step = none) ∨
      ∃ s' t', s.perform? step = some s' ∧ t.perform? step = some t' ∧ s'.Resolved ∧ t'.Resolved ∧
        ∀ later u, t'.CompactsTo later u → s'.CompactsTo (remap.andThen later) u := by
  have ht := h.resolved hs
  have hstep := h.redirect? hs step
  rw [hs.downward.perform?_eq, ht.downward.perform?_eq]
  cases hredirect : s.redirect? step with
  | none =>
    rw [hredirect, Option.map_none] at hstep
    exact .inl ⟨rfl, by rw [hstep]; rfl⟩
  | some o =>
    rw [hredirect, Option.map_some] at hstep
    rw [hstep]
    refine .inr ⟨_, _, rfl, rfl, ?_⟩
    cases o with
    | none => exact ⟨hs, ht, fun later u hlater => h.trans hs hlater⟩
    | some d =>
      obtain ⟨⟨name, hdrop⟩, _⟩ := exists_lookup?_of_redirect? hredirect
      have hd := hs.downward.permits hredirect
      have hd' := ht.downward.permits hstep
      exact ⟨hs.redirected hd, ht.redirected hd', fun later u hlater =>
        h.redirected hs hd (hs.isRoot_lookup? hdrop) hd' hlater⟩

end Square

section Runs

/-- To renumber at once is to renumber next. -/
theorem performNow?_eq (s : Symbols) (step : SymbolStep) :
    s.performNow? step = (s.perform? step).bind renumber? := by
  cases step with
  | unify a b =>
    simp only [performNow?, perform?, unify]
    cases s.lookup? a with
    | none => rfl
    | some i =>
      cases s.lookup? b with
      | none => rfl
      | some j =>
        simp only [Option.bind_eq_bind, Option.bind_some]
        cases hmerge : s.merge i j with
        | error e => simp [hmerge, Bind.bind, Except.bind, Except.toOption]
        | ok merged =>
          simp [hmerge, Bind.bind, Except.bind, Pure.pure, Except.pure, Except.toOption, renumber?]
  | retire name => rfl

theorem stepwise?_cons (s : Symbols) (step : SymbolStep) (steps : List SymbolStep) :
    s.stepwise? (step :: steps) = (s.perform? step).bind fun s' => s'.renumber?.bind fun x =>
      (x.2.stepwise? steps).map fun y => (x.1.andThen y.1, y.2) := by
  rw [stepwise?, performNow?_eq, Option.bind_eq_bind, Option.bind_assoc]
  congr 1
  funext s'
  congr 1
  funext x
  cases h : x.2.stepwise? steps <;> simp [h]

theorem batch?_cons (s : Symbols) (step : SymbolStep) (steps : List SymbolStep) :
    s.batch? (step :: steps) = (s.perform? step).bind (·.batch? steps) := by
  unfold batch?
  rw [List.foldlM_cons, Option.bind_eq_bind, Option.bind_assoc]

/-- Steps on a table that are renumbered once give what the steps on the renumbered table give that
are each followed by a renumbering. -/
theorem CompactsTo.batch? (h : s.CompactsTo remap t) (hs : s.Resolved) (steps : List SymbolStep) :
    s.batch? steps = (t.stepwise? steps).map fun x => (remap.andThen x.1, x.2) := by
  induction steps generalizing s t remap with
  | nil =>
    have ht := (h.resolved hs).compactsTo_self h.pending
    exact hs.renumber?_eq_some_iff.mpr (h.trans hs ht)
  | cons step steps ih =>
    rw [batch?_cons, stepwise?_cons]
    rcases h.perform? hs step with ⟨hnone, hnone'⟩ | ⟨s', t', hs', ht', hres, hres', hsquare⟩
    · rw [hnone, hnone']
      rfl
    · obtain ⟨first, u, hcompact⟩ := exists_compact_eq_some hres'.lt_size
      have hfirst := hres'.compactsTo hcompact
      have hih := ih (hsquare first u hfirst) hres
      rw [hs', ht', Option.bind_some, Option.bind_some, hres'.renumber?_eq_some_iff.mpr hfirst,
        Option.bind_some, hih, Option.map_map]
      simp only [Function.comp_def, Remap.andThen_assoc]

end Runs

end Symbols

end SpinGlass

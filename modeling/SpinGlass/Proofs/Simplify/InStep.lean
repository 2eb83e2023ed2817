import SpinGlass.Proofs.Simplify.Components
import SpinGlass.Proofs.Simplify.Reduction

/-!
# Problem and table in step

The passes of a simplification rewrite the table and the problem apart from each other. They stay
in step: what the problem mentions are roots of the table, so no operation on the table fails, the
renumbering at the end loses nothing, and the counts of the report add up.
-/

namespace SpinGlass

/-- The error of constraints that contradict each other. -/
def SimplifyError.IsContradiction (e : SimplifyError) : Prop :=
  ∃ names first second, e = .contradiction names first second

/-- A problem has the entries of another under new indices: none is lost and no two have met. -/
structure Problem.Renumbered {K : Type} (f : Nat → Nat) (p p' : Problem K) : Prop where
  weights : p'.weights.entries = p.weights.entries.map fun e => (f e.1, e.2)
  strengths : p'.strengths.entries =
    p.strengths.entries.map fun e => (⟨f e.1.lo, f e.1.hi⟩, e.2)
  chains : p'.chains.entries = p.chains.entries.map fun e => (⟨f e.1.lo, f e.1.hi⟩, e.2)
  pinned : p'.pinned.entries = p.pinned.entries.map fun e => (f e.1, e.2)
  helpers : p'.pinHelpers.entries = p.pinHelpers.entries.map fun e => (f e.1, f e.2)

/-- A problem over roots is renumbered without loss. -/
theorem Problem.renumbered_rank {K : Type} {p : Problem K} {s : Symbols} {remap : Remap}
    (hremap : Ranks remap s) (hp : p.Over s.IsRoot) :
    p.Renumbered s.rank (p.renumber remap) := by
  have hchain : ∀ q u, p.chains.get? q = some u → q.Joins s.IsRoot := fun q u hq =>
    hp.chains q (Table.contains_iff.mpr ⟨u, hq⟩)
  have hhelper : ∀ e ∈ p.pinHelpers.entries, s.IsRoot e.1 ∧ s.IsRoot e.2 := fun e he =>
    hp.helpers e.1 e.2 (Table.get?_eq_some_iff.mpr he)
  refine ⟨?_, ?_, ?_, ?_, ?_⟩
  · exact Table.entries_filterMapKeys (fun i w hi => hremap i (hp.weights i w hi))
      fun a _ _ _ ha _ => compare_rank (hp.weights a _ ha)
  · exact Table.entries_filterMapKeys (g := rankPair s)
      (fun q j hq => renumber_pair hremap (hp.strengths q j hq))
      fun a _ _ _ ha _ => compare_rankPair (hp.strengths a _ ha)
  · exact Table.entries_filterMapKeys (g := rankPair s)
      (fun q u hq => renumber_pair hremap (hchain q u hq))
      fun a _ _ _ ha _ => compare_rankPair (hchain a _ ha)
  · exact Table.entries_filterMapKeys (fun i spin hi => hremap i (hp.pinned i spin hi))
      fun a _ _ _ ha _ => compare_rank (hp.pinned a _ ha)
  · refine Table.entries_ofList_filterMap (u := fun e => s.rank e.2) (fun e he => ?_)
      fun a ha _ _ => compare_rank (hhelper a ha).1
    simp [hremap _ (hhelper e he).1, hremap _ (hhelper e he).2]

namespace Model

variable {K : Type} [Coefficient K] {m m' : Model K} {foldDominated : Bool} {e : SimplifyError}

section Errors

/-- Pins that differ are all that stops a merge of two roots. -/
theorem isContradiction_of_mergeInto {keep drop : Nat} (hkeep : m.symbols.IsRoot keep)
    (hdrop : m.symbols.IsRoot drop) (hlt : keep < drop)
    (h : m.mergeInto keep drop = .error e) : e.IsContradiction := by
  unfold mergeInto at h
  rcases bind_eq_error.mp h with hpin | ⟨p, _, hmerge⟩
  · unfold mergePin at hpin
    simp only at hpin
    split at hpin
    · cases hpin
    · split at hpin
      · cases hpin
      · split at hpin
        · cases hpin
        · exact ⟨_, _, _, (Except.error.inj hpin).symm⟩
  · simp only [Symbols.merge_eq_link hkeep hdrop hlt] at hmerge
    cases hmerge

theorem isContradiction_of_aliasRounds {rounds merged : Nat} (hm : m.WellLinked)
    (h : m.aliasRounds rounds merged = .error e) : e.IsContradiction := by
  induction rounds generalizing merged m with
  | zero => cases h
  | succ rounds ih =>
    rcases m.aliasRounds_succ rounds merged with ⟨_, hdone⟩ | ⟨q, hq, hround⟩
    · rw [hdone] at h
      cases h
    · rcases bind_eq_error.mp (hround ▸ h) with hmerge | ⟨next, hmerge, h⟩
      · obtain ⟨hlt, hlo, hhi⟩ := hm.isOver.chains q hq
        exact isContradiction_of_mergeInto (m := m.withoutChain q) hlo hhi hlt hmerge
      · exact ih (hm.merged hq hmerge).wellLinked h

/-- A root can always be fixed. -/
theorem exists_fix_eq_ok {i : Nat} (hi : m.symbols.IsRoot i) (spin : Spin) :
    ∃ next, m.fix i spin = .ok next := by
  unfold fix
  rw [Symbols.retire_eq_link hi]
  exact ⟨_, rfl⟩

/-- A run of fixings that comes to a variable whose forced spin differs from its pin. -/
structure Conflict (foldDominated : Bool) (m : Model K) (log : Fixings) (c : Model K) (i : Nat)
    (pin spin : Spin) : Prop where
  fixes : Fixes foldDominated m log c
  isRoot : c.symbols.IsRoot i
  forced : c.problem.forcedSpin foldDominated i = some spin
  pinned : c.problem.pinned.get? i = some pin
  ne : pin ≠ spin

/-- An error is the report of a conflict on the way of a propagation. -/
def Reports (foldDominated : Bool) (m : Model K) (e : SimplifyError) : Prop :=
  ∃ log c i pin spin, m.Conflict foldDominated log c i pin spin ∧
    e = .contradiction (c.symbols.namesOf i) pin spin

/-- A conflict after some fixings is one on the way of all of them. -/
theorem Reports.of_fixes {log : Fixings} (h : m'.Reports foldDominated e)
    (hfixes : Fixes foldDominated m log m') : m.Reports foldDominated e := by
  obtain ⟨more, c, i, pin, spin, hconflict, rfl⟩ := h
  exact ⟨log ++ more, c, i, pin, spin,
    { hconflict with fixes := hfixes.append hconflict.fixes }, rfl⟩

/-- A pin that differs from the forced spin is all that stops a visit to a root. -/
theorem reports_of_noteIfForced {log : Fixings} {i : Nat} (hi : m.symbols.IsRoot i)
    (h : noteIfForced foldDominated (log, m) i = .error e) : m.Reports foldDominated e := by
  unfold noteIfForced at h
  simp only at h
  split at h
  · cases h
  · split at h
    · cases h
    · next spin hforced =>
      obtain ⟨next, hnext⟩ := exists_fix_eq_ok hi spin
      rw [hnext] at h
      split at h
      · next pin hpin =>
        split at h
        · next hne =>
          exact ⟨[], m, i, pin, spin, ⟨.done m, hi, hforced, hpin, hne⟩, (Except.error.inj h).symm⟩
        · cases h
      · cases h

theorem reports_of_round {log : Fixings} (indices : List Nat) (hnodup : indices.Nodup)
    (hm : m.WellLinked) (hroots : ∀ i ∈ indices, m.symbols.IsRoot i)
    (h : indices.foldlM (noteIfForced foldDominated) (log, m) = .error e) :
    m.Reports foldDominated e := by
  induction indices generalizing log m with
  | nil => cases h
  | cons i rest ih =>
    rw [List.foldlM_cons] at h
    have hi := hroots i List.mem_cons_self
    rcases bind_eq_error.mp h with hvisit | ⟨⟨log₁, m₁⟩, hvisit, h⟩
    · exact reports_of_noteIfForced hi hvisit
    · obtain ⟨steps, _, hsteps, hothers⟩ := fixes_of_noteIfForced hm hi hvisit
      obtain ⟨hnotin, hrest⟩ := List.nodup_cons.mp hnodup
      refine (ih hrest (hsteps.propagated hm).wellLinked (fun k hk => ?_) h).of_fixes hsteps
      exact hothers k (fun heq => hnotin (heq ▸ hk)) (hroots k (List.mem_cons_of_mem _ hk))

theorem reports_of_noteRounds {log : Fixings} (rounds : Nat) (hm : m.WellLinked)
    (h : noteRounds foldDominated rounds (log, m) = .error e) : m.Reports foldDominated e := by
  induction rounds generalizing log m with
  | zero => cases h
  | succ rounds ih =>
    unfold noteRounds at h
    have hroots : ∀ i ∈ m.problem.activeIndices, m.symbols.IsRoot i := fun i hi =>
      hm.isOver.mem_activeIndices hi
    rcases bind_eq_error.mp h with hround | ⟨⟨log₁, m₁⟩, hround, h⟩
    · exact reports_of_round _ (Table.nodup_keys _) hm hroots hround
    · obtain ⟨steps, _, hsteps⟩ := fixes_of_round _ (Table.nodup_keys _) hm hroots hround
      dsimp only at h
      split at h
      · cases h
      · exact (ih (hsteps.propagated hm).wellLinked h).of_fixes hsteps

/-- A propagation over roots stops at conflicts only, and reports the first. -/
theorem reports_of_propagateConstants (hm : m.WellLinked)
    (h : m.propagateConstants foldDominated = .error e) : m.Reports foldDominated e := by
  rw [propagateConstants_eq_countNotes] at h
  cases hnotes : m.noteConstants foldDominated with
  | ok noted =>
    rw [hnotes] at h
    cases h
  | error e' =>
    rw [hnotes] at h
    cases h
    exact reports_of_noteRounds _ hm hnotes

/-- Constraints that contradict each other are all that stops a propagation over roots. -/
theorem isContradiction_of_propagateConstants (hm : m.WellLinked)
    (h : m.propagateConstants foldDominated = .error e) : e.IsContradiction := by
  obtain ⟨_, _, _, _, _, _, heq⟩ := reports_of_propagateConstants hm h
  exact ⟨_, _, _, heq⟩

end Errors

section Passes

variable {a f c : Model K} {aliased fixed : Nat}

/-- A propagation that succeeds is a run of as many fixings as it counts. -/
theorem exists_fixes_of_propagateConstants (ha : a.WellLinked)
    (h : a.propagateConstants foldDominated = .ok (fixed, f)) :
    ∃ log : Fixings, log.length = fixed ∧ Fixes foldDominated a log f := by
  rw [propagateConstants_eq_countNotes] at h
  cases hnotes : a.noteConstants foldDominated with
  | error e =>
    rw [hnotes] at h
    cases h
  | ok noted =>
    rw [hnotes] at h
    cases h
    exact ⟨noted.1, rfl, fixes_of_noteConstants ha hnotes⟩

/-- A simplification stops where its passes do. -/
theorem simplify_eq_error (h : m.simplify foldDominated = .error e) :
    (m.mapProblem (·.pruneZeros)).aliasChains = .error e ∨
      ∃ aliased a, (m.mapProblem (·.pruneZeros)).aliasChains = .ok (aliased, a) ∧
        (a.propagateConstants foldDominated = .error e ∨
          ∃ fixed f, a.propagateConstants foldDominated = .ok (fixed, f) ∧
            f.compact = .error e) := by
  unfold simplify at h
  refine (bind_eq_error.mp h).imp id ?_
  rintro ⟨⟨aliased, a⟩, haliases, h⟩
  refine ⟨aliased, a, haliases, (bind_eq_error.mp h).imp id ?_⟩
  rintro ⟨⟨fixed, f⟩, hpropagate, h⟩
  refine ⟨fixed, f, hpropagate, (bind_eq_error.mp h).resolve_right ?_⟩
  rintro ⟨_, _, h⟩
  cases h

/-- A simplification that succeeds reports the counts of its passes. -/
theorem simplify_eq_ok {report : SimplifyReport}
    (h : m.simplify foldDominated = .ok (report, m')) :
    ∃ a f remap c, (m.mapProblem (·.pruneZeros)).aliasChains = .ok (report.aliased, a) ∧
      a.propagateConstants foldDominated = .ok (report.fixed, f) ∧ f.compact = .ok (remap, c) ∧
      m' = c.mapProblem (·.pruneZeros) ∧ report.varsBefore = m.symbols.size ∧
      report.varsAfter = m'.symbols.size := by
  unfold simplify at h
  obtain ⟨⟨aliased, a⟩, haliases, h⟩ := bind_eq_ok.mp h
  obtain ⟨⟨fixed, f⟩, hpropagate, h⟩ := bind_eq_ok.mp h
  obtain ⟨⟨remap, c⟩, hcompact, h⟩ := bind_eq_ok.mp h
  cases h
  exact ⟨a, f, remap, c, haliases, hpropagate, hcompact, rfl, rfl, rfl⟩

omit [Coefficient K] in
/-- A model over roots is renumbered by the ranks of its roots. -/
theorem ranks_of_compact {remap : Remap} (h : f.compact = .ok (remap, c)) :
    Problem.Ranks remap f.symbols ∧ c.problem = f.problem.renumber remap ∧
      c.symbols.size = f.symbols.survivors.length := by
  obtain ⟨hsymbols, hproblem⟩ := compact_eq_ok h
  obtain ⟨hremap, hsize, _, _⟩ := Symbols.compact_eq_some hsymbols
  refine ⟨fun root hroot => ?_, hproblem, hsize⟩
  rw [hremap, if_pos hroot.1, Symbols.root?_of_none hroot.2]
  rfl

omit [Coefficient K] in
/-- If every name has an allocated index, nothing stops a renumbering. -/
theorem exists_compact_eq_ok
    (h : ∀ name i, f.symbols.byName.get? name = some i → i < f.symbols.size) :
    ∃ remap c, f.compact = .ok (remap, c) := by
  obtain ⟨remap, symbols, hcompact⟩ := Symbols.exists_compact_eq_some h
  unfold compact
  rw [hcompact]
  exact ⟨_, _, rfl⟩

omit [Coefficient K] in
/-- After merges and fixings names have their indices, or none, so nothing stops the renumbering. -/
theorem exists_compact_of_propagated {log : Fixings} (ha : m.Aliased a)
    (hf : a.Propagated log f)
    (hnames : ∀ name i, m.symbols.byName.get? name = some i → i < m.symbols.size) :
    ∃ remap c, f.compact = .ok (remap, c) := by
  refine exists_compact_eq_ok fun name i hi => ?_
  rw [hf.size, ha.size]
  have hname := hf.byName name
  rw [hi] at hname
  split at hname
  · cases hname
  · exact hnames name i (ha.byName ▸ hname.symm)

/-- Merges and components of the chains make up the indices. -/
theorem add_card_connectedComponent (hover : m.problem.Over (· < m.symbols.size))
    (hpending : m.symbols.pending = .empty) (hm : m.WellLinked)
    (h : m.aliasChains = .ok (aliased, a)) :
    a.symbols.survivors.length + aliased = m.symbols.size ∧
      Nat.card (m.problem.chainGraph m.symbols.size).ConnectedComponent =
        a.symbols.survivors.length := by
  have haliased := (aliases_of_aliasRounds hm le_rfl h).aliased hm
  refine ⟨?_, haliased.card_connectedComponent hover hpending⟩
  rw [length_survivors_of_aliasRounds hm h, Symbols.survivors_of_pending hpending,
    List.length_range, Nat.add_zero]

end Passes

/-- Problem and table stay in step through a simplification. After the chains are aliased and the
forced variables are fixed, the problem mentions roots only and no chain is left, so the renumbering
keeps every entry apart from the others; it does not fail if every name has an allocated index. No
operation on the table fails. The merges are the indices less the connected components of the
chains, and the counts of the report add up. -/
theorem simplify_inStep (hover : m.problem.Over (· < m.symbols.size))
    (hpending : m.symbols.pending = .empty) (foldDominated : Bool) :
    (∀ e, m.simplify foldDominated ≠ .error (.symbol e)) ∧
      (∀ aliased a, (m.mapProblem (·.pruneZeros)).aliasChains = .ok (aliased, a) →
        aliased + Nat.card (m.problem.chainGraph m.symbols.size).ConnectedComponent =
          m.symbols.size ∧
        ∀ fixed f, a.propagateConstants foldDominated = .ok (fixed, f) →
          f.problem.Over f.symbols.IsRoot ∧ f.problem.chains = .empty ∧
          ((∀ name i, m.symbols.byName.get? name = some i → i < m.symbols.size) →
            ∃ remap c, f.compact = .ok (remap, c)) ∧
          ∀ remap c, f.compact = .ok (remap, c) →
            (∀ root, f.symbols.IsRoot root → remap.get? root = some (f.symbols.rank root)) ∧
            f.problem.Renumbered f.symbols.rank c.problem) ∧
      ∀ report m', m.simplify foldDominated = .ok (report, m') →
        report.varsBefore = m.symbols.size ∧ report.varsAfter = m'.symbols.size ∧
        report.aliased + Nat.card (m.problem.chainGraph m.symbols.size).ConnectedComponent =
          report.varsBefore ∧
        report.varsBefore = report.varsAfter + report.aliased + report.fixed := by
  have hlinked := wellLinked_pruneZeros hover hpending
  have hcard : ∀ aliased a, (m.mapProblem (·.pruneZeros)).aliasChains = .ok (aliased, a) →
      a.symbols.survivors.length + aliased = m.symbols.size ∧
        Nat.card (m.problem.chainGraph m.symbols.size).ConnectedComponent =
          a.symbols.survivors.length := fun aliased a haliases =>
    add_card_connectedComponent (m := m.mapProblem (·.pruneZeros)) hover.pruneZeros hpending
      hlinked haliases
  have haliased : ∀ aliased a, (m.mapProblem (·.pruneZeros)).aliasChains = .ok (aliased, a) →
      (m.mapProblem (·.pruneZeros)).Aliased a := fun aliased a haliases =>
    (aliases_of_aliasRounds hlinked le_rfl haliases).aliased hlinked
  refine ⟨fun e h => ?_, fun aliased a haliases => ⟨?_, fun fixed f hpropagate => ?_⟩,
    fun report m' h => ?_⟩
  · have hcontradiction : ∀ {e : SymbolError}, ¬ (SimplifyError.symbol e).IsContradiction := by
      rintro e ⟨_, _, _, heq⟩
      cases heq
    rcases simplify_eq_error h with haliases | ⟨aliased, a, haliases, hpropagate | hcompact⟩
    · exact hcontradiction (isContradiction_of_aliasRounds hlinked haliases)
    · exact hcontradiction (isContradiction_of_propagateConstants
        (haliased aliased a haliases).wellLinked hpropagate)
    · obtain ⟨fixed, f, _, hcompact⟩ := hcompact
      unfold compact at hcompact
      split at hcompact <;> cases hcompact
  · obtain ⟨hsum, hcomponents⟩ := hcard aliased a haliases
    omega
  · have ha := haliased aliased a haliases
    obtain ⟨log, _, hfixes⟩ := exists_fixes_of_propagateConstants ha.wellLinked hpropagate
    have hpropagated := hfixes.propagated ha.wellLinked
    refine ⟨hpropagated.wellLinked.isOver, hpropagated.chains.trans ha.chains, fun hnames => ?_,
      fun remap c hcompact => ?_⟩
    · refine exists_compact_eq_ok fun name i hi => ?_
      rw [hpropagated.size, ha.size]
      have hname := hpropagated.byName name
      rw [hi] at hname
      split at hname
      · cases hname
      · exact hnames name i (ha.byName ▸ hname.symm)
    obtain ⟨hranks, hproblem, _⟩ := ranks_of_compact hcompact
    exact ⟨hranks, hproblem ▸ Problem.renumbered_rank hranks hpropagated.wellLinked.isOver⟩
  · obtain ⟨a, f, remap, c, haliases, hpropagate, hcompact, hm', hbefore, hafter⟩ :=
      simplify_eq_ok h
    have ha := haliased report.aliased a haliases
    obtain ⟨hsum, hcomponents⟩ := hcard report.aliased a haliases
    obtain ⟨log, hlength, hfixes⟩ := exists_fixes_of_propagateConstants ha.wellLinked hpropagate
    have hleft := hfixes.length_survivors ha.wellLinked
    have hsize : m'.symbols.size = f.symbols.survivors.length := by
      rw [hm']
      exact (ranks_of_compact hcompact).2.2
    exact ⟨hbefore, hafter, by omega, by omega⟩

/-- The chained pair is one component and the third variable another; with dominance, both are
fixed. -/
theorem simplify_inStep_chainedPair :
    chainedPair.problem.Over (· < chainedPair.symbols.size) ∧
      chainedPair.symbols.pending = .empty ∧
      ∃ report m', chainedPair.simplify true = .ok (report, m') ∧
        report.aliased + Nat.card (chainedPair.problem.chainGraph 3).ConnectedComponent = 3 ∧
        3 = report.varsAfter + report.aliased + report.fixed := by
  obtain ⟨⟨report, m'⟩, h⟩ : ∃ result, chainedPair.simplify true = .ok result :=
    exists_eq_ok_of_isSome (by decide +kernel)
  obtain ⟨hbefore, _, haliased, hsum⟩ :=
    (simplify_inStep over_chainedPair rfl true).2.2 report m' h
  rw [hbefore] at haliased hsum
  exact ⟨over_chainedPair, rfl, report, m', h, haliased, hsum⟩

end Model

end SpinGlass

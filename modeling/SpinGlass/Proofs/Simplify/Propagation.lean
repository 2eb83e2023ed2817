import SpinGlass.Proofs.Simplify.Fix

/-!
# Runs of fixings

A run of fixings is noted as a list of indices and spins. Every index is fixed at most once, so the
list says of each index what became of it, and with its spins given the constraints and the energy
are those at the start of the run.
-/

namespace SpinGlass

/-- The variables that were fixed, in order, and their spins. -/
abbrev Fixings := List (Nat × Spin)

/-- The spin that a variable was fixed to. -/
def Fixings.spin? (log : Fixings) (i : Nat) : Option Spin := List.lookup i log

@[simp] theorem Fixings.spin?_nil (i : Nat) : Fixings.spin? [] i = none := rfl

theorem Fixings.spin?_cons (i k : Nat) (spin : Spin) (log : Fixings) :
    Fixings.spin? ((i, spin) :: log) k = if k = i then some spin else log.spin? k := by
  unfold Fixings.spin?
  by_cases h : k = i
  · simp [h]
  · have hbeq : (k == i) = false := beq_false_of_ne h
    simp [List.lookup_cons, hbeq, h]

/-- What was fixed is noted. -/
theorem Fixings.mem_of_spin? {log : Fixings} {i : Nat} {spin : Spin} (h : log.spin? i = some spin) :
    (i, spin) ∈ log := by
  induction log with
  | nil => cases h
  | cons e rest ih =>
    obtain ⟨k, first⟩ := e
    rw [Fixings.spin?_cons] at h
    split at h
    · next heq =>
      cases h
      rw [heq]
      exact List.mem_cons_self
    · exact List.mem_cons_of_mem _ (ih h)

/-- What is noted once is found. -/
theorem Fixings.spin?_of_mem {log : Fixings} (hnodup : (log.map (·.1)).Nodup) {e : Nat × Spin}
    (he : e ∈ log) : log.spin? e.1 = some e.2 := by
  induction log with
  | nil => simp at he
  | cons first rest ih =>
    obtain ⟨i, spin⟩ := first
    obtain ⟨hi, hrest⟩ := List.nodup_cons.mp hnodup
    rw [Fixings.spin?_cons]
    rcases List.mem_cons.mp he with rfl | he
    · simp
    · have hne : e.1 ≠ i := fun heq => hi (List.mem_map.mpr ⟨e, he, heq⟩)
      rw [if_neg hne]
      exact ih hrest he

namespace Model

/-- A run of fixings of forced roots. -/
inductive Fixes {K : Type} [Coefficient K] (foldDominated : Bool) :
    Model K → Fixings → Model K → Prop where
  | done (m : Model K) : Fixes foldDominated m [] m
  | fix {m m' m'' : Model K} {i : Nat} {spin : Spin} {log : Fixings}
      (hroot : m.symbols.IsRoot i) (hchain : m.problem.inChain i = false)
      (hforced : m.problem.forcedSpin foldDominated i = some spin)
      (hpin : ∀ pin, m.problem.pinned.get? i = some pin → pin = spin)
      (hfix : m.fix i spin = .ok m') (hrest : Fixes foldDominated m' log m'') :
      Fixes foldDominated m ((i, spin) :: log) m''

section Run

variable {K : Type} [Coefficient K] {foldDominated : Bool} {m m' m'' : Model K}
  {log log' : Fixings}

/-- Two runs after one another are a run. -/
theorem Fixes.append (h : Fixes foldDominated m log m') (h' : Fixes foldDominated m' log' m'') :
    Fixes foldDominated m (log ++ log') m'' := by
  induction h with
  | done => exact h'
  | fix hroot hchain hforced hpin hfix _ ih => exact .fix hroot hchain hforced hpin hfix (ih h')

/-- What a run of fixings does to a model. -/
structure Propagated (m : Model K) (log : Fixings) (m' : Model K) : Prop where
  wellLinked : m'.WellLinked
  size : m'.symbols.size = m.symbols.size
  isRoot : ∀ e ∈ log, m.symbols.IsRoot e.1
  nodup : (log.map (·.1)).Nodup
  root? : ∀ k, m'.symbols.root? k =
    (m.symbols.root? k).bind fun r => if (log.spin? r).isSome then none else some r
  byName : ∀ name, m'.symbols.byName.get? name =
    if ((m.symbols.lookup? name).bind log.spin?).isSome then none
    else m.symbols.byName.get? name
  knownValues : ∀ name, m'.problem.knownValues.get? name =
    ((m.symbols.lookup? name).bind log.spin?).or (m.problem.knownValues.get? name)
  respects : ∀ s : Assignment, m'.symbols.Respects s ↔ m.symbols.Respects s
  mode : m'.problem.mode = m.problem.mode
  chains : m'.problem.chains = m.problem.chains
  assertions : m'.problem.assertions = m.problem.assertions
  feasible_iff : ∀ s : Assignment, (∀ e ∈ log, s e.1 = some e.2) → (m'.Feasible s ↔ m.Feasible s)

/-- A run of fixings makes a feasible problem over the remaining roots. -/
theorem Fixes.propagated (h : Fixes foldDominated m log m') (hm : m.WellLinked) :
    m.Propagated log m' := by
  induction h with
  | done m =>
    refine ⟨hm, rfl, by simp, List.nodup_nil, fun k => by simp, fun name => ?_, fun name => ?_,
      fun _ => Iff.rfl, rfl, rfl, rfl, fun _ _ => Iff.rfl⟩
    · cases m.symbols.lookup? name <;> simp
    · cases m.symbols.lookup? name <;> simp
  | @fix m m' m'' i spin log hroot hchain hforced hpin hfix _ ih =>
    have hfixed := fixed_of_ok hfix hm hroot hchain
    have hrest := ih hfixed.wellLinked
    have hlater : ∀ e ∈ log, m.symbols.IsRoot e.1 ∧ e.1 ≠ i := fun e he =>
      (hfixed.isRoot e.1).mp (hrest.isRoot e he)
    refine ⟨hrest.wellLinked, hrest.size.trans hfixed.size, ?_, ?_, fun k => ?_, fun name => ?_,
      fun name => ?_, fun s => (hrest.respects s).trans (hfixed.respects s),
      hrest.mode.trans hfixed.mode, hrest.chains.trans hfixed.chains,
      hrest.assertions.trans hfixed.assertions, fun s hs => ?_⟩
    · intro e he
      rcases List.mem_cons.mp he with rfl | he
      · exact hroot
      · exact (hlater e he).1
    · refine List.nodup_cons.mpr ⟨fun hmem => ?_, hrest.nodup⟩
      obtain ⟨e, he, heq⟩ := List.mem_map.mp hmem
      exact (hlater e he).2 heq
    · rw [hrest.root?, hfixed.root?]
      cases m.symbols.root? k with
      | none => rfl
      | some r => by_cases hr : r = i <;> simp [Fixings.spin?_cons, hr]
    · rw [hrest.byName, hfixed.lookup?, hfixed.byName]
      cases m.symbols.lookup? name with
      | none => simp
      | some r => by_cases hr : r = i <;> simp [Fixings.spin?_cons, hr]
    · rw [hrest.knownValues, hfixed.lookup?, hfixed.knownValues]
      cases m.symbols.lookup? name with
      | none => simp
      | some r => by_cases hr : r = i <;> simp [Fixings.spin?_cons, hr]
    · have hi : s i = some spin := hs (i, spin) List.mem_cons_self
      rw [hrest.feasible_iff s fun e he => hs e (List.mem_cons_of_mem _ he),
        hfixed.feasible_iff hpin hi]

/-- A spin that is forced, but not by dominance, is that of a pin. -/
theorem pinned_of_forcedSpin {p : Problem K} {i : Nat} {spin : Spin}
    (h : p.forcedSpin false i = some spin) : p.pinned.get? i = some spin := by
  unfold Problem.forcedSpin at h
  simp only [Bool.false_eq_true, if_false, Option.or_none] at h
  unfold Problem.releasedPin at h
  split at h
  · exact h
  · cases h

/-- Without dominance, every feasible assignment has the spins of a run of fixings. -/
theorem Fixes.eq_of_feasible (h : Fixes false m log m') (hm : m.WellLinked) {s : Assignment}
    (hs : m.Feasible s) : ∀ e ∈ log, s e.1 = some e.2 := by
  induction h with
  | done => simp
  | fix hroot hchain hforced hpin hfix _ ih =>
    have hfixed := fixed_of_ok hfix hm hroot hchain
    have hi := hs.pins _ _ (pinned_of_forcedSpin hforced)
    exact List.forall_mem_cons.mpr
      ⟨hi, ih hfixed.wellLinked ((hfixed.feasible_iff hpin hi).mpr hs)⟩

end Run

/-- A run of fixings keeps the energy of an assignment with the spins that were fixed. -/
theorem Fixes.energy_eq {foldDominated : Bool} {m m' : Model ℚ} {log : Fixings}
    (h : Fixes foldDominated m log m') (hm : m.WellLinked) {s : Assignment}
    (hs : ∀ e ∈ log, s e.1 = some e.2) : m'.problem.energy s = m.problem.energy s := by
  induction h with
  | done => rfl
  | fix hroot hchain hforced hpin hfix _ ih =>
    have hfixed := fixed_of_ok hfix hm hroot hchain
    rw [ih hfixed.wellLinked fun e he => hs e (List.mem_cons_of_mem _ he)]
    exact energy_fix hfix hm hroot (hs _ List.mem_cons_self)

section Noting

variable {K : Type} [Coefficient K] {foldDominated : Bool} {m : Model K}

/-- Fixes a variable if it is forced and in no chain, and notes it. -/
def noteIfForced (foldDominated : Bool) (state : Fixings × Model K) (i : Nat) :
    Except SimplifyError (Fixings × Model K) := do
  let (log, m) := state
  if m.problem.inChain i then return state
  match m.problem.forcedSpin foldDominated i with
  | none => return state
  | some spin =>
    match m.problem.pinned.get? i with
    | some pin =>
      if pin ≠ spin then throw (.contradiction (m.symbols.namesOf i) pin spin)
    | none => pure ()
    return (log ++ [(i, spin)], ← m.fix i spin)

/-- The rounds of a propagation, with notes in place of a count. -/
def noteRounds (foldDominated : Bool) :
    Nat → Fixings × Model K → Except SimplifyError (Fixings × Model K)
  | 0, state => .ok state
  | rounds + 1, state => do
    let next ← state.2.problem.activeIndices.foldlM (noteIfForced foldDominated) state
    if next.1.length = state.1.length then return next
    noteRounds foldDominated rounds next

/-- Fixes forced variables until nothing changes, and returns what was fixed. -/
def noteConstants (m : Model K) (foldDominated : Bool) : Except SimplifyError (Fixings × Model K) :=
  noteRounds foldDominated (m.problem.activeIndices.length + 1) ([], m)

/-- The state that the notes stand for. -/
def countNotes (state : Fixings × Model K) : Nat × Model K := (state.1.length, state.2)

theorem fixIfForced_countNotes (state : Fixings × Model K) (i : Nat) :
    fixIfForced foldDominated (countNotes state) i =
      (noteIfForced foldDominated state i).map countNotes := by
  obtain ⟨log, m⟩ := state
  unfold fixIfForced noteIfForced
  simp only [countNotes]
  by_cases hchain : m.problem.inChain i = true
  · simp only [hchain, if_true]
    rfl
  · simp only [hchain, if_false, Bool.false_eq_true]
    cases m.problem.forcedSpin foldDominated i with
    | none => rfl
    | some spin =>
      have hfix :
          (do return (log.length + 1, ← m.fix i spin) : Except SimplifyError (Nat × Model K)) =
          (do return (log ++ [(i, spin)], ← m.fix i spin)).map countNotes := by
        cases m.fix i spin with
        | error e => rfl
        | ok next => simp [Bind.bind, Except.bind, Except.map, Pure.pure, Except.pure, countNotes]
      cases m.problem.pinned.get? i with
      | none => exact hfix
      | some pin =>
        simp only
        by_cases hpin : pin = spin
        · simpa only [hpin, ne_eq, not_true, if_false] using hfix
        · simp only [ne_eq, hpin, not_false_eq_true, if_true]
          rfl

theorem foldlM_countNotes (indices : List Nat) (state : Fixings × Model K) :
    indices.foldlM (fixIfForced foldDominated) (countNotes state) =
      (indices.foldlM (noteIfForced foldDominated) state).map countNotes := by
  induction indices generalizing state with
  | nil => rfl
  | cons i rest ih =>
    rw [List.foldlM_cons, List.foldlM_cons, fixIfForced_countNotes]
    cases noteIfForced foldDominated state i with
    | error e => rfl
    | ok next => exact ih next

theorem propagateRounds_countNotes (rounds : Nat) (state : Fixings × Model K) :
    propagateRounds foldDominated rounds (countNotes state) =
      (noteRounds foldDominated rounds state).map countNotes := by
  induction rounds generalizing state with
  | zero => rfl
  | succ rounds ih =>
    unfold propagateRounds noteRounds
    rw [show (countNotes state).2 = state.2 from rfl, foldlM_countNotes]
    cases state.2.problem.activeIndices.foldlM (noteIfForced foldDominated) state with
    | error e => rfl
    | ok next =>
      simp only [Except.map, Bind.bind, Except.bind]
      rw [show (countNotes next).1 = next.1.length from rfl,
        show (countNotes state).1 = state.1.length from rfl]
      split
      · rfl
      · exact ih next

/-- A propagation counts what its noting twin notes, and ends in the same model. -/
theorem propagateConstants_eq_countNotes :
    m.propagateConstants foldDominated = (m.noteConstants foldDominated).map countNotes :=
  propagateRounds_countNotes _ ([], m)

/-- A propagation that succeeds has a noting twin that does. -/
theorem exists_noteConstants {m' : Model K} {count : Nat}
    (h : m.propagateConstants foldDominated = .ok (count, m')) :
    ∃ log, m.noteConstants foldDominated = .ok (log, m') := by
  rw [propagateConstants_eq_countNotes] at h
  cases hnotes : m.noteConstants foldDominated with
  | error e =>
    rw [hnotes] at h
    cases h
  | ok noted =>
    rw [hnotes] at h
    cases h
    exact ⟨_, rfl⟩

variable {m' : Model K} {log log' : Fixings}

/-- A visit changes nothing, or it fixes a forced spin that the pin allows. -/
theorem noteIfForced_eq_ok {i : Nat}
    (h : noteIfForced foldDominated (log, m) i = .ok (log', m')) :
    (log', m') = (log, m) ∨ ∃ spin, m.problem.inChain i = false ∧
      m.problem.forcedSpin foldDominated i = some spin ∧
      (∀ pin, m.problem.pinned.get? i = some pin → pin = spin) ∧
      m.fix i spin = .ok m' ∧ log' = log ++ [(i, spin)] := by
  unfold noteIfForced at h
  simp only at h
  cases hchain : m.problem.inChain i with
  | true =>
    simp only [hchain, if_true] at h
    exact .inl (Except.ok.inj h).symm
  | false =>
    simp only [hchain, Bool.false_eq_true, if_false] at h
    cases hforced : m.problem.forcedSpin foldDominated i with
    | none =>
      rw [hforced] at h
      exact .inl (Except.ok.inj h).symm
    | some spin =>
      simp only [hforced] at h
      refine .inr ⟨spin, rfl, rfl, ?_⟩
      cases hpin : m.problem.pinned.get? i with
      | none =>
        simp only [hpin] at h
        obtain ⟨next, hfix, h⟩ := bind_eq_ok.mp h
        cases h
        exact ⟨by simp, hfix, rfl⟩
      | some pin =>
        by_cases heq : pin = spin
        · simp only [hpin, heq, ne_eq, not_true, if_false] at h
          obtain ⟨next, hfix, h⟩ := bind_eq_ok.mp h
          cases h
          exact ⟨fun other hother => (Option.some.inj hother).symm.trans heq, hfix, rfl⟩
        · simp only [hpin, heq, ne_eq, not_false_eq_true, if_true] at h
          cases h

/-- A visit to a root fixes it or changes nothing, and leaves the other roots roots. -/
theorem fixes_of_noteIfForced {i : Nat} (hm : m.WellLinked) (hi : m.symbols.IsRoot i)
    (h : noteIfForced foldDominated (log, m) i = .ok (log', m')) :
    ∃ steps, log' = log ++ steps ∧ Fixes foldDominated m steps m' ∧
      ∀ k, k ≠ i → m.symbols.IsRoot k → m'.symbols.IsRoot k := by
  rcases noteIfForced_eq_ok h with heq | ⟨spin, hchain, hforced, hpin, hfix, rfl⟩
  · cases heq
    exact ⟨[], (List.append_nil log).symm, .done m, fun k _ hk => hk⟩
  · refine ⟨[(i, spin)], rfl, .fix hi hchain hforced hpin hfix (.done _), fun k hk hroot => ?_⟩
    exact ((fixed_of_ok hfix hm hi hchain).isRoot k).mpr ⟨hroot, hk⟩

/-- A round over distinct roots is a run of fixings. -/
theorem fixes_of_round (indices : List Nat) (hnodup : indices.Nodup) (hm : m.WellLinked)
    (hroots : ∀ i ∈ indices, m.symbols.IsRoot i)
    (h : indices.foldlM (noteIfForced foldDominated) (log, m) = .ok (log', m')) :
    ∃ steps, log' = log ++ steps ∧ Fixes foldDominated m steps m' := by
  induction indices generalizing log m with
  | nil =>
    cases h
    exact ⟨[], (List.append_nil _).symm, .done _⟩
  | cons i rest ih =>
    obtain ⟨⟨log₁, m₁⟩, hvisit, h⟩ := foldlM_cons_eq_ok.mp h
    obtain ⟨steps, rfl, hsteps, hothers⟩ :=
      fixes_of_noteIfForced hm (hroots i List.mem_cons_self) hvisit
    obtain ⟨hi, hrest⟩ := List.nodup_cons.mp hnodup
    have hroots' : ∀ k ∈ rest, m₁.symbols.IsRoot k := fun k hk =>
      hothers k (fun heq => hi (heq ▸ hk)) (hroots k (List.mem_cons_of_mem _ hk))
    obtain ⟨more, rfl, hmore⟩ := ih hrest (hsteps.propagated hm).wellLinked hroots' h
    exact ⟨steps ++ more, List.append_assoc .., hsteps.append hmore⟩

/-- Rounds make a run of fixings. -/
theorem fixes_of_noteRounds (rounds : Nat) (hm : m.WellLinked)
    (h : noteRounds foldDominated rounds (log, m) = .ok (log', m')) :
    ∃ steps, log' = log ++ steps ∧ Fixes foldDominated m steps m' := by
  induction rounds generalizing log m with
  | zero =>
    cases h
    exact ⟨[], (List.append_nil _).symm, .done _⟩
  | succ rounds ih =>
    unfold noteRounds at h
    obtain ⟨⟨log₁, m₁⟩, hround, h⟩ := bind_eq_ok.mp h
    obtain ⟨steps, rfl, hsteps⟩ := fixes_of_round _ (Table.nodup_keys _) hm
      (fun i hi => hm.isOver.mem_activeIndices hi) hround
    dsimp only at h
    split at h
    · cases h
      exact ⟨steps, rfl, hsteps⟩
    · obtain ⟨more, rfl, hmore⟩ := ih (hsteps.propagated hm).wellLinked h
      exact ⟨steps ++ more, List.append_assoc .., hsteps.append hmore⟩

/-- A propagation is a run of fixings. -/
theorem fixes_of_noteConstants (hm : m.WellLinked)
    (h : m.noteConstants foldDominated = .ok (log, m')) : Fixes foldDominated m log m' := by
  obtain ⟨steps, rfl, hsteps⟩ := fixes_of_noteRounds _ hm h
  exact hsteps

end Noting

end Model

end SpinGlass

import SpinGlass.Proofs.Simplify.Inference
import SpinGlass.Proofs.Simplify.Names
import SpinGlass.Proofs.Simplify.Optima

/-!
# What a simplification comes to

The indices of a simplified model are new ones. What its names show of it is known from the model
before: the values are the inferred spins, two names that are left share an index if they are tied,
and the least energy is that of the model before. An error reports a spin that contradicts a pin.
-/

namespace SpinGlass

/-- The least value is that of the minimizers. -/
theorem isLeast_image_iff {energy : Assignment → ℚ} {among : Set Assignment} {e : ℚ} :
    IsLeast (energy '' among) e ↔ ∃ s ∈ minimizers energy among, energy s = e := by
  constructor
  · rintro ⟨⟨s, hs, rfl⟩, hleast⟩
    exact ⟨s, ⟨hs, fun u hu => hleast (Set.mem_image_of_mem energy hu)⟩, rfl⟩
  · rintro ⟨s, ⟨hs, hleast⟩, rfl⟩
    refine ⟨Set.mem_image_of_mem energy hs, ?_⟩
    rintro _ ⟨u, hu, rfl⟩
    exact hleast u hu

namespace Model

/-- The energies of the assignments that meet pins and chains. -/
def energies (m : Model ℚ) : Set ℚ :=
  m.problem.energy ''
    {s | s.IsOver m.symbols.size ∧ m.problem.MeetsPins s ∧ m.problem.MeetsChains s}

/-- The energies of the assignments that meet the pins. -/
def pinnedEnergies (m : Model ℚ) : Set ℚ :=
  m.problem.energy '' {s | s.IsOver m.symbols.size ∧ m.problem.MeetsPins s}

/-- What a simplification that succeeds comes to, with the spins that were inferred on its way. -/
structure Outcome (m : Model ℚ) (foldDominated : Bool) (known : Assignment) (m' : Model ℚ) :
    Prop where
  infers : m.Infers foldDominated known
  settles : m.Settles foldDominated known
  knownValues : ∀ name,
    m'.problem.knownValues.get? name = (m.symbols.byName.get? name).bind known
  lookup?_eq_none_iff : ∀ name, m'.symbols.lookup? name = none ↔
    ∀ i, m.symbols.byName.get? name = some i → ∃ spin, known i = some spin
  lookup?_eq_iff : ∀ {a b i k}, m.symbols.byName.get? a = some i →
    m.symbols.byName.get? b = some k → known i = none → known k = none →
    (m'.symbols.lookup? a = m'.symbols.lookup? b ↔ m.Tied i k)
  exists_isLeast : ∃ e, IsLeast m'.pinnedEnergies e ∧ IsLeast m.energies e

namespace Stages

variable {m aliased fixed m' : Model ℚ} {n : Nat} {foldDominated : Bool} {r : Reduction}
  {name : String} {i : Nat} (h : m.Stages foldDominated r aliased fixed m')

include h

/-- The stages of a simplification are reached on its way. -/
theorem reached (hm : m.Prepared n) : m.Reached n foldDominated aliased r.fixings fixed :=
  ⟨hm, h.merges, h.fixes⟩

/-- A name with an index has the inferred spin as its value. -/
theorem knownValues_eq_bind (hknown : m.problem.knownValues = .empty) (name : String) :
    m'.problem.knownValues.get? name =
      (m.symbols.byName.get? name).bind (aliased.symbols.known r.fixings) := by
  rw [h.knownValues_eq, hknown, Table.get?_empty, Option.or_none]
  cases hname : m.symbols.byName.get? name with
  | none =>
    have hlookup : aliased.symbols.lookup? name = none := by
      unfold Symbols.lookup?
      rw [h.isAliased.byName]
      simp [mapProblem, hname]
    rw [hlookup]
    rfl
  | some i =>
    rw [h.lookup?_aliased hname]
    rfl

variable (hplain : m.symbols.Plain)

include hplain

/-- A name whose spin is not inferred has the number of its root. -/
theorem lookup?_of_unknown (hname : m.symbols.byName.get? name = some i)
    (hnone : aliased.symbols.known r.fixings i = none) :
    ∃ root, aliased.symbols.root? i = some root ∧ fixed.symbols.IsRoot root ∧
      m'.symbols.lookup? name = some (fixed.symbols.rank root) := by
  have hi := hplain.lt_size name i hname
  obtain ⟨root, hroot⟩ := h.rooted i
  unfold Symbols.known at hnone
  rw [hroot] at hnone
  refine ⟨root, hroot, h.isRoot_of_left hroot hnone hi, ?_⟩
  rw [(h.plain hplain).lookup?, h.name_of_left hi hname hroot hnone]

/-- The names that are left are those of variables whose spins are not inferred. -/
theorem lookup?_eq_none_iff (name : String) : m'.symbols.lookup? name = none ↔
    ∀ i, m.symbols.byName.get? name = some i →
      ∃ spin, aliased.symbols.known r.fixings i = some spin := by
  constructor
  · intro hlookup i hname
    refine Option.ne_none_iff_exists'.mp fun hnone => ?_
    obtain ⟨root, _, _, hsome⟩ := h.lookup?_of_unknown hplain hname hnone
    rw [hlookup] at hsome
    cases hsome
  · intro hknown
    rw [(h.plain hplain).lookup?, Option.eq_none_iff_forall_ne_some]
    intro k hk
    obtain ⟨i, root, hname, hroot, hfree⟩ := h.exists_root_of_name hk
    obtain ⟨spin, hspin⟩ := hknown i hname
    unfold Symbols.known at hspin
    rw [hroot, Option.bind_some, hfree] at hspin
    cases hspin

/-- Names that are left share an index if they are tied. -/
theorem lookup?_eq_iff (hm : m.Prepared n) {a b : String} {k : Nat}
    (ha : m.symbols.byName.get? a = some i) (hb : m.symbols.byName.get? b = some k)
    (hi : aliased.symbols.known r.fixings i = none)
    (hk : aliased.symbols.known r.fixings k = none) :
    m'.symbols.lookup? a = m'.symbols.lookup? b ↔ m.Tied i k := by
  obtain ⟨root, hroot, hleft, hlookup⟩ := h.lookup?_of_unknown hplain ha hi
  obtain ⟨root', hroot', hleft', hlookup'⟩ := h.lookup?_of_unknown hplain hb hk
  rw [hlookup, hlookup', ← (h.reached hm).root?_eq_iff, hroot, hroot', Option.some.injEq,
    Option.some.injEq]
  constructor
  · exact Symbols.eq_of_rank_eq hleft hleft'
  · rintro rfl
    rfl

omit hplain in
/-- The least energy under the new pins is that under the old pins and chains. -/
theorem exists_isLeast (hm : m.Prepared n) :
    ∃ e, IsLeast m'.pinnedEnergies e ∧ IsLeast m.energies e := by
  obtain ⟨t, ht⟩ := exists_mem_minimizers m'.problem.energy (fun t ht => ht.1)
    (Problem.exists_meetsPins h.isOver_simplified)
  refine ⟨_, isLeast_image_iff.mpr ⟨t, ht, rfl⟩, isLeast_image_iff.mpr ⟨_,
    (h.bijOn_optima hm.isOver hm.pending).mapsTo ht, ?_⟩⟩
  exact (h.energy_extend ht.1.1.covers hm.isOver hm.pending).symm

end Stages

variable {m m' : Model ℚ} {n : Nat} {foldDominated : Bool}

/-- A simplification that succeeds infers spins until nothing is evident. -/
theorem exists_outcome {report : SimplifyReport} (hm : m.Prepared n) (hplain : m.symbols.Plain)
    (hknown : m.problem.knownValues = .empty)
    (h : m.simplify foldDominated = .ok (report, m')) :
    ∃ known, m.Outcome foldDominated known m' := by
  obtain ⟨r, aliased, fixed, _, hstages⟩ := stages_of_simplify hm.isOver hm.pending h
  have hreached := hstages.reached hm
  exact ⟨aliased.symbols.known r.fixings, hreached.infers, hreached.settles hstages.settled,
    hstages.knownValues_eq_bind hknown, hstages.lookup?_eq_none_iff hplain,
    hstages.lookup?_eq_iff hplain hm, hstages.exists_isLeast hm⟩

/-- A conflict on the way of a simplification is about a spin that contradicts a pin, and its names
are those of the variable. -/
theorem Conflict.contradicts {a c : Model ℚ} {log : Fixings} {i : Nat} {pin spin : Spin}
    (h : a.Conflict foldDominated log c i pin spin) (hm : m.Prepared n)
    (haliases : (m.mapProblem (·.pruneZeros)).Aliases a) :
    m.Contradicts foldDominated (a.symbols.known log) i pin spin ∧
      ∀ name, name ∈ c.symbols.namesOf i ↔
        ∃ k, m.symbols.byName.get? name = some k ∧ m.Tied i k := by
  have hreached : m.Reached n foldDominated a log c := ⟨hm, haliases, h.fixes⟩
  have hlt : i < m.symbols.size :=
    hreached.propagated.size.trans hreached.isAliased.size ▸ h.isRoot.1
  have hunreleased : ¬ m.Released (a.symbols.known log) i pin := by
    intro hreleased
    have hforced := h.forced
    unfold Problem.forcedSpin at hforced
    dsimp only at hforced
    rw [(hreached.releasedPin_iff h.isRoot).mpr hreleased, Option.some_or] at hforced
    exact h.ne (Option.some.inj hforced)
  refine ⟨⟨hreached.infers, hlt, (hreached.root?_of_isRoot h.isRoot).2,
    hreached.evident_of_forcedSpin h.isRoot h.forced, (hreached.pinned_iff h.isRoot).mp h.pinned,
    hunreleased, h.ne⟩, fun name => ?_⟩
  have hlookup : a.symbols.lookup? name =
      (m.symbols.byName.get? name).bind a.symbols.root? := by
    unfold Symbols.lookup?
    rw [hreached.isAliased.byName]
    rfl
  have hbyName := hreached.propagated.byName name
  rw [hreached.isAliased.byName, hlookup] at hbyName
  rw [Symbols.mem_namesOf]
  unfold Symbols.lookup?
  rw [hbyName]
  cases hname : m.symbols.byName.get? name with
  | none => simp [mapProblem, hname]
  | some k =>
    obtain ⟨r, hr⟩ := hreached.rooted k
    simp only [Option.bind_some, hr, mapProblem, hname, Option.some.injEq, exists_eq_left',
      hreached.tied_iff h.isRoot]
    cases hspin : log.spin? r with
    | none =>
      simp [hreached.propagated.root?, hr, hspin]
    | some other =>
      have hne : r ≠ i := by
        rintro rfl
        rw [(hreached.isRoot_iff.mp h.isRoot).2] at hspin
        cases hspin
      simp [hne]

/-- If pins and chains can be met, all that stops a simplification is a spin that contradicts a
pin. -/
theorem exists_contradicts {e : SimplifyError} {s : Assignment} (hm : m.Prepared n)
    (hplain : m.symbols.Plain) (hpins : m.problem.MeetsPins s) (hchains : m.problem.MeetsChains s)
    (h : m.simplify foldDominated = .error e) :
    ∃ known i pin spin names, m.Contradicts foldDominated known i pin spin ∧
      e = .contradiction names pin spin ∧
      ∀ name, name ∈ names ↔ ∃ k, m.symbols.byName.get? name = some k ∧ m.Tied i k := by
  have hlinked := wellLinked_pruneZeros hm.isOver hm.pending
  have hfeasible : (m.mapProblem (·.pruneZeros)).Feasible s :=
    ⟨Symbols.respects_of_pending hm.pending s, hpins, hchains⟩
  rcases simplify_eq_error h with haliases | ⟨count, a, haliases, hpropagate | hcompact⟩
  · obtain ⟨_, _, hok⟩ := exists_aliasRounds_eq_ok hlinked hfeasible _ 0
    unfold aliasChains at haliases
    rw [haliases] at hok
    cases hok
  · have hrun := aliases_of_aliasRounds hlinked le_rfl haliases
    obtain ⟨log, c, i, pin, spin, hconflict, rfl⟩ :=
      reports_of_propagateConstants (hrun.aliased hlinked).wellLinked hpropagate
    obtain ⟨hcontradicts, hnames⟩ := hconflict.contradicts hm hrun
    exact ⟨_, i, pin, spin, _, hcontradicts, rfl, hnames⟩
  · obtain ⟨_, _, hpropagate, hcompact⟩ := hcompact
    have ha := (aliases_of_aliasRounds hlinked le_rfl haliases).aliased hlinked
    obtain ⟨log, _, hfixes⟩ := exists_fixes_of_propagateConstants ha.wellLinked hpropagate
    obtain ⟨_, _, hok⟩ :=
      exists_compact_of_propagated ha (hfixes.propagated ha.wellLinked) hplain.lt_size
    rw [hcompact] at hok
    cases hok

end Model

end SpinGlass

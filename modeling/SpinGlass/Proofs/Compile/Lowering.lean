import SpinGlass.Compile.Basic
import SpinGlass.Proofs.Physical.Placement
import SpinGlass.Proofs.Problem.Domains
import SpinGlass.Proofs.Simplify.Names

/-!
# From a program to the embedded problem

The passes before the embedding are put together here. An assignment of the embedded problem
extends to the indices of the built one, so that every name of the program keeps its spin, and what
meets the pins and chains of the embedded problem meets those of the program.
-/

namespace SpinGlass

namespace CompileOptions

variable {K : Type} [Coefficient K]

/-- The assignment of the indices before simplification. -/
def extend (o : CompileOptions K) (m : Model K) (t : Assignment) : Assignment :=
  if o.optimize then
    match m.reduction o.foldDominated with
    | .ok r => r.extend t
    | .error _ => t
  else t

/-- What simplifying, if it is asked for, does to a model without links. -/
structure Lowers (o : CompileOptions K) (m m' : Model K) : Prop where
  indexed : m'.Indexed
  knownApart : m'.KnownApart
  spinOf : ∀ name i, m.symbols.byName.get? name = some i →
    ∀ t, m'.spinOf t name = o.extend m t i
  covers : ∀ t : Assignment, t.Covers m'.symbols.size → (o.extend m t).Covers m.symbols.size
  meetsPins : ∀ t, m'.problem.MeetsPins t → m.problem.MeetsPins (o.extend m t)
  meetsChains_iff : ∀ t, m'.problem.MeetsPins t →
    (m'.problem.MeetsChains t ↔ m.problem.MeetsChains (o.extend m t))
  noChains : o.optimize = true → ∀ t, m'.problem.MeetsChains t
  mode : m'.problem.mode = m.problem.mode
  assertions : m'.problem.assertions = m.problem.assertions

/-- Simplifying goes through its stages if it is asked for, and otherwise nothing is done. -/
theorem simplify_cases {o : CompileOptions K} {m m' : Model K} (hm : m.Indexed)
    {report : Option SimplifyReport} (h : o.simplify m = .ok (report, m')) :
    (∃ r aliased fixed, m.Stages o.foldDominated r aliased fixed m' ∧
      ∀ t, o.extend m t = r.extend t) ∨
    o.optimize = false ∧ m' = m ∧ ∀ t, o.extend m t = t := by
  unfold simplify at h
  cases hoptimize : o.optimize with
  | true =>
    simp only [hoptimize, if_true] at h
    split at h
    · next hsimplify =>
      cases h
      obtain ⟨r, aliased, fixed, hr, hstages⟩ :=
        Model.stages_of_simplify hm.isOver hm.plain.pending hsimplify
      refine .inl ⟨r, aliased, fixed, hstages, fun t => ?_⟩
      simp [extend, hoptimize, hr]
    · cases h
  | false =>
    simp only [hoptimize, Bool.false_eq_true, if_false] at h
    cases h
    refine .inr ⟨rfl, rfl, fun t => ?_⟩
    simp [extend, hoptimize]

/-- The stages of a simplification lower a model. -/
theorem lowers_of_stages {o : CompileOptions K} {m m' aliased fixed : Model K} {r : Reduction}
    (hm : m.Indexed) (hknown : m.problem.knownValues = .empty)
    (hstages : m.Stages o.foldDominated r aliased fixed m')
    (hextend : ∀ t, o.extend m t = r.extend t) : o.Lowers m m' := by
  have hchains : ∀ t, m'.problem.MeetsChains t := by
    intro t q hq
    rw [hstages.problem] at hq
    obtain ⟨q', hq', _⟩ :=
      (Problem.contains_renumber_chains hstages.ranks hstages.isOver_fixed).mp hq
    rw [hstages.chains_fixed] at hq'
    cases hq'
  refine ⟨⟨hstages.plain hm.plain, hstages.isOver_simplified⟩, hstages.knownApart hknown,
    fun name i hname t => ?_, fun t ht => ?_, fun t hpins => ?_, fun t hpins => ?_,
    fun _ => hchains, ?_, ?_⟩
  · rw [hextend]
    exact hstages.spinOf_eq hm.plain hname
  · rw [hextend]
    exact hstages.covers_extend ht
  · rw [hextend]
    exact (hstages.meets_extend hm.plain.pending hpins).1
  · rw [hextend]
    exact ⟨fun _ => (hstages.meets_extend hm.plain.pending hpins).2, fun _ => hchains t⟩
  · rw [hstages.problem]
    exact hstages.isPropagated.mode.trans hstages.isAliased.mode
  · rw [hstages.problem]
    exact hstages.isPropagated.assertions.trans hstages.isAliased.assertions

/-- A model that is simplified if that is asked for is lowered. -/
theorem lowers_of_simplify {o : CompileOptions K} {m m' : Model K} (hm : m.Indexed)
    (hknown : m.problem.knownValues = .empty) {report : Option SimplifyReport}
    (h : o.simplify m = .ok (report, m')) : o.Lowers m m' := by
  rcases simplify_cases hm h with ⟨r, aliased, fixed, hstages, hextend⟩ |
    ⟨hoptimize, rfl, hextend⟩
  · exact lowers_of_stages hm hknown hstages hextend
  · refine ⟨hm, fun name i _ => by simp [hknown], fun name i hname t => ?_, fun t ht => ?_,
      fun t hpins => ?_, fun t _ => ?_, fun htrue => ?_, rfl, rfl⟩
    · rw [hextend]
      exact Model.spinOf_of_byName hm.plain hname
    · rwa [hextend]
    · rwa [hextend]
    · rw [hextend]
    · rw [hoptimize] at htrue
      cases htrue

end CompileOptions

section Compile

variable {K : Type} [Coefficient K]

/-- The passes of a compilation that succeeds. -/
structure Passes (o : CompileOptions K) (program : Program K) (target : Target) (cancelled : Bool)
    (built helped : Model K) (c : Compiled K) : Prop where
  build : Model.build (o.statements program) o.mode .empty = .ok built
  helpers : helped = (built.mapProblem (·.toIsing)).pinWithHelpers
    ((built.problem.toIsing.assignStrengths o.chainStrength o.pinStrength).pin)
  simplify : ∃ report, o.simplify helped = .ok (report, c.model)
  embeddable : CompileOptions.checkEmbeddable c.model = .ok ()
  place : o.place c.model target
    (built.problem.toIsing.assignStrengths o.chainStrength o.pinStrength).chain cancelled =
      .ok c.physical
  options : c.options = o

/-- A compilation that succeeds goes through its passes. -/
theorem passes_of_compile {o : CompileOptions K} {program : Program K} {target : Target}
    {cancelled : Bool} {c : Compiled K} (h : compile o program target cancelled = .ok c) :
    ∃ built helped, Passes o program target cancelled built helped c := by
  unfold compile at h
  obtain ⟨built, hbuild, h⟩ := bind_eq_ok.mp h
  obtain ⟨⟨report, m⟩, hsimplify, h⟩ := bind_eq_ok.mp h
  obtain ⟨⟨⟩, hembeddable, h⟩ := bind_eq_ok.mp h
  obtain ⟨physical, hplace, h⟩ := bind_eq_ok.mp h
  cases h
  exact ⟨built, _, mapError_eq_ok.mp hbuild, rfl, ⟨report, hsimplify⟩, hembeddable,
    mapError_eq_ok.mp hplace, rfl⟩

variable {o : CompileOptions K} {program : Program K} {target : Target} {cancelled : Bool}
  {built helped : Model K} {c : Compiled K}

namespace Passes

variable (h : Passes o program target cancelled built helped c)

include h

theorem builds : (⟨.empty o.mode, .empty⟩ : Model K).Builds (o.statements program) o.mode built :=
  Model.builds_of_build h.build

/-- The built problem over spins. -/
theorem indexed_toIsing : (built.mapProblem (·.toIsing)).Indexed :=
  ⟨h.builds.built.plain, (Problem.toIsing_spec h.builds.built.isOver).1⟩

theorem isHelped : (built.mapProblem (·.toIsing)).Helped helped := by
  rw [h.helpers]
  exact Model.helped_pinWithHelpers h.indexed_toIsing _

theorem knownValues_helped : helped.problem.knownValues = .empty :=
  h.isHelped.knownValues.trans
    ((Problem.toIsing_spec h.builds.built.isOver).2.knownValues.trans h.builds.built.knownValues)

theorem lowers : o.Lowers helped c.model := by
  obtain ⟨report, hsimplify⟩ := h.simplify
  exact CompileOptions.lowers_of_simplify h.isHelped.indexed h.knownValues_helped hsimplify

theorem mode : c.model.problem.mode = .ising :=
  h.lowers.mode.trans
    (h.isHelped.mode.trans (Problem.toIsing_spec h.builds.built.isOver).2.mode)

theorem assertions :
    c.model.problem.assertions = (o.statements program).filterMap (·.assertion?) := by
  rw [h.lowers.assertions, h.isHelped.assertions]
  exact ((Problem.toIsing_spec h.builds.built.isOver).2.assertions).trans h.builds.assertions

/-- An assertion of the program is one of the compiled problem. -/
theorem mem_assertions_iff {e : Expr} :
    e ∈ c.model.problem.assertions ↔ .assert e ∈ o.statements program := by
  rw [h.assertions, List.mem_filterMap]
  constructor
  · rintro ⟨s, hs, he⟩
    cases s <;> cases he
    exact hs
  · exact fun hs => ⟨_, hs, rfl⟩

/-- A name of the program has an index, and it keeps its spin. -/
theorem spinOf {s : Statement K} (hs : s ∈ o.statements program) {name : String}
    (hname : name ∈ s.names) (t : Assignment) :
    ∃ i < built.symbols.size, c.model.spinOf t name = o.extend helped t i ∧
      built.symbols.spinOf (o.extend helped t) name = o.extend helped t i := by
  obtain ⟨i, hi⟩ := h.builds.named s hs name hname
  refine ⟨i, h.builds.built.plain.lt_size name i hi, ?_, h.builds.built.spinOf_eq hi _⟩
  exact h.lowers.spinOf name i (h.isHelped.grows.byName name i hi) t

theorem spinOf_names {s : Statement K} (hs : s ∈ o.statements program) (t : Assignment) :
    ∀ name ∈ s.names,
      c.model.spinOf t name = built.symbols.spinOf (o.extend helped t) name := by
  intro name hname
  obtain ⟨i, _, hspin, hbuilt⟩ := h.spinOf hs hname t
  rw [hspin, hbuilt]

/-- An assignment of the embedded problem assigns all indices of the built one. -/
theorem covers {t : Assignment} (ht : t.Covers c.model.symbols.size) :
    (o.extend helped t).Covers built.symbols.size := fun i hi =>
  h.lowers.covers t ht i (Nat.lt_of_lt_of_le hi h.isHelped.grows.size_le)

/-- Where all variables have a spin, all names of the program have one. -/
theorem exists_spinOf {t : Assignment} (ht : t.Covers c.model.symbols.size) {s : Statement K}
    (hs : s ∈ o.statements program) {name : String} (hname : name ∈ s.names) :
    ∃ spin, c.model.spinOf t name = some spin := by
  obtain ⟨i, hi, hspin, _⟩ := h.spinOf hs hname t
  obtain ⟨spin, heq⟩ := h.covers ht i hi
  exact ⟨spin, hspin.trans heq⟩

/-- The pins of the built problem are those that the helped one has on its indices. -/
theorem pinned_iff {i : Nat} (hi : i < built.symbols.size) (spin : Spin) :
    helped.problem.pinned.get? i = some spin ↔ built.problem.pinned.get? i = some spin := by
  have hsame : (built.mapProblem (·.toIsing)).problem.pinned.get? i =
      built.problem.pinned.get? i :=
    congrArg (·.get? i) (Problem.toIsing_spec h.builds.built.isOver).2.pinned
  rw [← hsame]
  exact ⟨h.isHelped.pinned_old i spin hi, h.isHelped.pinned i spin⟩

/-- What meets the pins of the embedded problem meets those of the program. -/
theorem meetsPin {t : Assignment} (hpins : c.model.problem.MeetsPins t) :
    ∀ s ∈ o.statements program, s.MeetsPin (c.model.spinOf t) := by
  have hbuilt : built.problem.MeetsPins (o.extend helped t) := fun i spin hi =>
    h.lowers.meetsPins t hpins i spin
      ((h.pinned_iff (h.builds.built.isOver.pinned i spin hi) spin).mpr hi)
  intro s hs
  rw [Statement.meetsPin_congr (h.spinOf_names hs t)]
  exact ((h.builds.meetsPins_iff _).mp hbuilt).2 s hs

/-- The chains of the problem with helpers are those of the program. -/
theorem meetsChains_helped_iff (spins : Assignment) : helped.problem.MeetsChains spins ↔
    ∀ s ∈ o.statements program, s.MeetsChain (built.symbols.spinOf spins) := by
  have hchains : helped.problem.chains = built.problem.chains :=
    h.isHelped.chains.trans (Problem.toIsing_spec h.builds.built.isOver).2.chains
  have hbuilt : helped.problem.MeetsChains spins ↔ built.problem.MeetsChains spins := by
    unfold Problem.MeetsChains
    rw [hchains]
  rw [hbuilt, h.builds.meetsChains_iff]
  refine and_iff_right fun q hq => ?_
  cases hq

/-- What meets the pins of the embedded problem meets its chains if it meets the chains of the
program. -/
theorem meetsChains_iff {t : Assignment} (hpins : c.model.problem.MeetsPins t) :
    c.model.problem.MeetsChains t ↔
      ∀ s ∈ o.statements program, s.MeetsChain (c.model.spinOf t) := by
  rw [h.lowers.meetsChains_iff t hpins, h.meetsChains_helped_iff]
  refine forall₂_congr fun s hs => ?_
  rw [Statement.meetsChain_congr (h.spinOf_names hs t)]

/-- The compiled program is placed on a valid embedding and scaled. -/
theorem placed : c.physical.embedding.Valid c.model.symbols.size ∧
    ∃ placed, PhysicalProblem.reconcile c.model.problem c.physical.embedding target
      (built.problem.toIsing.assignStrengths o.chainStrength o.pinStrength).chain = .ok placed ∧
    c.physical = (placed.scale o.limits).2 := by
  have hplace := h.place
  unfold CompileOptions.place at hplace
  obtain ⟨embedding, hembed, hplace⟩ := bind_eq_ok.mp hplace
  obtain ⟨placed, hreconcile, hplace⟩ := bind_eq_ok.mp hplace
  have hvalid := Strategy.valid_of_embed hembed
  rw [LogicalGraph.size_ofProblem h.lowers.indexed.isOver] at hvalid
  have hphysical : (placed.scale o.limits).2 = c.physical := Except.ok.inj hplace
  have hembedding : c.physical.embedding = embedding := by
    rw [← hphysical, PhysicalProblem.embedding_scale]
    exact (PhysicalProblem.place_of_reconcile hreconcile).1
  rw [hembedding]
  exact ⟨hvalid, placed, hreconcile, hphysical.symm⟩

end Passes

end Compile

end SpinGlass

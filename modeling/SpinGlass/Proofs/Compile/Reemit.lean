import SpinGlass.Proofs.Compile.Emittable
import SpinGlass.Proofs.Compile.PinHelpers

/-!
# Programs of compiled problems

A compiled problem is written as a program in either mode, and the program builds a problem that
means the same: it binds the names of the program and of the extra pins, asks of their values what
the compiled problem asks, and has its energy but for a constant.
-/

namespace SpinGlass

variable {K : Type} [Coefficient K]

/-- The names that the statements of a compilation introduce. -/
def CompileOptions.Introduces (o : CompileOptions K) (program : Program K) (name : String) : Prop :=
  ∃ s ∈ o.statements program, name ∈ s.names

namespace Passes

variable {o : CompileOptions K} {program : Program K} {target : Target} {cancelled : Bool}
  {built helped : Model K} {c : Compiled K} (h : Passes o program target cancelled built helped c)

include h

/-- All variables of a compiled problem are coupled or chained. -/
theorem connected : c.model.disconnected = [] := by
  have hcheck := h.embeddable
  unfold CompileOptions.checkEmbeddable at hcheck
  split at hcheck
  · cases hcheck
  · split at hcheck
    · assumption
    · cases hcheck

/-- The helpers of the pins come last. -/
theorem helpersFrom_helped : helped.HelpersFrom built.symbols.size := by
  rw [h.helpers]
  refine Model.helpersFrom_pinWithHelpers h.indexed_toIsing ?_ _
  exact (Problem.toIsing_spec h.builds.built.isOver).2.pinHelpers.trans h.builds.built.pinHelpers

/-- The variables that are no helpers carry the names of the program. -/
theorem namedFrom_helped : helped.NamedFrom built.symbols.size (o.Introduces program) := by
  have hbuilds := h.builds
  have hnamed₀ : built.symbols.Named := Model.named_of_build h.build
  obtain ⟨hnamed, hapart, hold⟩ := Model.names_pinWithHelpers
    (m := built.mapProblem (·.toIsing)) hbuilds.built.plain hnamed₀ hbuilds.built.apart
    (built.problem.toIsing.assignStrengths o.chainStrength o.pinStrength).pin
  rw [← h.helpers] at hnamed hapart hold
  have hintroduced : ∀ name i, built.symbols.byName.get? name = some i →
      o.Introduces program name := fun name i hi =>
    (hbuilds.only name i hi).resolve_right (by simp [Symbols.empty])
  refine ⟨hnamed, fun a b i _ ha hb => hapart a b i ha hb, fun name i hi hname => ?_,
    fun name i hi hname => hintroduced name i (hold name i hi hname), fun name spin hspin => ?_,
    fun name hname => ?_⟩
  · refine (h.isHelped.only name i hname).resolve_right fun hbuilt => ?_
    exact absurd (hbuilds.built.plain.lt_size name i hbuilt) (Nat.not_lt.mpr hi)
  · simp [h.knownValues_helped] at hspin
  · obtain ⟨s, hs, hname⟩ := hname
    obtain ⟨i, hi⟩ := hbuilds.named s hs name hname
    exact .inl ⟨i, hbuilds.built.plain.lt_size name i hi, h.isHelped.grows.byName name i hi⟩

/-- In a compiled problem the helpers come last too, and the other variables and the known values
carry the names of the program. -/
theorem exists_helpersFrom :
    ∃ n, c.model.HelpersFrom n ∧ c.model.NamedFrom n (o.Introduces program) := by
  obtain ⟨report, hsimplify⟩ := h.simplify
  rcases CompileOptions.simplify_cases h.isHelped.indexed hsimplify with
    ⟨r, aliased, fixed, hstages, _⟩ | ⟨_, heq, _⟩
  · exact ⟨_, hstages.helpersFrom h.isHelped.indexed h.helpersFrom_helped,
      hstages.namedFrom h.isHelped.indexed h.helpersFrom_helped h.namedFrom_helped
        h.knownValues_helped⟩
  · rw [heq]
    exact ⟨_, h.helpersFrom_helped, h.namedFrom_helped⟩

end Passes

/-- A name is introduced exactly if it is written in a statement, since the names of assertions are
introduced by others. -/
theorem CompileOptions.introduces_iff {o : CompileOptions K} {program : Program K} {m : Model K}
    (h : Model.build (o.statements program) o.mode .empty = .ok m) (name : String) :
    o.Introduces program name ↔ ∃ s ∈ o.statements program, name ∈ s.written := by
  constructor
  · rintro ⟨s, hs, hname⟩
    exact ⟨s, hs, s.mem_written hname⟩
  · rintro ⟨s, hs, hname⟩
    cases s with
    | assert e => exact Model.exists_names_of_build h hs name hname
    | weight | strength | chain | pin => exact ⟨_, hs, hname⟩

/-- A problem writes the names that were introduced, but for generated names of known values. -/
theorem Model.NamedFrom.writes_iff {n : Nat} {introduced : String → Prop} {m : Model ℚ}
    (h : m.NamedFrom n introduced) (hknown : m.KnownApart) (name : String) :
    m.Writes n name ↔ introduced name ∧
      ¬ (isInternalName name = true ∧ ∃ spin, m.problem.knownValues.get? name = some spin) := by
  constructor
  · rintro (⟨i, hi, hname⟩ | ⟨⟨spin, hspin⟩, hword⟩)
    · refine ⟨h.below name i hi hname, fun ⟨_, spin, hspin⟩ => ?_⟩
      exact Option.some_ne_none spin (hspin.symm.trans (hknown name i hname))
    · refine ⟨(h.known name spin hspin).resolve_left (by simp [hword]), fun ⟨hinternal, _⟩ => ?_⟩
      rw [hword] at hinternal
      cases hinternal
  · rintro ⟨hname, hwritten⟩
    refine (h.kept name hname).imp_right fun hspin => ⟨hspin, ?_⟩
    exact Bool.eq_false_iff.mpr fun hinternal => hwritten ⟨hinternal, hspin⟩

/-- The statements of a compiled problem build in either mode. They bind the names of the program
and of the extra pins, but for generated names with a known value, each to an index of its own. The
chains and pins ask of the values of the names what the compiled problem asks. The energy is that of
the compiled problem without the helpers, but for a constant. -/
theorem build_statements_compile {o : CompileOptions ℚ} {program : Program ℚ} {target : Target}
    {cancelled : Bool} {c : Compiled ℚ}
    (hnames : ∀ s ∈ program, ∀ name ∈ s.written, isInternalName name = false)
    (h : compile o program target cancelled = .ok c) (mode : Mode) :
    ∃ emitted rebuilt, c.model.statements mode = .ok emitted ∧
      Model.build emitted mode .empty = .ok rebuilt ∧
      (∀ name, (∃ i, rebuilt.symbols.lookup? name = some i) ↔
        (∃ s ∈ o.statements program, name ∈ s.written) ∧
          ¬ (isInternalName name = true ∧
            ∃ spin, c.model.problem.knownValues.get? name = some spin)) ∧
      rebuilt.symbols.Apart ∧
      (∀ values, (rebuilt.problem.MeetsPins (rebuilt.symbols.spins values) ∧
        rebuilt.problem.MeetsChains (rebuilt.symbols.spins values)) ↔ c.model.NamesMeet values) ∧
      ∃ constant, ∀ values, c.model.NamesMeet values →
        rebuilt.problem.energy (rebuilt.symbols.spins values) =
          c.model.problem.withoutHelpers.energy (c.model.symbols.spins values) + constant := by
  obtain ⟨built, helped, hpasses⟩ := passes_of_compile h
  obtain ⟨n, hhelpers, hnamed⟩ := hpasses.exists_helpersFrom
  have hlowers := hpasses.lowers
  have hemittable : c.model.Emittable n := ⟨hlowers.indexed, hlowers.knownApart, hpasses.mode,
    hhelpers, hnamed.named, hnamed.alone, hpasses.connected⟩
  have hwrites := hnamed.writes_iff hlowers.knownApart
  have hassertions : ∀ e ∈ c.model.problem.assertions, ∀ name ∈ e.names,
      c.model.Writes n name := by
    intro e he name hname
    have hstatement := hpasses.mem_assertions_iff.mp he
    have hprogram : Statement.assert e ∈ program := by
      simpa [CompileOptions.statements] using hstatement
    have hinternal := hnames _ hprogram name hname
    exact (hwrites name).mpr ⟨Model.exists_names_of_build hpasses.build hstatement name hname,
      by simp [hinternal]⟩
  have hstatements := Model.statements_eq_emitted mode hemittable.over_withoutHelpers
    fun i hi => ⟨_, hemittable.lookup?_shown hi⟩
  obtain ⟨rebuilt, hrebuilt⟩ := hemittable.exists_build mode hassertions
  refine ⟨_, rebuilt, hstatements, hrebuilt, fun name => ?_,
    (Model.builds_of_build hrebuilt).built.apart,
    fun values => hemittable.meets_rebuilt_iff hrebuilt values, _,
    fun values hmeet => (hemittable.energy_rebuilt hrebuilt hmeet).trans (sub_eq_add_neg _ _)⟩
  rw [hemittable.exists_lookup?_rebuilt_iff hrebuilt, hwrites,
    CompileOptions.introduces_iff hpasses.build]

/-- A program whose pin is on a chain. Both names of the chain are bound again, the generated name
of the helper is not. -/
theorem build_statements_compile_pinned :
    ∃ c : Compiled ℚ,
      compile { CompileOptions.default with
          extraPins := .ofList [("C", true)], embed := .dense 1 0 1 }
        [.weight "A" 1, .strength "A" "B" (-2), .chain "B" "C",
          .assert (.binary .or (.var "A") (.var "B"))] (.ofEdges [(0, 1), (1, 2)]) false = .ok c ∧
      ∃ emitted rebuilt, c.model.statements .qubo = .ok emitted ∧
        Model.build emitted .qubo .empty = .ok rebuilt ∧
        (∃ i, rebuilt.symbols.lookup? "B" = some i) ∧
        (∃ i, rebuilt.symbols.lookup? "C" = some i) ∧
        ¬ ∃ i, rebuilt.symbols.lookup? "$pin0" = some i := by
  obtain ⟨c, hcompile⟩ : ∃ c : Compiled ℚ,
      compile { CompileOptions.default with
          extraPins := .ofList [("C", true)], embed := .dense 1 0 1 }
        [.weight "A" 1, .strength "A" "B" (-2), .chain "B" "C",
          .assert (.binary .or (.var "A") (.var "B"))] (.ofEdges [(0, 1), (1, 2)]) false =
        .ok c := exists_eq_ok_of_isSome (by decide +kernel)
  obtain ⟨emitted, rebuilt, hemitted, hrebuilt, hbinds, _⟩ :=
    build_statements_compile (by decide +kernel) hcompile .qubo
  refine ⟨c, hcompile, emitted, rebuilt, hemitted, hrebuilt, (hbinds "B").mpr ⟨?_, ?_⟩,
    (hbinds "C").mpr ⟨?_, ?_⟩, fun hbound => ?_⟩
  · exact ⟨.chain "B" "C", by decide +kernel, by decide⟩
  · exact fun ⟨hinternal, _⟩ => absurd hinternal (by decide +kernel)
  · exact ⟨.chain "B" "C", by decide +kernel, by decide⟩
  · exact fun ⟨hinternal, _⟩ => absurd hinternal (by decide +kernel)
  · obtain ⟨s, hs, hname⟩ := ((hbinds "$pin0").mp hbound).1
    revert s
    decide +kernel

/-- An extra pin of a generated name is folded away, and the program that is written does not bind
the name. -/
theorem exists_extraPin_unbound :
    ¬ ∀ (o : CompileOptions ℚ) (program : Program ℚ) (target : Target) (c : Compiled ℚ)
      (mode : Mode), (∀ s ∈ program, ∀ name ∈ s.written, isInternalName name = false) →
      compile o program target false = .ok c →
      ∃ emitted rebuilt, c.model.statements mode = .ok emitted ∧
        Model.build emitted mode .empty = .ok rebuilt ∧
        ∀ name, (∃ i, rebuilt.symbols.lookup? name = some i) ↔
          ∃ s ∈ o.statements program, name ∈ s.written := by
  intro hall
  have hvalues : ((compile { CompileOptions.default with
          extraPins := .ofList [("$x", true)], embed := .dense 1 0 1 }
      [.strength "A" "B" (1 : ℚ)] (.ofEdges [(0, 1)]) false).toOption.bind fun c =>
        (c.model.statements .ising).toOption.bind fun emitted =>
          (Model.build emitted .ising .empty).toOption.map (·.symbols.lookup? "$x")) =
      some none := by decide +kernel
  generalize hcompile : compile (K := ℚ) _ _ _ _ = compiled at hvalues
  cases compiled with
  | error e => cases hvalues
  | ok c =>
    obtain ⟨emitted, rebuilt, hemitted, hrebuilt, hbinds⟩ :=
      hall _ _ _ c .ising (by decide +kernel) hcompile
    obtain ⟨i, hi⟩ := (hbinds "$x").mpr ⟨.pin "$x" true, by decide +kernel, by decide⟩
    simp [Except.toOption, hemitted, hrebuilt, hi] at hvalues

end SpinGlass

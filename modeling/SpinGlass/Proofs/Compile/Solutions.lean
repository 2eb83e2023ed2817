import SpinGlass.Proofs.Compile.Assign
import SpinGlass.Proofs.Sample.Decode

/-!
# Reported solutions and the constraints of a program

A decoder checks pins and assertions, and the chains of the embedding. It does not check the chains
of the problem. With simplification there are none left. Without it, a solution may be reported
whose chains differ, unless the pins and assertions of the program rule that out.
-/

namespace SpinGlass

/-- An assertion passes exactly if it has a value other than zero. -/
theorem Expr.passed_check_iff {env : String → Option Bool} {e : Expr} :
    (e.check env).passed = true ↔ ∃ n, e.eval env = .ok n ∧ n ≠ 0 := by
  unfold check
  cases e.eval env <;> simp

/-- The pins and assertions of a program imply its chains. -/
def Program.ChainsFollow {K : Type} (program : Program K) : Prop :=
  ∀ spins : String → Option Spin, (∀ name, (spins name).isSome ↔ program.Shows name) →
    (∀ s ∈ program, s.Shown → ¬ s.IsChain → s.SatisfiedBy spins) →
      ∀ s ∈ program, s.Shown → s.SatisfiedBy spins

/-- A name of a statement has the spin of its variable. -/
theorem Statement.Shown.shown_eq {K : Type} {s : Statement K} (hs : s.Shown) {name : String}
    (hname : name ∈ s.names) (d : Decoder K) (t : Assignment) :
    d.shown t name = d.model.spinOf t name := by
  unfold Decoder.shown
  rw [hs name hname]
  rfl

namespace Passes

variable {K : Type} [Coefficient K] {o : CompileOptions K} {program : Program K} {target : Target}
  {cancelled : Bool} {built helped : Model K} {c : Compiled K}
  (h : Passes o program target cancelled built helped c)

include h

theorem sound : c.decoder.Sound :=
  ⟨h.lowers.indexed.plain, h.lowers.knownApart, h.lowers.indexed.isOver.pinned, h.placed.1⟩

section Satisfied

variable {t : Assignment} {spins : String → Option Spin} {s : Statement K}

/-- What the decoder checks is what the statements other than chains ask for. -/
theorem satisfiedBy_of_not_isChain (hspins : ∀ name, spins name = c.decoder.shown t name)
    (hpins : c.model.problem.MeetsPins t)
    (hpasses : ∀ e ∈ c.decoder.model.problem.assertions,
      (e.check fun name => (spins name).map Spin.toBool).passed = true)
    (hs : s ∈ o.statements program) (hshown : s.Shown) (hchain : ¬ s.IsChain) :
    s.SatisfiedBy spins := by
  cases s with
  | weight var w => exact trivial
  | strength a b j => exact trivial
  | chain a b => exact absurd trivial hchain
  | pin var value =>
    have hspin : spins var = c.model.spinOf t var :=
      (hspins var).trans (hshown.shown_eq (List.mem_singleton_self var) c.decoder t)
    exact hspin.trans (h.meetsPin hpins _ hs)
  | assert e => exact Expr.passed_check_iff.mp (hpasses e (h.mem_assertions_iff.mpr hs))

/-- Where all variables have a spin, all shown names of the program have one. -/
theorem exists_shown (hcovers : t.Covers c.model.symbols.size) (hs : s ∈ o.statements program)
    {name : String} (hname : name ∈ s.names) (hshown : isInternalName name = false) :
    ∃ spin, c.decoder.shown t name = some spin := by
  obtain ⟨spin, hspin⟩ := h.exists_spinOf hcovers hs hname
  refine ⟨spin, ?_⟩
  unfold Decoder.shown
  rw [hshown]
  exact hspin

/-- A chain that is met is satisfied. -/
theorem satisfiedBy_of_meetsChain (hspins : ∀ name, spins name = c.decoder.shown t name)
    (hcovers : t.Covers c.model.symbols.size) (hmeets : s.MeetsChain (c.model.spinOf t))
    (hs : s ∈ o.statements program) (hshown : s.Shown) (hchain : s.IsChain) :
    s.SatisfiedBy spins := by
  cases s with
  | chain a b =>
    have ha : a ∈ (Statement.chain a b : Statement K).names := List.mem_cons_self
    have hb : b ∈ (Statement.chain a b : Statement K).names :=
      List.mem_cons_of_mem _ List.mem_cons_self
    obtain ⟨spin, hspin⟩ := h.exists_shown hcovers hs ha (hshown a ha)
    refine ⟨spin, (hspins a).trans hspin, (hspins b).trans ?_⟩
    rw [hshown.shown_eq ha] at hspin
    rw [hshown.shown_eq hb]
    exact Eq.trans (Eq.symm hmeets) hspin
  | _ => exact absurd hchain id

/-- A reported solution is read from an assignment that meets the pins and passes the
assertions. -/
theorem exists_of_reports {sol : Solution K} (hsol : c.decoder.Reports sol) :
    ∃ t : Assignment, t.Covers c.model.symbols.size ∧ c.model.problem.MeetsPins t ∧
      (∀ name, sol.value name = c.decoder.shown t name) ∧
      ∀ e ∈ c.decoder.model.problem.assertions,
        (e.check fun name => (sol.value name).map Spin.toBool).passed = true := by
  obtain ⟨raw, options, report, hall, hdecode, hmem⟩ := hsol
  obtain ⟨hvalid, vector, hdecodes⟩ := Decoder.reported h.sound hall hdecode sol hmem
  obtain ⟨hcovers, hpins, hpasses⟩ := (hdecodes.isValid_iff h.sound).mp hvalid
  exact ⟨_, hcovers, hpins, hdecodes.values, hpasses⟩

end Satisfied

section Unsimplified

variable (hoptimize : o.optimize = false) {spins : String → Option Spin}

include hoptimize

/-- Without simplification, the problem with helpers is embedded. -/
theorem model_eq : c.model = helped := by
  obtain ⟨report, hsimplify⟩ := h.simplify
  unfold CompileOptions.simplify at hsimplify
  simp only [hoptimize, Bool.false_eq_true, if_false] at hsimplify
  cases hsimplify
  rfl

/-- Without simplification, the names that have a spin are those of the program. -/
theorem isSome_shown_iff {t : Assignment} (hcovers : t.Covers c.model.symbols.size)
    (name : String) :
    (c.decoder.shown t name).isSome ↔ (o.statements program).Shows name := by
  constructor
  · intro hsome
    cases hname : isInternalName name with
    | true => simp [Decoder.shown, hname] at hsome
    | false =>
      cases hi : c.model.symbols.byName.get? name with
      | some i => exact (h.shows_of_byName hname (h.model_eq hoptimize ▸ hi)).2
      | none =>
        have hspin : c.model.spinOf t name = none := by
          rw [Model.spinOf_of_none h.lowers.indexed.plain hi, h.model_eq hoptimize,
            h.knownValues_helped]
          rfl
        simp [Decoder.shown, hname, Compiled.decoder, hspin] at hsome
  · rintro ⟨hname, s, hs, hmem⟩
    obtain ⟨spin, hspin⟩ := h.exists_shown hcovers hs hmem hname
    rw [hspin]
    rfl

variable (hspins : ∀ name, (spins name).isSome ↔ (o.statements program).Shows name)

include hspins

/-- Without simplification, the spins asked for assign exactly the variables. -/
theorem isOver_assign : (c.model.assign spins).IsOver c.model.symbols.size := by
  rw [h.model_eq hoptimize]
  exact h.isOver_assign_helped fun name hname => (hspins name).mpr hname

/-- Without simplification, what is shown of the spins asked for is what was asked. -/
theorem shown_assign (name : String) :
    c.decoder.shown (c.model.assign spins) name = spins name := by
  have hover := h.isOver_assign hoptimize hspins
  have hsome := h.isSome_shown_iff hoptimize hover.covers name
  by_cases hshows : (o.statements program).Shows name
  · obtain ⟨hname, s, hs, hmem⟩ := hshows
    obtain ⟨i, hi⟩ := h.builds.named s hs name hmem
    have hindex := h.isHelped.grows.byName name i hi
    have hspin : helped.assign spins i = spins name := h.assign_of_byName hname hindex
    rw [← h.model_eq hoptimize] at hindex hspin
    rw [← hspin, Decoder.shown, hname]
    exact Model.spinOf_of_byName h.lowers.indexed.plain hindex
  · rw [Option.not_isSome_iff_eq_none.mp fun hshown => hshows (hsome.mp hshown),
      Option.not_isSome_iff_eq_none.mp fun hspin => hshows ((hspins name).mp hspin)]

omit hspins in
/-- Without simplification, spins that satisfy the pins of the program assign the pins of the
embedded problem. -/
theorem meetsPins_assign (hsatisfied : ∀ s ∈ o.statements program, s.Shown → ¬ s.IsChain →
    s.SatisfiedBy spins) : c.model.problem.MeetsPins (c.model.assign spins) := by
  rw [h.model_eq hoptimize]
  exact h.meetsPins_assign_helped hsatisfied

end Unsimplified

end Passes

section Compile

variable {K : Type} [Coefficient K] {o : CompileOptions K} {program : Program K} {target : Target}
  {cancelled : Bool} {c : Compiled K}

/-- Reported solutions satisfy the pins and assertions of a program. They satisfy its chains if
simplification is on, and without it exactly if the pins and assertions imply the chains. -/
theorem reports_satisfiedBy_iff (h : compile o program target cancelled = .ok c) :
    (∀ sol, c.decoder.Reports sol → ∀ s ∈ o.statements program, s.Shown → ¬ s.IsChain →
      s.SatisfiedBy sol.value) ∧
    ((∀ sol, c.decoder.Reports sol → ∀ s ∈ o.statements program, s.Shown →
        s.SatisfiedBy sol.value) ↔
      o.optimize = true ∨ (o.statements program).ChainsFollow) := by
  obtain ⟨built, helped, hpasses⟩ := passes_of_compile h
  have hchecked : ∀ sol, c.decoder.Reports sol → ∀ s ∈ o.statements program, s.Shown →
      ¬ s.IsChain → s.SatisfiedBy sol.value := by
    intro sol hsol s hs hshown hchain
    obtain ⟨t, _, hpins, hvalues, hassertions⟩ := hpasses.exists_of_reports hsol
    exact hpasses.satisfiedBy_of_not_isChain hvalues hpins hassertions hs hshown hchain
  refine ⟨hchecked, fun hall => ?_, fun hcases sol hsol s hs hshown => ?_⟩
  · cases hoptimize : o.optimize with
    | true => exact .inl rfl
    | false =>
      refine .inr fun spins hspins hsatisfied => ?_
      -- the spins are those of a vector, which is reported since only a chain may fail
      have hvalues := hpasses.shown_assign hoptimize hspins
      obtain ⟨sol, hsol, hvalue⟩ := Decoder.exists_reports hpasses.sound
        (hpasses.isOver_assign hoptimize hspins) (hpasses.meetsPins_assign hoptimize hsatisfied)
        fun e he => by
          simp only [hvalues]
          exact Expr.passed_check_iff.mpr (hsatisfied _ (hpasses.mem_assertions_iff.mp he)
            (fun name hname => by cases hname) id)
      have heq : sol.value = spins := funext fun name => (hvalue name).trans (hvalues name)
      rw [← heq]
      exact hall sol hsol
  · obtain ⟨t, hcovers, hpins, hvalues, hassertions⟩ := hpasses.exists_of_reports hsol
    cases hoptimize : o.optimize with
    | true =>
      by_cases hchain : s.IsChain
      · have hmeets := (hpasses.meetsChains_iff hpins).mp (hpasses.lowers.noChains hoptimize t)
        exact hpasses.satisfiedBy_of_meetsChain hvalues hcovers (hmeets s hs) hs hshown hchain
      · exact hchecked sol hsol s hs hshown hchain
    | false =>
      refine (hcases.resolve_left (by simp [hoptimize])) sol.value (fun name => ?_)
        (hchecked sol hsol) s hs hshown
      rw [hvalues]
      exact hpasses.isSome_shown_iff hoptimize hcovers name

end Compile

/-- With simplification, every reported solution of a program with a chain satisfies it. -/
theorem reports_satisfiedBy_iff_simplified :
    ∃ c : Compiled ℚ,
      compile { CompileOptions.default with embed := .dense 1 0 1 }
        [.weight "A" 1, .strength "A" "C" 1, .chain "A" "B"] (.ofEdges [(0, 1)]) false = .ok c ∧
      ∀ sol, c.decoder.Reports sol →
        ∃ spin, sol.value "A" = some spin ∧ sol.value "B" = some spin := by
  have hsuccess : (compile { CompileOptions.default with embed := .dense 1 0 1 }
      [.weight "A" (1 : ℚ), .strength "A" "C" 1, .chain "A" "B"] (.ofEdges [(0, 1)])
      false).toOption.isSome = true := by decide +kernel
  generalize hcompile : compile (K := ℚ) _ _ _ _ = compiled at hsuccess
  cases compiled with
  | error e => cases hsuccess
  | ok c =>
    refine ⟨c, rfl, fun sol hsol => ?_⟩
    refine (reports_satisfiedBy_iff hcompile).2.mpr (.inl rfl) sol hsol (.chain "A" "B") ?_ ?_
    · simp [CompileOptions.statements]
    · intro name hname
      simp only [Statement.names, List.mem_cons, List.not_mem_nil, or_false] at hname
      rcases hname with rfl | rfl <;> decide +kernel

/-- Without simplification, a solution is reported whose names of a chain differ. -/
theorem exists_reports_not_satisfiedBy :
    ¬ ∀ (o : CompileOptions ℚ) (program : Program ℚ) (target : Target) (c : Compiled ℚ),
      compile o program target false = .ok c → (∀ s ∈ o.statements program, s.Shown) →
        ∀ sol, c.decoder.Reports sol → ∀ s ∈ program, s.SatisfiedBy sol.value := by
  intro hall
  have hvalues : (compile { CompileOptions.default with optimize := false, embed := .dense 1 0 1 }
      [.weight "A" (1 : ℚ), .chain "A" "B"] (.ofEdges [(0, 1)]) false).toOption.bind (fun c =>
        (c.decoder.decode ⟨[#[-1, 1]], [0], [1], 0⟩ .default).toOption.map fun report =>
          report.solutions.map fun sol => (sol.value "A", sol.value "B")) =
      some [(some .up, some .down)] := by decide +kernel
  generalize hcompile : compile (K := ℚ) _ _ _ _ = compiled at hvalues
  cases compiled with
  | error e => cases hvalues
  | ok c =>
    obtain ⟨report, hreport, hsolutions⟩ := Option.map_eq_some_iff.mp hvalues
    have hdecode : c.decoder.decode ⟨[#[-1, 1]], [0], [1], 0⟩ .default = .ok report := by
      generalize c.decoder.decode _ _ = decoded at hreport
      cases decoded with
      | error e => cases hreport
      | ok found =>
        cases hreport
        rfl
    obtain ⟨sol, hsol, hvalue⟩ : ∃ sol ∈ report.solutions,
        (sol.value "A", sol.value "B") = (some Spin.up, some Spin.down) := by
      rw [← List.mem_map, hsolutions]
      exact List.mem_singleton_self _
    rw [Prod.mk.injEq] at hvalue
    have hshown : ∀ s ∈ [Statement.weight "A" (1 : ℚ), .chain "A" "B"], s.Shown := by
      intro s hs name hname
      have hnames : name = "A" ∨ name = "B" := by
        simp only [List.mem_cons, List.not_mem_nil, or_false] at hs
        rcases hs with rfl | rfl <;> simp_all [Statement.names]
      rcases hnames with rfl | rfl <;> decide +kernel
    obtain ⟨spin, ha, hb⟩ := hall _ _ _ c hcompile hshown sol ⟨_, _, report, rfl, hdecode, hsol⟩
      (.chain "A" "B") (by simp)
    rw [hvalue.1] at ha
    rw [hvalue.2, ← ha] at hb
    cases hb

end SpinGlass

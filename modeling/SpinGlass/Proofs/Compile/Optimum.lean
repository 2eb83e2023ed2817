import SpinGlass.Proofs.Compile.Energy
import SpinGlass.Proofs.Compile.Solutions
import SpinGlass.Proofs.Expr.Names
import SpinGlass.Proofs.Sample.Best
import SpinGlass.Proofs.Sample.Exhaustive
import SpinGlass.Proofs.Simplify.Optima

/-!
# The best solution of an exhaustive search

The values of a valid solution satisfy the program, and without dominance all values that satisfy it
are those of a valid solution. Since the machine ranks the vectors that count as the program does,
an exhaustive search finds values that satisfy the program and minimize its objective, or nothing if
the program cannot be satisfied.
-/

namespace SpinGlass

/-- Values of the names with which all statements are satisfied. -/
def Program.Feasible {K : Type} (program : Program K) (values : String → Spin) : Prop :=
  ∀ s ∈ program, s.SatisfiedBy fun name => some (values name)

namespace CompileOptions

/-- A statement other than a pin is one of the program, since the options add pins only. -/
theorem mem_of_statements {K : Type} {o : CompileOptions K} {program : Program K} {s : Statement K}
    (hs : s ∈ o.statements program) (hpin : ∀ var value, s ≠ .pin var value) : s ∈ program := by
  refine (List.mem_append.mp hs).resolve_right fun hextra => ?_
  obtain ⟨_, _, rfl⟩ := List.mem_map.mp hextra
  exact hpin _ _ rfl

/-- Where spins agree on the names that are shown, the objectives are equal. -/
theorem objective_eq_of_shows {o : CompileOptions ℚ} {program : Program ℚ}
    (hnames : ∀ s ∈ program, ∀ name ∈ s.written, isInternalName name = false)
    {f g : String → Option Spin} (mode : Mode)
    (heq : ∀ name, (o.statements program).Shows name → f name = g name) :
    program.objective mode f = program.objective mode g := by
  refine Program.objective_congr fun s hs name hname => heq name ⟨?_, s, ?_, hname⟩
  · exact hnames s hs name (s.mem_written hname)
  · exact List.mem_append_left _ hs

/-- Without dominance, an assignment that meets the pins and chains is the extension of one that
meets the pins of the lowered problem. -/
theorem exists_extend_eq {o : CompileOptions ℚ} {m m' : Model ℚ} (hm : m.Indexed)
    (hfold : o.foldDominated = false) {report : Option SimplifyReport}
    (h : o.simplify m = .ok (report, m')) {s : Assignment} (hs : s.IsOver m.symbols.size)
    (hpins : m.problem.MeetsPins s) (hchains : m.problem.MeetsChains s) :
    ∃ t : Assignment, t.IsOver m'.symbols.size ∧ m'.problem.MeetsPins t ∧ o.extend m t = s := by
  rcases simplify_cases hm h with ⟨r, aliased, fixed, hstages, hextend⟩ | ⟨_, rfl, hextend⟩
  · have hfeasible := (hstages.feasible_aliased_iff hm.plain.pending).mpr ⟨hpins, hchains⟩
    have hfixes := hstages.fixes
    rw [hfold] at hfixes
    have hfixings := hfixes.eq_of_feasible hstages.isAliased.wellLinked hfeasible
    obtain ⟨t, ht, htpins, heq⟩ :=
      hstages.exists_extend_eq hm.plain.pending hs hpins hchains hfixings
    exact ⟨t, ht, htpins, (hextend t).trans heq⟩
  · exact ⟨s, hs, hpins, hextend s⟩

end CompileOptions

namespace Compiled

/-- The values of the names under an assignment of the variables. -/
def values {K : Type} (c : Compiled K) (t : Assignment) (name : String) : Spin :=
  (c.model.spinOf t name).getD .up

/-- The vector of a mask over the qubits. -/
def vector {K : Type} (c : Compiled K) (mask : Nat) : Array Int :=
  Exhaustive.vector c.physical.qubits c.physical.width mask

/-- Every mask gives a spin to every qubit of a chain. -/
theorem exists_spin_vector {K : Type} (c : Compiled K) (mask : Nat) {i q : Nat}
    (hq : q ∈ c.physical.embedding.chain i) :
    ∃ spin, SampleSet.assignment (c.vector mask) q = some spin := by
  have hmem := PhysicalProblem.mem_qubits_of_chain hq
  exact Exhaustive.exists_assignment_vector (PhysicalProblem.nodup_qubits _) hmem
    (PhysicalProblem.lt_width hmem)

section Run

variable {K : Type} [Coefficient K]

/-- The solution that is read from the vector of a mask, with the energy of the vector. -/
def IsSample (c : Compiled K) (mask : Nat) (sol : Solution K) : Prop :=
  c.decoder.decodeSample (c.vector mask)
    (c.physical.sampleEnergy (SampleSet.assignment (c.vector mask))) 1 = .ok sol

/-- A run of an exhaustive search that is asked for enough samples decodes the vectors of all
masks. -/
theorem exists_run (c : Compiled K) {params : SolveParams K}
    (hsize : c.physical.qubits.length ≤ Exhaustive.maxQubits)
    (hcount : 2 ^ c.physical.qubits.length ≤ params.sampleCount) :
    ∃ raw solutions report, c.run Exhaustive.solve params = .ok report ∧
      c.decoder.decodeSamples raw = .ok solutions ∧
      c.decoder.decode raw c.options.decode = .ok report ∧
      (∀ sol ∈ solutions, ∃ mask, c.IsSample mask sol) ∧
      ∀ mask < 2 ^ c.physical.qubits.length, ∃ sol ∈ solutions, c.IsSample mask sol := by
  have hread : ∀ e ∈ Exhaustive.ranking c.physical,
      ∃ sol, c.decoder.decodeSample (c.vector e.2) e.1 1 = .ok sol := fun e _ =>
    Decoder.exists_decodeSample (fun i _ q hq => c.exists_spin_vector e.2 hq) e.1 1
  obtain ⟨solutions, hsolutions, hfrom, hto⟩ := Decoder.exists_decodeSamples 0 hread
  obtain ⟨report, hreport⟩ := Decoder.exists_decode hsolutions c.options.decode
  refine ⟨_, solutions, report, ?_, hsolutions, hreport, fun sol hsol => ?_, fun mask hmask => ?_⟩
  · unfold run solve
    rw [Exhaustive.solve_eq_ok hsize hcount]
    exact congrArg (Except.mapError CompileError.solver) hreport
  · obtain ⟨⟨energy, mask⟩, hmem, hsample⟩ := hfrom sol hsol
    have henergy : energy = c.physical.sampleEnergy (SampleSet.assignment (c.vector mask)) :=
      (Exhaustive.mem_ranking.mp hmem).2
    refine ⟨mask, ?_⟩
    unfold IsSample
    rw [← henergy]
    exact hsample
  · exact hto (_, mask) (Exhaustive.mem_ranking.mpr ⟨hmask, rfl⟩)

end Run

end Compiled

namespace Passes

section Names

variable {K : Type} [Coefficient K] {o : CompileOptions K} {program : Program K} {target : Target}
  {cancelled : Bool} {built helped : Model K} {c : Compiled K}
  (h : Passes o program target cancelled built helped c)
  (hnames : ∀ s ∈ program, ∀ name ∈ s.written, isInternalName name = false)

include h

/-- With simplification, a valid solution is read from a vector that counts. -/
theorem counts_of_isValid (hoptimize : o.optimize = true) {vector : Array Int} {sol : Solution K}
    (hdecodes : c.decoder.Decodes vector sol) (hvalid : sol.isValid = true) :
    c.Counts (SampleSet.assignment vector) := by
  obtain ⟨hcovers, hpins, _⟩ := (hdecodes.isValid_iff h.sound).mp hvalid
  exact ⟨h.placed.1.intact_of_covers hcovers, hpins, h.lowers.noChains hoptimize _⟩

/-- Where all variables have a spin, the values are the spins of the names. -/
theorem spinOf_eq_values {t : Assignment} (hcovers : t.Covers c.model.symbols.size)
    {s : Statement K} (hs : s ∈ o.statements program) {name : String} (hname : name ∈ s.names) :
    c.model.spinOf t name = some (c.values t name) := by
  obtain ⟨spin, hspin⟩ := h.exists_spinOf hcovers hs hname
  unfold Compiled.values
  rw [hspin]
  rfl

/-- Where all variables have a spin, the values are shown for the names of the program. -/
theorem shown_eq_values {t : Assignment} (hcovers : t.Covers c.model.symbols.size) {name : String}
    (hname : (o.statements program).Shows name) :
    c.decoder.shown t name = some (c.values t name) := by
  obtain ⟨hinternal, s, hs, hmem⟩ := hname
  unfold Decoder.shown
  rw [hinternal]
  exact h.spinOf_eq_values hcovers hs hmem

include hnames

/-- The names of an assertion are shown. -/
theorem shows_of_mem_names {e : Expr} (he : .assert e ∈ o.statements program) :
    ∀ name ∈ e.names, (o.statements program).Shows name := fun name hname =>
  ⟨hnames _ (CompileOptions.mem_of_statements he (by simp)) name hname,
    Model.exists_names_of_build h.build he name hname⟩

/-- Spins that are shown as values of the names pass an assertion exactly if the values satisfy
it. -/
theorem passed_check_iff {values : String → Spin} {spins : String → Option Spin}
    (hspins : ∀ name, (o.statements program).Shows name → spins name = some (values name))
    {e : Expr} (he : .assert e ∈ o.statements program) :
    (e.check fun name => (spins name).map Spin.toBool).passed = true ↔
      (Statement.assert e : Statement K).SatisfiedBy fun name => some (values name) := by
  have heval : e.eval (fun name => (spins name).map Spin.toBool) =
      e.eval fun name => (some (values name)).map Spin.toBool :=
    Expr.eval_congr fun name hname => by
      rw [hspins name (h.shows_of_mem_names hnames he name hname)]
  rw [Expr.passed_check_iff, heval]
  rfl

/-- What meets the pins and chains and passes the assertions satisfies the program. -/
theorem feasible_values {t : Assignment} (hcovers : t.Covers c.model.symbols.size)
    (hpins : c.model.problem.MeetsPins t) (hchains : c.model.problem.MeetsChains t)
    (hpasses : ∀ e ∈ c.model.problem.assertions,
      (e.check fun name => (c.decoder.shown t name).map Spin.toBool).passed = true) :
    (o.statements program).Feasible (c.values t) := by
  intro s hs
  cases s with
  | weight var w => exact trivial
  | strength a b j => exact trivial
  | chain a b =>
    have hmeets : c.model.spinOf t a = c.model.spinOf t b :=
      (h.meetsChains_iff hpins).mp hchains _ hs
    refine ⟨c.values t a, rfl, ?_⟩
    unfold Compiled.values
    rw [hmeets]
  | pin var value =>
    have hmeets : c.model.spinOf t var = some (.ofBool value) := h.meetsPin hpins _ hs
    have hvalue : c.values t var = .ofBool value := by
      unfold Compiled.values
      rw [hmeets]
      rfl
    exact congrArg some hvalue
  | assert e =>
    exact (h.passed_check_iff hnames (fun name hname => h.shown_eq_values hcovers hname) hs).mp
      (hpasses e (h.mem_assertions_iff.mpr hs))

end Names

section Search

variable {o : CompileOptions ℚ} {program : Program ℚ} {target : Target} {cancelled : Bool}
  {built helped : Model ℚ} {c : Compiled ℚ} (h : Passes o program target cancelled built helped c)
  (hnames : ∀ s ∈ program, ∀ name ∈ s.written, isInternalName name = false)

include h hnames

/-- Without dominance, values that satisfy the program are those of an assignment that meets the
pins. -/
theorem exists_assignment (hfold : o.foldDominated = false) {values : String → Spin}
    (hvalues : (o.statements program).Feasible values) :
    ∃ t : Assignment, t.IsOver c.model.symbols.size ∧ c.model.problem.MeetsPins t ∧
      ∀ name, (o.statements program).Shows name → c.model.spinOf t name = some (values name) := by
  have hshown : ∀ s ∈ o.statements program, s.IsChain → s.Shown := by
    intro s hs hchain
    cases s with
    | chain a b => exact hnames _ (CompileOptions.mem_of_statements hs (by simp))
    | _ => exact absurd hchain id
  obtain ⟨report, hsimplify⟩ := h.simplify
  obtain ⟨t, ht, hpins, hextend⟩ := CompileOptions.exists_extend_eq h.isHelped.indexed hfold
    hsimplify (h.isOver_assign_helped fun _ _ => rfl)
    (h.meetsPins_assign_helped fun s hs _ _ => hvalues s hs)
    (h.meetsChains_assign_helped fun s hs hchain => ⟨hshown s hs hchain, hvalues s hs⟩)
  refine ⟨t, ht, hpins, fun name ⟨hname, s, hs, hmem⟩ => ?_⟩
  rw [h.spinOf_names hs t name hmem, hextend]
  exact h.spinOf_assign hs hmem hname

/-- A valid solution is read from a vector that counts, and its values satisfy the program. -/
theorem of_isValid (hoptimize : o.optimize = true) {mask : Nat} {sol : Solution ℚ}
    (hsample : c.IsSample mask sol) (hvalid : sol.isValid = true) :
    c.Counts (SampleSet.assignment (c.vector mask)) ∧
      (∀ name, (o.statements program).Shows name →
        sol.value name = c.spinOf (SampleSet.assignment (c.vector mask)) name) ∧
      ∃ values, (o.statements program).Feasible values ∧
        ∀ name, (o.statements program).Shows name → sol.value name = some (values name) := by
  have hdecodes := Decoder.decodes_of_ok h.sound hsample
  obtain ⟨hcovers, hpins, hpasses⟩ := (hdecodes.isValid_iff h.sound).mp hvalid
  have hcounts := h.counts_of_isValid hoptimize hdecodes hvalid
  simp only [hdecodes.values] at hpasses
  refine ⟨hcounts, fun name hname => ?_,
    _, h.feasible_values hnames hcovers hpins hcounts.chains hpasses, fun name hname => ?_⟩
  · rw [hdecodes.values]
    unfold Decoder.shown
    rw [hname.1]
    rfl
  · rw [hdecodes.values]
    exact h.shown_eq_values hcovers hname

/-- Valid solutions have the energies that the objective of the program gives their values, up to a
constant and a factor. -/
theorem energy_le_iff (hoptimize : o.optimize = true) (hweight : 0 < o.limits.weight)
    (hstrength : 0 < o.limits.strength) {mask mask' : Nat} {sol sol' : Solution ℚ}
    (hsample : c.IsSample mask sol) (hsample' : c.IsSample mask' sol')
    (hvalid : sol.isValid = true) (hvalid' : sol'.isValid = true) :
    sol.energy ≤ sol'.energy ↔
      program.objective o.mode sol.value ≤ program.objective o.mode sol'.value := by
  obtain ⟨hfactor, _⟩ := h.scaled hweight hstrength
  obtain ⟨constant, hconstant⟩ := h.exists_constant hweight hstrength
  have henergy : ∀ {mask : Nat} {sol : Solution ℚ}, c.IsSample mask sol → sol.isValid = true →
      sol.energy = c.physical.scaleFactor * (program.objective o.mode sol.value + constant) +
        c.model.problem.offset := by
    intro mask sol hsample hvalid
    obtain ⟨hcounts, hspins, _⟩ := h.of_isValid hnames hoptimize hsample hvalid
    rw [Decoder.energy_of_ok hsample, hconstant _ hcounts,
      CompileOptions.objective_eq_of_shows hnames o.mode hspins]
    rfl
  rw [henergy hsample hvalid, henergy hsample' hvalid', add_le_add_iff_right,
    mul_le_mul_iff_right₀ hfactor, add_le_add_iff_right]

/-- Without dominance, values that satisfy the program are those of a valid solution that is read
from the vector of a mask. -/
theorem exists_mask_isValid (hfold : o.foldDominated = false) {values : String → Spin}
    (hvalues : (o.statements program).Feasible values) :
    ∃ mask < 2 ^ c.physical.qubits.length, ∀ sol, c.IsSample mask sol → sol.isValid = true ∧
      ∀ name, (o.statements program).Shows name → sol.value name = some (values name) := by
  obtain ⟨t, ht, hpins, hspins⟩ := h.exists_assignment hnames hfold hvalues
  obtain ⟨spins, hchains⟩ := h.placed.1.exists_spins ht.covers
  have hwidth : ∀ q ∈ c.physical.qubits, q < c.physical.width := fun q hq =>
    PhysicalProblem.lt_width hq
  obtain ⟨mask, hmask, hvector⟩ :=
    Exhaustive.exists_mask (PhysicalProblem.nodup_qubits c.physical) hwidth spins
  have hshows : c.decoder.embedding.Shows (SampleSet.assignment (c.vector mask)) t := fun i q hq =>
    (hvector q (PhysicalProblem.mem_qubits_of_chain hq)).trans (hchains i q hq).symm
  have hread := h.sound.embedding.readout_eq ht hshows
  refine ⟨mask, hmask, fun sol hsample => ?_⟩
  have hdecodes := Decoder.decodes_of_ok h.sound hsample
  have hshown : ∀ name, (o.statements program).Shows name →
      sol.value name = some (values name) := by
    intro name hname
    rw [hdecodes.values, hread]
    unfold Decoder.shown
    rw [hname.1]
    exact hspins name hname
  refine ⟨(hdecodes.isValid_iff h.sound).mpr ?_, hshown⟩
  rw [hread]
  refine ⟨ht.covers, hpins, fun e he => ?_⟩
  have hassert := h.mem_assertions_iff.mp he
  exact (h.passed_check_iff hnames hshown hassert).mpr (hvalues _ hassert)

end Search

end Passes

/-- An exhaustive search is optimal: without dominance and with the usual options for decoding, it
reports no solution exactly if no values satisfy the program with the pins of the options, and
otherwise the best solution has values that satisfy them with the least objective. -/
theorem best_of_exhaustive {o : CompileOptions ℚ} {program : Program ℚ} {target : Target}
    {cancelled : Bool} {c : Compiled ℚ} {params : SolveParams ℚ} (hoptimize : o.optimize = true)
    (hfold : o.foldDominated = false) (hweight : 0 < o.limits.weight)
    (hstrength : 0 < o.limits.strength) (hdefault : o.decode = .default)
    (hnames : ∀ s ∈ program, ∀ name ∈ s.written, isInternalName name = false)
    (h : compile o program target cancelled = .ok c)
    (hsize : c.physical.qubits.length ≤ Exhaustive.maxQubits)
    (hcount : 2 ^ c.physical.qubits.length ≤ params.sampleCount) :
    ∃ report, c.run Exhaustive.solve params = .ok report ∧
      (report.solutions = [] ↔ ¬ ∃ values, (o.statements program).Feasible values) ∧
      ∀ best, report.best? = some best → ∃ values, (o.statements program).Feasible values ∧
        (∀ name, (o.statements program).Shows name → best.value name = some (values name)) ∧
        ∀ other, (o.statements program).Feasible other →
          program.objective o.mode (fun name => some (values name)) ≤
            program.objective o.mode fun name => some (other name) := by
  obtain ⟨built, helped, hpasses⟩ := passes_of_compile h
  obtain ⟨raw, solutions, report, hrun, hsolutions, hdecode, hfrom, hto⟩ :=
    c.exists_run hsize hcount
  rw [hpasses.options, hdefault] at hdecode
  obtain ⟨hempty, hbest⟩ := Decoder.best_of_decode rfl (by decide +kernel) hsolutions hdecode
  refine ⟨report, hrun, hempty.trans ⟨?_, ?_⟩, fun best hhead => ?_⟩
  · rintro hnone ⟨values, hvalues⟩
    obtain ⟨mask, hmask, hvalid⟩ := hpasses.exists_mask_isValid hnames hfold hvalues
    obtain ⟨sol, hsol, hsample⟩ := hto mask hmask
    exact absurd (hvalid sol hsample).1 (Bool.eq_false_iff.mp (hnone sol hsol))
  · intro hnone sol hsol
    obtain ⟨mask, hsample⟩ := hfrom sol hsol
    refine Bool.eq_false_iff.mpr fun hvalid => hnone ?_
    obtain ⟨_, _, values, hvalues, _⟩ := hpasses.of_isValid hnames hoptimize hsample hvalid
    exact ⟨values, hvalues⟩
  · obtain ⟨sol, hsol, hvalid, ⟨n, rfl⟩, hleast⟩ := hbest best hhead
    obtain ⟨mask, hsample⟩ := hfrom sol hsol
    obtain ⟨_, _, values, hvalues, hspins⟩ := hpasses.of_isValid hnames hoptimize hsample hvalid
    refine ⟨values, hvalues, hspins, fun other hother => ?_⟩
    -- the other values are those of a valid solution too, which does not beat the best
    obtain ⟨mask', hmask', hother⟩ := hpasses.exists_mask_isValid hnames hfold hother
    obtain ⟨sol', hsol', hsample'⟩ := hto mask' hmask'
    obtain ⟨hvalid', hspins'⟩ := hother sol' hsample'
    rw [← CompileOptions.objective_eq_of_shows hnames o.mode hspins,
      ← CompileOptions.objective_eq_of_shows hnames o.mode hspins']
    exact (hpasses.energy_le_iff hnames hoptimize hweight hstrength hsample hsample' hvalid
      hvalid').mp (hleast sol' hsol' hvalid')

/-- A program with a chain, an assertion and a pin of the options. With the pin the best spin of A
is up. -/
theorem best_of_exhaustive_pinned :
    ∃ c : Compiled ℚ,
      compile { CompileOptions.default with
          extraPins := .ofList [("C", true)], embed := .dense 1 0 1 }
        [.weight "A" 1, .strength "A" "B" (-2), .chain "B" "C",
          .assert (.binary .or (.var "A") (.var "B"))] (.ofEdges [(0, 1), (1, 2)]) false = .ok c ∧
      ∃ report best, c.run Exhaustive.solve .default = .ok report ∧
        report.best? = some best ∧ best.value "A" = some .up := by
  have hvalues : (compile { CompileOptions.default with
          extraPins := .ofList [("C", true)], embed := .dense 1 0 1 }
        [.weight "A" (1 : ℚ), .strength "A" "B" (-2), .chain "B" "C",
          .assert (.binary .or (.var "A") (.var "B"))] (.ofEdges [(0, 1), (1, 2)])
        false).toOption.map (fun c => c.physical.qubits.length) = some 3 := by decide +kernel
  generalize hcompile : compile (K := ℚ) _ _ _ _ = compiled at hvalues
  cases compiled with
  | error e => cases hvalues
  | ok c =>
    have hqubits : c.physical.qubits.length = 3 := Option.some.inj hvalues
    obtain ⟨report, hrun, hempty, hbest⟩ := best_of_exhaustive rfl rfl (by decide +kernel)
      (by decide +kernel) rfl (by decide +kernel) hcompile (by rw [hqubits]; decide)
      (show _ ≤ (SolveParams.default : SolveParams ℚ).sampleCount by rw [hqubits]; decide)
    have hextra : (Table.ofList [("C", true)]).entries = [("C", true)] := by decide +kernel
    simp only [Program.Feasible, CompileOptions.statements, hextra, List.map_cons, List.map_nil,
      List.cons_append, List.nil_append, List.forall_mem_cons] at hempty hbest
    have hne : report.solutions ≠ [] := fun hnil => hempty.mp hnil
      ⟨fun _ => .up, trivial, trivial, ⟨.up, rfl, rfl⟩, ⟨1, rfl, by decide⟩, rfl, by simp⟩
    obtain ⟨best, hhead⟩ := Option.isSome_iff_exists.mp (List.isSome_head?.mpr hne)
    obtain ⟨values, ⟨_, _, ⟨spin, hb, hc⟩, _, hpin, _⟩, hspins, hleast⟩ := hbest best hhead
    have hle := hleast (fun _ => .up)
      ⟨trivial, trivial, ⟨.up, rfl, rfl⟩, ⟨1, rfl, by decide⟩, rfl, by simp⟩
    refine ⟨c, rfl, report, best, hrun, hhead, ?_⟩
    rw [hspins "A" ⟨by decide +kernel, .weight "A" 1, List.mem_cons_self, List.mem_cons_self⟩]
    have hB : values "B" = .up := Option.some.inj (hb.trans (hc.symm.trans hpin))
    cases hA : values "A" with
    | up => rfl
    | down =>
      -- with B up, the objective is less for A up
      simp only [Program.objective, Statement.objective, Coefficient.ofSpin?, List.map_cons,
        List.map_nil, hA, hB] at hle
      exact absurd hle (by decide +kernel)

end SpinGlass

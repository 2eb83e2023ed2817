import SpinGlass.Proofs.Compile.Lowering
import SpinGlass.Proofs.Physical.Scaling
import SpinGlass.Proofs.Sample.Readout

/-!
# The energies of a compiled program

A vector counts if no chain is broken and the pins and chains of the embedded problem are met. On
the vectors that count, the machine reports the objective of the program up to one constant and a
positive factor, so that it ranks them as the program does.
-/

namespace SpinGlass

namespace Compiled

variable {K : Type}

/-- The spins of the variables in a vector. -/
def readout (c : Compiled K) (vector : Assignment) : Assignment :=
  c.physical.embedding.readout vector

/-- The spin of a name in a vector. -/
def spinOf (c : Compiled K) (vector : Assignment) (name : String) : Option Spin :=
  c.model.spinOf (c.readout vector) name

/-- A vector that counts: no chain is broken, and pins and chains are met. -/
structure Counts (c : Compiled K) (vector : Assignment) : Prop where
  intact : c.physical.embedding.Intact vector
  pins : c.model.problem.MeetsPins (c.readout vector)
  chains : c.model.problem.MeetsChains (c.readout vector)

/-- A vector that counts gives a spin to every variable. -/
theorem Counts.covers {c : Compiled K} {vector : Assignment} (h : c.Counts vector)
    (hvalid : c.physical.embedding.Valid c.model.symbols.size) :
    (c.readout vector).Covers c.model.symbols.size :=
  h.intact.covers_readout hvalid

end Compiled

/-- Pins and assertions add nothing to the objective, those of the options neither. -/
theorem CompileOptions.objective_statements (o : CompileOptions ℚ) (program : Program ℚ)
    (mode : Mode) (spins : String → Option Spin) :
    (o.statements program).objective mode spins = program.objective mode spins := by
  unfold statements Program.objective
  rw [List.map_append, List.sum_append, List.map_map, add_eq_left]
  refine List.sum_eq_zero fun amount hamount => ?_
  obtain ⟨pin, _, rfl⟩ := List.mem_map.mp hamount
  rfl

/-- Simplifying, if it is asked for, keeps the energy. -/
theorem CompileOptions.energy_simplify_eq {o : CompileOptions ℚ} {m m' : Model ℚ}
    (hm : m.Indexed) {report : Option SimplifyReport} (h : o.simplify m = .ok (report, m'))
    {t : Assignment} (ht : t.Covers m'.symbols.size) :
    m'.problem.energy t = m.problem.energy (o.extend m t) := by
  rcases simplify_cases hm h with ⟨r, aliased, fixed, hstages, hextend⟩ | ⟨_, rfl, hextend⟩
  · rw [hextend]
    exact hstages.energy_extend ht hm.isOver hm.plain.pending
  · rw [hextend]

namespace Passes

variable {o : CompileOptions ℚ} {program : Program ℚ} {target : Target} {cancelled : Bool}
  {built helped : Model ℚ} {c : Compiled ℚ}
  (h : Passes o program target cancelled built helped c)

include h

/-- The embedded problem has the objective of the program, plus what the helpers add. -/
theorem energy {t : Assignment} (ht : t.Covers c.model.symbols.size)
    (hpins : c.model.problem.MeetsPins t) :
    c.model.problem.energy t = program.objective o.mode (c.model.spinOf t) +
      2 * (built.problem.toIsing.assignStrengths o.chainStrength o.pinStrength).pin *
        built.problem.toIsing.userPins.length := by
  obtain ⟨report, hsimplify⟩ := h.simplify
  have hcovers := h.covers ht
  have hhelped := Model.energy_pinWithHelpers h.indexed_toIsing
    (Problem.toIsing_spec h.builds.built.isOver).2.mode (h.helpers ▸ h.lowers.meetsPins t hpins)
  have hising : built.problem.toIsing.energy (o.extend helped t) =
      built.problem.energy (o.extend helped t) :=
    Problem.energy_toIsing h.builds.built.isOver hcovers
  have hobjective :
      (o.statements program).objective o.mode (built.symbols.spinOf (o.extend helped t))
      = (o.statements program).objective o.mode (c.model.spinOf t) :=
    Program.objective_congr fun s hs name hname => (h.spinOf_names hs t name hname).symm
  rw [CompileOptions.energy_simplify_eq h.isHelped.indexed hsimplify ht]
  rw [← h.helpers] at hhelped
  rw [hhelped]
  rw [show (built.mapProblem (·.toIsing)).problem = built.problem.toIsing from rfl, hising,
    Model.energy_build h.build hcovers, hobjective, CompileOptions.objective_statements]

/-- The problem of the machine is the placed problem, multiplied by a positive factor. -/
theorem exists_eq_scaleBy (hweight : 0 < o.limits.weight) (hstrength : 0 < o.limits.strength) :
    0 < c.physical.scaleFactor ∧
      ∃ placed, PhysicalProblem.reconcile c.model.problem c.physical.embedding target
          (built.problem.toIsing.assignStrengths o.chainStrength o.pinStrength).chain = .ok placed ∧
        c.physical = placed.scaleBy c.physical.scaleFactor := by
  obtain ⟨_, placed, hreconcile, hphysical⟩ := h.placed
  obtain ⟨factor, hfactor, hscale⟩ := PhysicalProblem.exists_scale_eq hweight hstrength placed
  rw [← hphysical] at hscale
  have hfactor_eq : c.physical.scaleFactor = factor := by
    rw [hscale]
    change placed.scaleFactor * factor = factor
    rw [(PhysicalProblem.place_of_reconcile hreconcile).2, Coefficient.one_eq, one_mul]
  rw [hfactor_eq]
  exact ⟨hfactor, placed, hreconcile, hscale⟩

/-- A positive factor takes the energies of the placed problem to those of the machine. -/
theorem scaled (hweight : 0 < o.limits.weight) (hstrength : 0 < o.limits.strength) :
    0 < c.physical.scaleFactor ∧
      ∃ placed, PhysicalProblem.reconcile c.model.problem c.physical.embedding target
          (built.problem.toIsing.assignStrengths o.chainStrength o.pinStrength).chain = .ok placed ∧
        ∀ vector, c.physical.sampleEnergy vector =
          c.physical.scaleFactor * placed.sampleEnergy vector := by
  obtain ⟨hfactor, placed, hreconcile, hphysical⟩ := h.exists_eq_scaleBy hweight hstrength
  refine ⟨hfactor, placed, hreconcile, fun vector => ?_⟩
  rw [← PhysicalProblem.sampleEnergy_scaleBy, ← hphysical]

/-- A vector that counts has the energy of its assignment, up to constants. -/
theorem sampleEnergy_placed {placed : PhysicalProblem ℚ} {chainStrength : ℚ}
    (hreconcile : PhysicalProblem.reconcile c.model.problem c.physical.embedding target
      chainStrength = .ok placed) {vector : Assignment} (hcounts : c.Counts vector) :
    placed.sampleEnergy vector = c.model.problem.energy (c.readout vector) -
      c.model.problem.offset +
        PhysicalProblem.chainEnergy c.model.problem c.physical.embedding target chainStrength := by
  have hvalid := h.placed.1
  have hcovers := hcounts.covers hvalid
  refine PhysicalProblem.sampleEnergy_reconcile h.lowers.indexed.isOver h.mode hreconcile
    (hcounts.intact.shows hvalid.nonempty) (fun i hi => ?_) fun q hq => ?_
  · rw [hvalid.length] at hi
    exact hcovers i hi
  · obtain ⟨spin, hspin⟩ := hcovers q.lo (h.lowers.indexed.isOver.chains q hq).2.1
    exact ⟨spin, hspin, (hcounts.chains q hq).symm.trans hspin⟩

/-- All names of the program have a spin in a vector that counts. -/
theorem spinOf_of_counts {vector : Assignment} (hcounts : c.Counts vector) {s : Statement ℚ}
    (hs : s ∈ o.statements program) {name : String} (hname : name ∈ s.names) :
    ∃ spin, c.spinOf vector name = some spin :=
  h.exists_spinOf (hcounts.covers h.placed.1) hs hname

/-- On the vectors that count, the machine reports the objective of the program, up to a constant
and the factor of the scaling. -/
theorem exists_constant (hweight : 0 < o.limits.weight) (hstrength : 0 < o.limits.strength) :
    ∃ constant : ℚ, ∀ vector, c.Counts vector → c.physical.sampleEnergy vector =
      c.physical.scaleFactor * (program.objective o.mode (c.spinOf vector) + constant) := by
  obtain ⟨_, placed, hreconcile, hscaled⟩ := h.scaled hweight hstrength
  let strengths := built.problem.toIsing.assignStrengths o.chainStrength o.pinStrength
  refine ⟨2 * strengths.pin * built.problem.toIsing.userPins.length - c.model.problem.offset +
    PhysicalProblem.chainEnergy c.model.problem c.physical.embedding target strengths.chain,
    fun vector hcounts => ?_⟩
  rw [hscaled, h.sampleEnergy_placed hreconcile hcounts,
    h.energy (hcounts.covers h.placed.1) hcounts.pins, ← add_assoc, ← add_sub_assoc]
  rfl

end Passes

/-- A compiled program is faithful to its objective: on the vectors that count, the machine reports
the objective of the program plus a constant, times a positive factor. So it ranks them as the
program does. -/
theorem sampleEnergy_compile {o : CompileOptions ℚ} {program : Program ℚ} {target : Target}
    {cancelled : Bool} {c : Compiled ℚ} (hweight : 0 < o.limits.weight)
    (hstrength : 0 < o.limits.strength) (h : compile o program target cancelled = .ok c) :
    0 < c.physical.scaleFactor ∧
      (∃ constant : ℚ, ∀ vector, c.Counts vector →
        (∀ s ∈ program, ∀ name ∈ s.names, ∃ spin, c.spinOf vector name = some spin) ∧
          c.physical.sampleEnergy vector =
            c.physical.scaleFactor * (program.objective o.mode (c.spinOf vector) + constant)) ∧
      ∀ v w, c.Counts v → c.Counts w →
        (c.physical.sampleEnergy v ≤ c.physical.sampleEnergy w ↔
          program.objective o.mode (c.spinOf v) ≤ program.objective o.mode (c.spinOf w)) := by
  obtain ⟨built, helped, hpasses⟩ := passes_of_compile h
  obtain ⟨hfactor, _⟩ := hpasses.scaled hweight hstrength
  obtain ⟨constant, hconstant⟩ := hpasses.exists_constant hweight hstrength
  refine ⟨hfactor, ⟨constant, fun vector hcounts => ⟨fun s hs name hname => ?_,
    hconstant vector hcounts⟩⟩, fun v w hv hw => ?_⟩
  · exact hpasses.spinOf_of_counts hcounts (List.mem_append_left _ hs) hname
  · rw [hconstant v hv, hconstant w hw, mul_le_mul_iff_right₀ hfactor, add_le_add_iff_right]

/-- A program over bits with a pin, whose helper makes a path of three qubits of it. -/
theorem sampleEnergy_compile_pin :
    ∃ c : Compiled ℚ,
      compile { CompileOptions.default with
          mode := .qubo, optimize := false, embed := .dense 1 0 1 }
        [.weight "A" 1, .strength "A" "B" (-2), .pin "B" true] (.ofEdges [(0, 1), (1, 2)]) false =
          .ok c ∧
      c.Counts (fun _ => some .up) ∧ 0 < c.physical.scaleFactor ∧
      ∃ constant : ℚ, ∀ vector, c.Counts vector → c.physical.sampleEnergy vector =
        c.physical.scaleFactor *
          (Program.objective [.weight "A" 1, .strength "A" "B" (-2), .pin "B" true] .qubo
            (c.spinOf vector) + constant) := by
  have hvalues : (compile { CompileOptions.default with
          mode := .qubo, optimize := false, embed := .dense 1 0 1 }
        [.weight "A" (1 : ℚ), .strength "A" "B" (-2), .pin "B" true] (.ofEdges [(0, 1), (1, 2)])
        false).toOption.map (fun c => (c.physical.embedding.chains, c.model.problem.pinned.entries,
          KeySet.toList c.model.problem.chains)) =
      some ([[2], [1], [0]], [(1, .up), (2, .up)], []) := by decide +kernel
  generalize hcompile : compile (K := ℚ) _ _ _ _ = compiled at hvalues
  cases compiled with
  | error e => cases hvalues
  | ok c =>
    simp only [Except.toOption, Option.map_some, Option.some.injEq, Prod.mk.injEq] at hvalues
    obtain ⟨hembedding, hpinned, hchains⟩ := hvalues
    have hread : ∀ i < 3, c.readout (fun _ => some .up) i = some .up := by
      intro i hi
      have hmem := Embedding.chain_mem (e := c.physical.embedding) (by rwa [hembedding])
      rw [hembedding] at hmem
      refine Embedding.readout_eq_some (fun hnil => ?_) fun _ _ => rfl
      rw [hnil] at hmem
      simp at hmem
    obtain ⟨hfactor, ⟨constant, hconstant⟩, _⟩ :=
      sampleEnergy_compile (by decide +kernel) (by decide +kernel) hcompile
    refine ⟨c, rfl, ⟨fun _ _ => ⟨.up, fun _ _ => rfl⟩, fun i spin hi => ?_, fun q hq => ?_⟩,
      hfactor, constant, fun vector hcounts => (hconstant vector hcounts).2⟩
    · have hmem := Table.get?_eq_some_iff.mp hi
      rw [hpinned] at hmem
      simp only [List.mem_cons, Prod.mk.injEq, List.not_mem_nil, or_false] at hmem
      obtain ⟨rfl, rfl⟩ | ⟨rfl, rfl⟩ := hmem
      · exact hread 1 (by decide)
      · exact hread 2 (by decide)
    · have hmem := KeySet.mem_toList_iff.mpr hq
      rw [hchains] at hmem
      cases hmem

end SpinGlass

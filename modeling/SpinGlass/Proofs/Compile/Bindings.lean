import SpinGlass.Proofs.Compile.Reemit
import SpinGlass.Proofs.Expr.Names
import SpinGlass.Proofs.Sample.Reading

/-!
# Names of a compiled program

A name of a program ends up with an index or with a known value, and never with both, whatever
becomes of its variable. The only other names are generated ones. So a sample without a broken chain
has a spin for every name of the program that is not generated, and for no other, and no assertion
lacks a value.
-/

namespace SpinGlass

namespace Model

variable {K : Type}

/-- A name has an index or a known value. -/
def Binds (m : Model K) (name : String) : Prop :=
  (∃ i, m.symbols.lookup? name = some i) ∨ ∃ spin, m.problem.knownValues.get? name = some spin

/-- A name has an allocated index and no known value, or a known value and no index. -/
def BindsOnce (m : Model K) (name : String) : Prop :=
  ((∃ i < m.symbols.size, m.symbols.lookup? name = some i) ∧
    m.problem.knownValues.get? name = none) ∨
  m.symbols.lookup? name = none ∧ ∃ spin, m.problem.knownValues.get? name = some spin

theorem BindsOnce.binds {m : Model K} {name : String} (h : m.BindsOnce name) : m.Binds name :=
  h.imp (fun ⟨⟨i, _, hi⟩, _⟩ => ⟨i, hi⟩) fun ⟨_, hspin⟩ => hspin

end Model

/-- A name is written in a program or is pinned by an option. -/
def CompileOptions.Mentions {K : Type} [Coefficient K] (o : CompileOptions K) (program : Program K)
    (name : String) : Prop :=
  ∃ s ∈ o.statements program, name ∈ s.written

/-- A solution with a spin for every name of some that is not generated, for no other name, and
without an assertion that lacks a value. -/
structure Solution.Complete {K : Type} (s : Solution K) (names : String → Prop) : Prop where
  values_iff : ∀ name, (∃ v, s.values.get? name = some v) ↔
    names name ∧ isInternalName name = false
  spins : ∀ name v, s.values.get? name = some v → ∃ spin, v = some spin
  assertions : ∀ outcome ∈ s.assertions, ∀ name,
    outcome.error ≠ some (EvalError.unknown name).message

namespace Decoder

variable {K : Type} {d : Decoder K} {vector : Array Int}

/-- If no chain is broken, every variable is read. -/
theorem covers_reading (hvalid : d.embedding.Valid d.model.symbols.size)
    (hbroken : (d.splitVars vector).map d.displayName = []) :
    (d.reading vector).Covers d.model.symbols.size := by
  intro i hi
  have hne : d.chainSpins vector i ≠ [] := by
    simpa [chainSpins] using hvalid.chain_ne_nil hi
  have hsplit : isSplit (d.chainSpins vector i) = false := by
    rw [List.map_eq_nil_iff, splitVars, List.filter_eq_nil_iff] at hbroken
    simpa using hbroken i (List.mem_range.mpr hi)
  obtain ⟨spin, hspin⟩ := (isSplit_eq_false_iff hne).mp hsplit
  exact ⟨spin, by rw [reading, if_pos hi, hspin]⟩

section Reads

variable {spins : Assignment} {broken : List Nat} {s : Solution K}

/-- The names with a value are those that are bound and not generated. -/
theorem Reads.exists_value_iff (h : d.Reads vector spins broken s) (name : String) :
    (∃ v, s.values.get? name = some v) ↔ d.model.Binds name ∧ isInternalName name = false := by
  rw [h.values]
  cases hname : isInternalName name with
  | true => simp
  | false =>
    simp only [Bool.false_eq_true, if_false, and_true, Model.Binds]
    cases d.model.problem.knownValues.get? name with
    | some spin => simp
    | none => cases d.model.symbols.lookup? name <;> simp

/-- Where all variables are read, all values are spins. -/
theorem Reads.exists_spin (h : d.Reads vector spins broken s)
    (hcovers : spins.Covers d.model.symbols.size)
    (hlt : ∀ name i, d.model.symbols.lookup? name = some i → i < d.model.symbols.size)
    {name : String} {v : Option Spin} (hv : s.values.get? name = some v) :
    ∃ spin, v = some spin := by
  rw [h.values] at hv
  split at hv
  · cases hv
  · cases hknown : d.model.problem.knownValues.get? name with
    | some spin =>
      rw [hknown] at hv
      cases hv
      exact ⟨spin, rfl⟩
    | none =>
      rw [hknown, Option.map_none, Option.none_or, Option.map_eq_some_iff] at hv
      obtain ⟨i, hi, rfl⟩ := hv
      exact hcovers i (hlt name i hi)

end Reads

end Decoder

namespace Passes

variable {K : Type} [Coefficient K] {o : CompileOptions K} {program : Program K} {target : Target}
  {cancelled : Bool} {built helped : Model K} {c : Compiled K}
  (h : Passes o program target cancelled built helped c)

include h

/-- A name that is mentioned is bound once. -/
theorem bindsOnce {name : String} (hname : o.Mentions program name) : c.model.BindsOnce name := by
  obtain ⟨n, _, hnamed⟩ := h.exists_helpersFrom
  have hplain := h.lowers.indexed.plain
  have hintroduced := (CompileOptions.introduces_iff h.build name).mpr hname
  rcases hnamed.kept name hintroduced with ⟨i, _, hi⟩ | ⟨spin, hspin⟩
  · refine .inl ⟨⟨i, hplain.lt_size name i hi, ?_⟩, h.lowers.knownApart name i hi⟩
    rw [hplain.lookup?, hi]
  · refine .inr ⟨?_, spin, hspin⟩
    rw [hplain.lookup?]
    refine Option.eq_none_iff_forall_ne_some.mpr fun i hi => ?_
    exact Option.some_ne_none spin (hspin.symm.trans (h.lowers.knownApart name i hi))

/-- A name that is bound is mentioned, or generated. -/
theorem mentions_of_binds {name : String} (hname : c.model.Binds name)
    (hword : isInternalName name = false) : o.Mentions program name := by
  obtain ⟨n, _, hnamed⟩ := h.exists_helpersFrom
  have hgenerated : ¬ isInternalName name = true := by simp [hword]
  rw [CompileOptions.Mentions, ← CompileOptions.introduces_iff h.build]
  rcases hname with ⟨i, hi⟩ | ⟨spin, hspin⟩
  · rw [h.lowers.indexed.plain.lookup?] at hi
    by_cases hlt : i < n
    · exact hnamed.below name i hlt hi
    · exact absurd (hnamed.generated name i (Nat.not_lt.mp hlt) hi) hgenerated
  · exact (hnamed.known name spin hspin).resolve_left hgenerated

/-- A sample without a broken chain has a spin for every name that is mentioned. -/
theorem complete (hnames : ∀ s ∈ program, ∀ name ∈ s.written, isInternalName name = false)
    {vector : Array Int} {energy : K} {occurrences : Nat} {s : Solution K}
    (hs : c.decoder.decodeSample vector energy occurrences = .ok s)
    (hbroken : s.brokenChains = []) : s.Complete (o.Mentions program) := by
  obtain ⟨hlegible, rfl⟩ := Decoder.decodeSample_eq_ok_iff.mp hs
  have hreads := Decoder.reads_decoded hlegible energy occurrences
  have hcovers := Decoder.covers_reading (d := c.decoder) h.placed.1 hbroken
  have hplain := h.lowers.indexed.plain
  have hvalues : ∀ name, (∃ v, (c.decoder.decoded vector energy occurrences).values.get? name =
      some v) ↔ o.Mentions program name ∧ isInternalName name = false := by
    intro name
    rw [hreads.exists_value_iff]
    exact and_congr_left fun hword =>
      ⟨fun hbinds => h.mentions_of_binds hbinds hword, fun hname => (h.bindsOnce hname).binds⟩
  have hspins : ∀ name v, (c.decoder.decoded vector energy occurrences).values.get? name = some v →
      ∃ spin, v = some spin := by
    intro name v hv
    refine hreads.exists_spin hcovers (fun name i hi => hplain.lt_size name i ?_) hv
    rwa [← hplain.lookup?]
  refine ⟨hvalues, hspins, fun outcome houtcome name => ?_⟩
  rw [hreads.assertions] at houtcome
  obtain ⟨e, he, rfl⟩ := List.mem_map.mp houtcome
  refine Expr.error_check_ne_unknown (fun other hother => ?_) name
  -- the names of assertions are names of the program
  have hstatement := h.mem_assertions_iff.mp he
  have hprogram : Statement.assert e ∈ program := by
    simpa [CompileOptions.statements] using hstatement
  obtain ⟨v, hv⟩ := (hvalues other).mpr ⟨⟨_, hstatement, hother⟩, hnames _ hprogram other hother⟩
  obtain ⟨spin, rfl⟩ := hspins other v hv
  exact ⟨spin.toBool, by rw [Solution.value, hv]; rfl⟩

end Passes

/-- Every name of a compiled program and of its extra pins has an index or a known value, but not
both, and all other names are generated. A sample without a broken chain has a spin for each of
these names that does not look generated, and for no other, and every assertion finds its values; so
does every such solution of a report. -/
theorem bindsOnce_compile {K : Type} [Coefficient K] {o : CompileOptions K} {program : Program K}
    {target : Target} {cancelled : Bool} {c : Compiled K}
    (hnames : ∀ s ∈ program, ∀ name ∈ s.written, isInternalName name = false)
    (h : compile o program target cancelled = .ok c) :
    (∀ name, o.Mentions program name → c.model.BindsOnce name) ∧
    (∀ name, c.model.Binds name → isInternalName name = false → o.Mentions program name) ∧
    (∀ vector energy occurrences s, c.decoder.decodeSample vector energy occurrences = .ok s →
      s.brokenChains = [] → s.Complete (o.Mentions program)) ∧
    ∀ raw options report, c.decoder.decode raw options = .ok report →
      ∀ s ∈ report.solutions, s.brokenChains = [] → s.Complete (o.Mentions program) := by
  obtain ⟨built, helped, hpasses⟩ := passes_of_compile h
  refine ⟨fun _ => hpasses.bindsOnce, fun _ => hpasses.mentions_of_binds,
    fun _ _ _ _ => hpasses.complete hnames, fun raw options report hreport => ?_⟩
  refine Decoder.forall_mem_report (fun s n hs hbroken => ?_)
    (fun _ _ _ _ => hpasses.complete hnames) hreport
  obtain ⟨hvalues, hspins, hassertions⟩ := hs hbroken
  exact ⟨hvalues, hspins, hassertions⟩

/-- In a program with a chain and an extra pin, the pinned name is bound once, and it has a spin in
the sample that points up. -/
theorem bindsOnce_compile_pinned : ∃ (c : Compiled ℚ) (s : Solution ℚ) (spin : Spin),
    compile { CompileOptions.default with
        extraPins := .ofList [("C", true)], embed := .dense 1 0 1 }
      [.weight "A" 1, .strength "A" "B" (-2), .chain "B" "C",
        .assert (.binary .or (.var "A") (.var "B"))] (.ofEdges [(0, 1), (1, 2)]) false = .ok c ∧
    c.model.BindsOnce "C" ∧ c.decoder.decodeSample #[1, 1, 1] 0 1 = .ok s ∧
    s.values.get? "C" = some (some spin) := by
  have hread : ((compile { CompileOptions.default with
        extraPins := .ofList [("C", true)], embed := .dense 1 0 1 }
      [.weight "A" (1 : ℚ), .strength "A" "B" (-2), .chain "B" "C",
        .assert (.binary .or (.var "A") (.var "B"))] (.ofEdges [(0, 1), (1, 2)])
      false).toOption.bind fun c =>
        (c.decoder.decodeSample #[1, 1, 1] 0 1).toOption.map (·.brokenChains)) = some [] := by
    decide +kernel
  obtain ⟨c, hcompile, hread⟩ := Option.bind_eq_some_iff.mp hread
  obtain ⟨s, hs, hbroken⟩ := Option.map_eq_some_iff.mp hread
  have hcompile := toOption_eq_some_iff.mp hcompile
  have hs := toOption_eq_some_iff.mp hs
  obtain ⟨honce, _, hcomplete, _⟩ := bindsOnce_compile (by decide +kernel) hcompile
  have hpinned : ∃ s ∈ CompileOptions.statements { CompileOptions.default with
        extraPins := .ofList [("C", true)], embed := .dense 1 0 1 }
      [.weight "A" (1 : ℚ), .strength "A" "B" (-2), .chain "B" "C",
        .assert (.binary .or (.var "A") (.var "B"))], "C" ∈ s.written :=
    ⟨.chain "B" "C", by decide +kernel, by decide⟩
  have hsolution := hcomplete _ _ _ s hs hbroken
  obtain ⟨v, hv⟩ := (hsolution.values_iff "C").mpr ⟨hpinned, by decide +kernel⟩
  obtain ⟨spin, rfl⟩ := hsolution.spins "C" v hv
  exact ⟨c, s, spin, hcompile, honce "C" hpinned, hs, hv⟩

/-- An extra pin of a name that looks generated has no value in a sample without a broken chain. -/
theorem exists_extraPin_hidden :
    ¬ ∀ (o : CompileOptions ℚ) (program : Program ℚ) (target : Target) (c : Compiled ℚ),
      (∀ s ∈ program, ∀ name ∈ s.written, isInternalName name = false) →
      compile o program target false = .ok c →
      ∀ vector energy occurrences s,
        c.decoder.decodeSample vector energy occurrences = .ok s → s.brokenChains = [] →
        ∀ name, (∃ v, s.values.get? name = some v) ↔ o.Mentions program name := by
  intro hall
  have hread : ((compile { CompileOptions.default with
          extraPins := .ofList [("$x", true)], embed := .dense 1 0 1 }
      [.strength "A" "B" (1 : ℚ)] (.ofEdges [(0, 1)]) false).toOption.bind fun c =>
        (c.decoder.decodeSample #[1, -1] 0 1).toOption.map fun s =>
          (s.brokenChains, s.values.get? "$x")) = some ([], none) := by decide +kernel
  obtain ⟨c, hcompile, hread⟩ := Option.bind_eq_some_iff.mp hread
  obtain ⟨s, hs, hread⟩ := Option.map_eq_some_iff.mp hread
  obtain ⟨hbroken, hvalue⟩ := Prod.mk.injEq .. ▸ hread
  have hiff := hall _ _ _ c (by decide +kernel) (toOption_eq_some_iff.mp hcompile) _ _ _ s
    (toOption_eq_some_iff.mp hs) hbroken "$x"
  obtain ⟨v, hv⟩ := hiff.mpr ⟨.pin "$x" true, by decide +kernel, by decide⟩
  exact Option.some_ne_none v (hv.symm.trans hvalue)

end SpinGlass

import SpinGlass.Proofs.Simplify.Clash
import SpinGlass.Proofs.Simplify.Inference
import SpinGlass.Proofs.Symbols.Batch

/-!
# Simplifying again

A simplification leaves no chain and no coefficient that is zero, and nothing is forced before its
last pruning. That pruning can free a pinned variable: couplings that cancel where chains meet are
stored as zero while the propagation looks at them, and are gone afterwards. So a second run is idle
exactly if every pinned variable is coupled to another that is no helper of its own. Merges are all
that makes couplings cancel, and after the first run no chain is left, so a third run is idle.
-/

namespace SpinGlass

namespace Problem

section Identity

variable {K : Type} {p : Problem K} {n : Nat}

/-- A renumbering that keeps every index changes nothing. -/
theorem renumber_identity (hp : p.Over (· < n)) : p.renumber (.identity n) = p := by
  have hpair : ∀ q : Pair, q.Joins (· < n) → q.renumber (.identity n) = some q := by
    rintro q ⟨hlt, hlo, hhi⟩
    simp [Pair.renumber, Remap.get?_identity hlo, Remap.get?_identity hhi, Pair.of_of_lt hlt]
  have hweights : p.weights.filterMapKeys (Remap.identity n).get? = p.weights :=
    Table.ofList_filterMap_eq_self fun e he => by
      simp [Remap.get?_identity (hp.weights e.1 e.2 (Table.get?_eq_some_iff.mpr he))]
  have hstrengths : p.strengths.filterMapKeys (Pair.renumber (.identity n)) = p.strengths :=
    Table.ofList_filterMap_eq_self fun e he => by
      simp [hpair e.1 (hp.strengths e.1 e.2 (Table.get?_eq_some_iff.mpr he))]
  have hchains : Table.filterMapKeys p.chains (Pair.renumber (.identity n)) = p.chains :=
    Table.ofList_filterMap_eq_self fun e he => by
      have hcontains := Table.contains_iff.mpr ⟨e.2, Table.get?_eq_some_iff.mpr he⟩
      simp [hpair e.1 (hp.chains e.1 hcontains)]
  have hpinned : p.pinned.filterMapKeys (Remap.identity n).get? = p.pinned :=
    Table.ofList_filterMap_eq_self fun e he => by
      simp [Remap.get?_identity (hp.pinned e.1 e.2 (Table.get?_eq_some_iff.mpr he))]
  have hhelpers : (p.renumber (.identity n)).pinHelpers = p.pinHelpers :=
    Table.ofList_filterMap_eq_self fun e he => by
      obtain ⟨hhelper, huser⟩ := hp.helpers e.1 e.2 (Table.get?_eq_some_iff.mpr he)
      simp [Remap.get?_identity hhelper, Remap.get?_identity huser]
  simp only [renumber] at hhelpers ⊢
  rw [hweights, hstrengths, hchains, hpinned, hhelpers]

end Identity

section Released

variable {K : Type} {p : Problem K} {i : Nat}

theorem inChain_of_chains (h : p.chains = .empty) (i : Nat) : p.inChain i = false := by
  unfold inChain
  rw [h]
  rfl

/-- A pin is released unless the variable has a neighbour that is no helper of its own. -/
theorem releasedPin_eq_none_iff {terms : List (Nat × K)} : p.releasedPin i terms = none ↔
    ∀ spin, p.pinned.get? i = some spin → ∃ t ∈ terms, p.pinHelpers.get? t.1 ≠ some i := by
  unfold releasedPin
  rw [ite_eq_right_iff]
  constructor
  · intro hreleased spin hpin
    by_contra hnone
    push Not at hnone
    rw [hreleased (by simpa using hnone)] at hpin
    cases hpin
  · intro hneighbours hall
    refine Option.eq_none_iff_forall_ne_some.mpr fun spin hpin => ?_
    obtain ⟨t, ht, hne⟩ := hneighbours spin hpin
    exact hne (by simpa using List.all_eq_true.mp hall t ht)

end Released

section Terms

variable {p p' : Problem ℚ} {s : Symbols} {remap : Remap} {i : Nat} {f : ℚ → ℚ}

theorem weight_pruneZeros (p : Problem ℚ) (i : Nat) : p.pruneZeros.weight i = p.weight i := by
  unfold weight pruneZeros Table.nonzero
  rw [Table.get?_filter]
  cases p.weights.get? i with
  | none => rfl
  | some w =>
    by_cases hw : w = 0 <;> simp [Option.filter, hw, ← Bool.not_eq_true, Coefficient.isZero_iff]

/-- A sum over the couplings of a variable is one over all couplings. -/
theorem sum_incident (p : Problem ℚ) (i : Nat) (f : ℚ → ℚ) :
    ((p.incident i).map fun t => f t.2).sum =
      p.strengths.total fun q j => if q.contains i = true then f j else 0 := by
  rw [← Table.total_filter (p := fun q _ => q.contains i) fun q j _ hq => by simp [hq]]
  unfold incident Table.total Table.filter
  rw [List.map_map]
  congr 1
  refine List.map_congr_left fun e he => ?_
  simp [(List.mem_filter.mp he).2]

/-- Couplings that are zero do not count in a sum whose summand vanishes there. -/
theorem sum_incident_pruneZeros (hf : f 0 = 0) :
    ((p.pruneZeros.incident i).map fun t => f t.2).sum =
      ((p.incident i).map fun t => f t.2).sum := by
  rw [sum_incident, sum_incident]
  exact Table.total_nonzero p.strengths fun q => by simp [hf]

/-- The number of a root has the couplings of the root. -/
theorem sum_incident_rank (hremap : Ranks remap s) (hp : p.Over s.IsRoot) (hi : s.IsRoot i) :
    (((p.renumber remap).incident (s.rank i)).map fun t => f t.2).sum =
      ((p.incident i).map fun t => f t.2).sum := by
  have hrank : ∀ {k}, s.IsRoot k → (s.rank k = s.rank i ↔ k = i) := fun hk =>
    ⟨Symbols.eq_of_rank_eq hk hi, fun h => h ▸ rfl⟩
  rw [sum_incident, sum_incident]
  refine (Table.total_filterMapKeys (g := rankPair s)
    (fun r j hr => renumber_pair hremap (hp.strengths r j hr))
    (fun a _ j _ ha _ => compare_rankPair (hp.strengths a j ha)) _).trans
    (Table.total_congr fun q j hq => ?_)
  obtain ⟨_, hlo, hhi⟩ := hp.strengths q j hq
  simp only [Pair.contains, rankPair, Bool.or_eq_true, beq_iff_eq, hrank hlo, hrank hhi]

/-- Whether a spin dominates depends on the weight and on sums over the couplings. -/
theorem dominatingSpin_congr {k : Nat} (hmode : p'.mode = p.mode)
    (hweight : p'.weight k = p.weight i)
    (hsums : ∀ f : ℚ → ℚ, f 0 = 0 → ((p'.incident k).map fun t => f t.2).sum =
      ((p.incident i).map fun t => f t.2).sum) :
    p'.dominatingSpin k (p'.incident k) = p.dominatingSpin i (p.incident i) := by
  unfold dominatingSpin
  simp only [hmode, hweight, Coefficient.sum_eq, Coefficient.magnitude_eq_abs,
    Coefficient.smaller_eq_min, Coefficient.larger_eq_max]
  rw [hsums (|·|) abs_zero, hsums (min · 0) (min_self 0), hsums (max · 0) (max_self 0)]

end Terms

end Problem

namespace Model

section Idle

variable {K : Type} [Coefficient K] {m : Model K} {foldDominated : Bool}

/-- A simplification finds nothing to do. -/
def Idle (m : Model K) (foldDominated : Bool) : Prop :=
  m.simplify foldDominated = .ok (⟨m.symbols.size, m.symbols.size, 0, 0⟩, m)

/-- What a simplification leaves: a problem over the allocated indices, without chains and without
coefficients that are zero, and a table without links. -/
structure Simplified (m : Model K) : Prop where
  isOver : m.problem.Over (· < m.symbols.size)
  pending : m.symbols.pending = .empty
  chains : m.problem.chains = .empty
  pruned : m.problem.pruneZeros = m.problem

theorem Simplified.mapProblem_eq (h : m.Simplified) : m.mapProblem (·.pruneZeros) = m := by
  simp only [mapProblem, h.pruned]

theorem Simplified.wellLinked (h : m.Simplified) : m.WellLinked := by
  have hlinked := wellLinked_pruneZeros h.isOver h.pending
  rwa [h.mapProblem_eq] at hlinked

/-- Without chains there is nothing to alias. -/
theorem aliasChains_of_chains (h : m.problem.chains = .empty) : m.aliasChains = .ok (0, m) := by
  unfold aliasChains
  rw [h]
  rfl

/-- Without chains and without forced variables there is nothing to propagate. -/
theorem Settled.propagateConstants_eq (h : m.Settled foldDominated)
    (hchains : m.problem.chains = .empty) :
    m.propagateConstants foldDominated = .ok (0, m) := by
  have hround : ∀ indices : List Nat, (∀ i ∈ indices, i ∈ m.problem.activeIndices) →
      indices.foldlM (fixIfForced foldDominated) (0, m) = .ok (0, m) := by
    intro indices hactive
    induction indices with
    | nil => rfl
    | cons i rest ih =>
      have hfree := Problem.inChain_of_chains hchains i
      have hvisit : fixIfForced foldDominated (0, m) i = .ok (0, m) := by
        unfold fixIfForced
        simp only [hfree, h i (hactive i List.mem_cons_self) hfree, Bool.false_eq_true, if_false]
        rfl
      rw [List.foldlM_cons, hvisit]
      exact ih fun k hk => hactive k (List.mem_cons_of_mem _ hk)
  unfold propagateConstants propagateRounds
  rw [hround _ fun _ hi => hi]
  rfl

/-- When nothing is forced, a pinned variable has a neighbour that is no helper of its own. -/
theorem Settled.exists_neighbour (h : m.Settled foldDominated) (hchains : m.problem.chains = .empty)
    {i : Nat} {spin : Spin} (hpin : m.problem.pinned.get? i = some spin) :
    ∃ t ∈ m.problem.incident i, m.problem.pinHelpers.get? t.1 ≠ some i := by
  have hactive := Problem.mem_activeIndices_iff.mpr (.inr (.inr ⟨spin, hpin⟩))
  have hforced := h i hactive (Problem.inChain_of_chains hchains i)
  exact Problem.releasedPin_eq_none_iff.mp (Option.or_eq_none_iff.mp hforced).1 spin hpin

/-- A second run is idle exactly if nothing is forced. -/
theorem Simplified.idle_iff (h : m.Simplified) :
    m.Idle foldDominated ↔ m.Settled foldDominated := by
  constructor
  · intro hidle
    obtain ⟨a, f, _, _, haliases, hpropagate, _⟩ := simplify_eq_ok hidle
    rw [h.mapProblem_eq, aliasChains_of_chains h.chains] at haliases
    cases haliases
    obtain ⟨log, hnotes⟩ := exists_noteConstants hpropagate
    obtain ⟨log', hlength, hfixes⟩ := exists_fixes_of_propagateConstants h.wellLinked hpropagate
    obtain rfl := List.length_eq_zero_iff.mp hlength
    cases hfixes
    exact settled_of_noteConstants h.wellLinked hnotes
  · intro hsettled
    have hcompact : m.compact = .ok (.identity m.symbols.size, m) := by
      unfold compact Symbols.compact
      rw [if_pos (Table.isEmpty_iff.mpr h.pending)]
      simp only [Problem.renumber_identity h.isOver]
    unfold Idle simplify
    rw [h.mapProblem_eq, aliasChains_of_chains h.chains]
    simp only [Bind.bind, Except.bind, hsettled.propagateConstants_eq h.chains, hcompact,
      h.mapProblem_eq]
    rfl

end Idle

namespace Stages

section Left

variable {K : Type} [Coefficient K] {m aliased fixed m' : Model K} {foldDominated : Bool}
  {r : Reduction} (h : m.Stages foldDominated r aliased fixed m')

include h

/-- The couplings that are left are those after aliasing. -/
theorem strengths_fixed {q : Pair} {j : K} (hq : fixed.problem.strengths.get? q = some j) :
    aliased.problem.strengths.get? q = some j := by
  obtain ⟨_, hlo, hhi⟩ := h.isOver_fixed.strengths q j hq
  have hfree : ∀ i, fixed.symbols.IsRoot i → r.fixings.spin? i = none := fun i hi =>
    ((h.isPropagated.isRoot_iff h.isAliased.wellLinked).mp hi).2
  rw [← (h.fixes.kept h.isAliased.wellLinked).strengths q (hfree _ hlo) (hfree _ hhi), hq]

end Left

section Pins

variable {m aliased fixed m' : Model ℚ} {foldDominated : Bool} {r : Reduction}
  (h : m.Stages foldDominated r aliased fixed m')

include h

theorem simplified : m'.Simplified where
  isOver := h.isOver_simplified
  pending := h.pending
  chains := by
    rw [h.problem]
    change Table.filterMapKeys fixed.problem.chains _ = _
    rw [h.chains_fixed]
    rfl
  pruned := by
    rw [h.problem]
    unfold Problem.pruneZeros
    simp only [Table.nonzero, Table.filter, List.filter_filter, Bool.and_self]

/-- What is active at the end was active before the renumbering. -/
theorem mem_activeIndices_fixed {i : Nat} (hi : fixed.symbols.IsRoot i)
    (hactive : fixed.symbols.rank i ∈ m'.problem.activeIndices) :
    i ∈ fixed.problem.activeIndices := by
  have hsame : ∀ {k}, fixed.symbols.IsRoot k → fixed.symbols.rank i = fixed.symbols.rank k →
      i = k := fun hk heq => Symbols.eq_of_rank_eq hi hk heq
  rw [h.problem] at hactive
  rcases Problem.mem_activeIndices_iff.mp hactive with ⟨w, hw⟩ | ⟨q, hq, hends⟩ | ⟨spin, hpin⟩
  · have hstored := (Table.get?_nonzero.mp hw).1
    rw [Problem.get?_weights_rank h.ranks h.isOver_fixed hi] at hstored
    exact Problem.mem_activeIndices_iff.mpr (.inl ⟨w, hstored⟩)
  · rcases hq with ⟨j, hj⟩ | hchain
    · obtain ⟨pair, hpair, rfl⟩ := (Problem.get?_renumber_strengths h.ranks h.isOver_fixed).mp
        (Table.get?_nonzero.mp hj).1
      obtain ⟨_, hlo, hhi⟩ := h.isOver_fixed.strengths pair j hpair
      refine Problem.mem_activeIndices_iff.mpr (.inr (.inl ⟨pair, .inl ⟨j, hpair⟩, ?_⟩))
      exact hends.imp (hsame hlo) (hsame hhi)
    · rw [← h.problem, h.simplified.chains, KeySet.contains_empty] at hchain
      cases hchain
  · have hstored := hpin
    rw [Problem.pruneZeros, Problem.get?_pinned_rank h.ranks h.isOver_fixed hi] at hstored
    exact Problem.mem_activeIndices_iff.mpr (.inr (.inr ⟨spin, hstored⟩))

/-- Pruning and renumbering let no variable dominate. -/
theorem dominatingSpin_eq {i : Nat} (hi : fixed.symbols.IsRoot i) :
    m'.problem.dominatingSpin (fixed.symbols.rank i)
        (m'.problem.incident (fixed.symbols.rank i)) =
      fixed.problem.dominatingSpin i (fixed.problem.incident i) := by
  rw [h.problem]
  refine Problem.dominatingSpin_congr rfl ?_ fun f hf => ?_
  · rw [Problem.weight_pruneZeros, Problem.weight,
      Problem.get?_weights_rank h.ranks h.isOver_fixed hi]
    rfl
  · rw [Problem.sum_incident_pruneZeros hf, Problem.sum_incident_rank h.ranks h.isOver_fixed hi]

/-- A second run is idle exactly if every pinned variable has a neighbour that is no helper of its
own. -/
theorem idle_iff : m'.Idle foldDominated ↔
    ∀ i spin, m'.problem.pinned.get? i = some spin →
      ∃ t ∈ m'.problem.incident i, m'.problem.pinHelpers.get? t.1 ≠ some i := by
  rw [h.simplified.idle_iff]
  constructor
  · exact fun hsettled i spin hpin => hsettled.exists_neighbour h.simplified.chains hpin
  · intro hneighbours k hactive _
    have hk := h.isOver_simplified.mem_activeIndices hactive
    rw [h.size] at hk
    obtain ⟨i, hi, rfl⟩ := Symbols.exists_rank_eq hk
    -- nothing dominates that did not before, and nothing did
    have hforced := h.settled i (h.mem_activeIndices_fixed hi hactive)
      (Problem.inChain_of_chains h.chains_fixed i)
    refine Option.or_eq_none_iff.mpr
      ⟨Problem.releasedPin_eq_none_iff.mpr (hneighbours _), ?_⟩
    rw [h.dominatingSpin_eq hi]
    exact (Option.or_eq_none_iff.mp hforced).2

/-- If no coupling cancels where chains meet, a second run is idle. -/
theorem idle_of_strengths (hstored : ∀ q, aliased.problem.strengths.get? q ≠ some 0) :
    m'.Idle foldDominated := by
  rw [h.idle_iff]
  intro k spin hpin
  rw [h.problem] at hpin
  obtain ⟨i, hi, rfl⟩ := (Problem.get?_renumber_pinned h.ranks h.isOver_fixed).mp hpin
  have hroot := h.isOver_fixed.pinned i spin hi
  obtain ⟨t, ht, hne⟩ := h.settled.exists_neighbour h.chains_fixed hi
  obtain ⟨hlive, hother⟩ := Problem.mem_incident h.isOver_fixed ht
  have hget := ((Problem.mem_incident_iff h.isOver_fixed).mp ht).2
  have hzero : t.2 ≠ 0 := fun hzero => hstored _ (by rw [h.strengths_fixed hget, hzero])
  refine ⟨(fixed.symbols.rank t.1, t.2), ?_, ?_⟩
  · refine (Problem.mem_incident_iff h.isOver_simplified).mpr ⟨fun heq => ?_, ?_⟩
    · exact hother (Symbols.eq_of_rank_eq hlive hroot heq)
    · rw [h.problem]
      refine Table.get?_nonzero.mpr ⟨?_, hzero⟩
      rw [Problem.get?_strengths_rank h.ranks h.isOver_fixed hroot hlive, hget]
  · rw [h.problem]
    exact fun hhelper => hne
      ((Problem.get?_pinHelpers_rank h.ranks h.isOver_fixed hlive hroot).mp hhelper)

end Pins

end Stages

section Runs

variable {m m' : Model ℚ} {foldDominated : Bool} {report : SimplifyReport}

/-- Without chains no coupling cancels, so a second run is idle. -/
theorem idle_of_chains (hover : m.problem.Over (· < m.symbols.size))
    (hpending : m.symbols.pending = .empty) (hchains : m.problem.chains = .empty)
    (h : m.simplify foldDominated = .ok (report, m')) :
    report.aliased = 0 ∧ m'.Idle foldDominated := by
  have hnone : (m.mapProblem (·.pruneZeros)).aliasChains =
      .ok (0, m.mapProblem (·.pruneZeros)) := aliasChains_of_chains hchains
  obtain ⟨a, _, _, _, haliases, _⟩ := simplify_eq_ok h
  obtain ⟨r, fixed, _, hstages⟩ := stages_of_aliasChains hover hpending hnone h
  have hcount := (Prod.mk.inj (Except.ok.inj (haliases.symm.trans hnone))).1
  exact ⟨hcount, hstages.idle_of_strengths fun q hq => (Table.get?_nonzero.mp hq).2 rfl⟩

/-- Without dominance nothing stops a second run. -/
theorem Simplified.exists_simplify_eq_ok (h : m.Simplified) (hplain : m.symbols.Plain) :
    ∃ report m', m.simplify false = .ok (report, m') := by
  have hnone := aliasChains_of_chains h.chains
  rw [← h.mapProblem_eq] at hnone
  have hclash : ¬ m.problem.Clashes m.symbols.size :=
    (exists_aliasChains_eq_ok_iff h.isOver h.pending).mp ⟨_, _, hnone⟩
  cases hresult : m.simplify false with
  | ok result => exact ⟨result.1, result.2, rfl⟩
  | error e =>
    rcases simplify_error_cases h.isOver h.pending hresult with ⟨_, hyes⟩ | ⟨_, _, name, i, hi, hle⟩
    · exact absurd hyes hclash
    · exact absurd (hplain.lt_size name i hi) (Nat.not_lt.mpr hle)

/-- What a second run finds. It is idle exactly if every pinned variable is coupled to another that
is no helper of its own, and so if no coupling cancels where chains meet. Without dominance it
succeeds in any case. It never merges, and a third run is idle. -/
theorem simplify_again (hover : m.problem.Over (· < m.symbols.size))
    (hpending : m.symbols.pending = .empty) (h : m.simplify foldDominated = .ok (report, m')) :
    (m'.Idle foldDominated ↔ ∀ i spin, m'.problem.pinned.get? i = some spin →
        ∃ t ∈ m'.problem.incident i, m'.problem.pinHelpers.get? t.1 ≠ some i) ∧
      (∀ count a, (m.mapProblem (·.pruneZeros)).aliasChains = .ok (count, a) →
        (∀ q, a.problem.strengths.get? q ≠ some 0) → m'.Idle foldDominated) ∧
      (foldDominated = false → m.symbols.Plain →
        ∃ report' m'', m'.simplify foldDominated = .ok (report', m'')) ∧
      ∀ report' m'', m'.simplify foldDominated = .ok (report', m'') →
        report'.aliased = 0 ∧ m''.Idle foldDominated := by
  obtain ⟨_, _, _, _, hstages⟩ := stages_of_simplify hover hpending h
  refine ⟨hstages.idle_iff, fun count a haliases hstored => ?_, fun hfold hplain => ?_,
    fun report' m'' h' => ?_⟩
  · obtain ⟨_, _, _, hstages⟩ := stages_of_aliasChains hover hpending haliases h
    exact hstages.idle_of_strengths hstored
  · rw [hfold]
    exact hstages.simplified.exists_simplify_eq_ok (hstages.plain hplain)
  · have hleft := hstages.simplified
    exact idle_of_chains hleft.isOver hleft.pending hleft.chains h'

end Runs

/-- A pinned variable that is chained to another, and a third whose couplings to the two cancel. -/
def cancellingPair : Model ℚ where
  problem :=
    { ((Problem.empty .ising).addStrength 0 1 1).addStrength 2 1 (-1) with
      chains := KeySet.insert .empty (.of 0 2)
      pinned := .insert .empty 0 .up }
  symbols := ⟨.ofList [("A", 0), ("B", 2), ("C", 1)], 3, .empty, 0⟩

theorem over_cancellingPair : cancellingPair.problem.Over (· < cancellingPair.symbols.size) := by
  have hzero : 0 < 3 := by decide
  have hone : 1 < 3 := by decide
  have htwo : 2 < 3 := by decide
  have hempty : (Problem.empty .ising : Problem ℚ).Over (· < 3) := Problem.over_empty .ising
  have hterms := (hempty.addStrength hzero hone 1).addStrength htwo hone (-1)
  exact (hterms.insertChain (by decide) hzero htwo).insertPin hzero .up

theorem plain_cancellingPair : cancellingPair.symbols.Plain := by
  refine ⟨rfl, fun name i hi => ?_⟩
  have hall : ∀ e ∈ cancellingPair.symbols.byName.entries, e.2 < 3 := by decide +kernel
  exact hall (name, i) (Table.get?_eq_some_iff.mp hi)

/-- After the first run the pinned variable is coupled to none. -/
theorem bare_of_cancellingPair {report : SimplifyReport} {m' : Model ℚ}
    (h : cancellingPair.simplify false = .ok (report, m')) :
    m'.problem.pinned.get? 0 = some .up ∧ m'.problem.incident 0 = [] := by
  have hvalue : ((cancellingPair.simplify false).toOption.map fun result =>
      (result.2.problem.pinned.get? 0, result.2.problem.incident 0)) = some (some .up, []) := by
    decide +kernel
  simpa only [h, Except.toOption, Option.map_some, Option.some.injEq, Prod.mk.injEq] using hvalue

/-- The couplings of the pair cancel, so its pin is left to the second run. The third is idle. -/
theorem simplify_again_cancellingPair :
    ∃ report m' report' m'', cancellingPair.simplify false = .ok (report, m') ∧
      ¬ m'.Idle false ∧ m'.simplify false = .ok (report', m'') ∧ m''.Idle false := by
  obtain ⟨⟨report, m'⟩, h⟩ : ∃ result, cancellingPair.simplify false = .ok result :=
    exists_eq_ok_of_isSome (by decide +kernel)
  obtain ⟨hidle, _, hsecond, hthird⟩ := simplify_again over_cancellingPair rfl h
  obtain ⟨report', m'', h'⟩ := hsecond rfl plain_cancellingPair
  refine ⟨report, m', report', m'', h, fun hm' => ?_, h', (hthird report' m'' h').2⟩
  obtain ⟨hpin, hbare⟩ := bare_of_cancellingPair h
  obtain ⟨t, ht, _⟩ := hidle.mp hm' 0 .up hpin
  rw [hbare] at ht
  cases ht

/-- Not every second run is idle. -/
theorem exists_not_idle :
    ¬ ∀ (m m' : Model ℚ) (foldDominated : Bool) (report : SimplifyReport),
      m.problem.Over (· < m.symbols.size) → m.symbols.pending = .empty →
      m.simplify foldDominated = .ok (report, m') → m'.Idle foldDominated := by
  intro hall
  obtain ⟨⟨report, m'⟩, h⟩ : ∃ result, cancellingPair.simplify false = .ok result :=
    exists_eq_ok_of_isSome (by decide +kernel)
  have hidle := hall cancellingPair m' false report over_cancellingPair rfl h
  obtain ⟨_, _, _, _, hstages⟩ := stages_of_simplify over_cancellingPair rfl h
  obtain ⟨hpin, hbare⟩ := bare_of_cancellingPair h
  obtain ⟨t, ht, _⟩ := hstages.idle_iff.mp hidle 0 .up hpin
  rw [hbare] at ht
  cases ht

end Model

end SpinGlass

import SpinGlass.Proofs.Compile.Anchored
import SpinGlass.Proofs.Compile.Energy
import SpinGlass.Proofs.Physical.Ties
import SpinGlass.Proofs.Problem.PinStrength

/-!
# The default chain strength

The default chain strength is twice the largest coefficient of the built problem. Helpers only
couple new variables, and simplifying leaves no chain, so where two chained variables are coupled,
the coupling is one of the built problem, and the chain outweighs it by half.
-/

namespace SpinGlass

namespace Model

variable {m : Model ℚ} {strength : ℚ} {q : Pair}

/-- Helpers leave the couplings between the variables alone. -/
theorem get?_strengths_foldl_addHelper {pins : List (Nat × Spin)} (hm : m.Indexed)
    (hpins : ∀ e ∈ pins, m.problem.pinned.get? e.1 = some e.2) (hq : q.hi < m.symbols.size) :
    (pins.foldl (addHelper strength) m).problem.strengths.get? q =
      m.problem.strengths.get? q := by
  induction pins generalizing m with
  | nil => rfl
  | cons e rest ih =>
    have huser : e.1 < m.symbols.size := hm.isOver.pinned _ _ (hpins e List.mem_cons_self)
    have hhelped := helped_addHelper hm huser strength e.2
    have hother : q ≠ .of m.symbols.size e.1 := by
      rintro rfl
      rw [Pair.of_comm, Pair.of_of_lt huser] at hq
      exact Nat.lt_irrefl _ hq
    rw [List.foldl_cons, ih hhelped.indexed (fun e' he' => hhelped.pinned _ _
        (hpins e' (List.mem_cons_of_mem _ he'))) (hq.trans_le hhelped.grows.size_le),
      get?_strengths_addHelper hm.isOver huser.ne, if_neg hother]

theorem get?_strengths_pinWithHelpers (hm : m.Indexed) (hq : q.hi < m.symbols.size) :
    (m.pinWithHelpers strength).problem.strengths.get? q = m.problem.strengths.get? q :=
  get?_strengths_foldl_addHelper hm (fun _ he => pinned_of_mem_userPins he) hq

end Model

section Compile

variable {K : Type} [Coefficient K] {program : Program K} {target : Target} {cancelled : Bool}

/-- The strengths are assigned to the built problem. -/
theorem strengths_of_compile {o : CompileOptions K} {built : Model K} {c : Compiled K}
    (h : compile o program target cancelled = .ok c)
    (hbuild : Model.build (o.statements program) o.mode .empty = .ok built) :
    c.strengths = built.problem.toIsing.assignStrengths o.chainStrength o.pinStrength := by
  unfold compile at h
  obtain ⟨built', hbuild', h⟩ := bind_eq_ok.mp h
  obtain ⟨⟨report, m⟩, _, h⟩ := bind_eq_ok.mp h
  obtain ⟨⟨⟩, _, h⟩ := bind_eq_ok.mp h
  obtain ⟨physical, _, h⟩ := bind_eq_ok.mp h
  cases h
  obtain rfl := Except.ok.inj (hbuild.symm.trans (mapError_eq_ok.mp hbuild'))
  rfl

end Compile

section Chains

variable {o : CompileOptions ℚ} {program : Program ℚ} {target : Target} {cancelled : Bool}
  {built helped : Model ℚ} {c : Compiled ℚ}

/-- The coupling between two variables that are still chained is one of the built problem. -/
theorem Passes.get?_strengths_of_chain (h : Passes o program target cancelled built helped c)
    {q : Pair} (hq : c.model.problem.chains.contains q = true) :
    c.model.problem.strengths.get? q = built.problem.toIsing.strengths.get? q := by
  cases hoptimize : o.optimize with
  | true =>
    -- simplifying leaves no chain that could be broken
    have hlt := (h.lowers.indexed.isOver.chains q hq).1
    have hmeets := h.lowers.noChains hoptimize (fun i => if i = q.lo then some .up else none) q hq
    simp [hlt.ne'] at hmeets
  | false =>
    obtain ⟨report, hsimplify⟩ := h.simplify
    have hmodel : c.model = helped := by
      simp only [CompileOptions.simplify, hoptimize, Bool.false_eq_true, if_false] at hsimplify
      exact (Prod.mk.inj (Except.ok.inj hsimplify)).2.symm
    rw [hmodel, h.isHelped.chains] at hq
    have hjoins := h.indexed_toIsing.isOver.chains q hq
    rw [hmodel, h.helpers]
    exact Model.get?_strengths_pinWithHelpers h.indexed_toIsing hjoins.2.2

/-- The default chain strength is twice a bound on the couplings between chained variables. -/
theorem Passes.exists_bound (h : Passes o program target cancelled built helped c)
    (hdefault : o.chainStrength = none) :
    ∃ bound : ℚ, 0 < bound ∧
      (built.problem.toIsing.assignStrengths o.chainStrength o.pinStrength).chain = -(2 * bound) ∧
        ∀ q j, c.model.problem.chains.contains q = true →
          c.model.problem.strengths.get? q = some j → j ≤ bound := by
  obtain ⟨bound, hbound, hchain, _, hbounded⟩ := Model.exists_defaultChain built.problem.toIsing
  refine ⟨bound, hbound, ?_, fun q j hq hj => ?_⟩
  · rw [hdefault]
    exact hchain
  · rw [h.get?_strengths_of_chain hq] at hj
    exact (le_abs_self j).trans (hbounded q j hj)

/-- Before the scaling, every tie keeps at least half the default chain strength. -/
theorem Passes.exists_tie (h : Passes o program target cancelled built helped c)
    (hdefault : o.chainStrength = none) {placed : PhysicalProblem ℚ}
    (hreconcile : PhysicalProblem.reconcile c.model.problem c.physical.embedding target
      (built.problem.toIsing.assignStrengths o.chainStrength o.pinStrength).chain = .ok placed) :
    ∃ bound : ℚ, 0 < bound ∧
      (built.problem.toIsing.assignStrengths o.chainStrength o.pinStrength).chain = -(2 * bound) ∧
        ∀ e, placed.chains.contains e = true →
          ∃ j ≤ -bound, placed.strengths.get? e = some j := by
  obtain ⟨bound, hbound, hchain, hterms⟩ := h.exists_bound hdefault
  have hising : c.model.problem.toIsing = c.model.problem := Problem.toIsing_eq_self h.mode
  refine ⟨bound, hbound, hchain, fun e he => ?_⟩
  rw [hchain] at hreconcile
  obtain ⟨j, hle, hj⟩ := PhysicalProblem.exists_of_mem_chains_reconcile
    (hising.symm ▸ h.lowers.indexed.isOver) h.placed.1 (by linarith) hbound.le (by linarith)
    (by rwa [hising]) hreconcile he
  exact ⟨j, by linarith, hj⟩

/-- With the default chain strength every tie keeps at least half of it, so that it is negative,
whatever coupling it is added to. -/
theorem exists_tie_of_compile (hdefault : o.chainStrength = none) (hweight : 0 < o.limits.weight)
    (hstrength : 0 < o.limits.strength) (h : compile o program target cancelled = .ok c) :
    ∀ e, c.physical.chains.contains e = true → ∃ j, c.physical.strengths.get? e = some j ∧
      j ≤ c.physical.scaleFactor * c.strengths.chain / 2 ∧ j < 0 := by
  intro e he
  obtain ⟨built, helped, hpasses⟩ := passes_of_compile h
  obtain ⟨hfactor, placed, hreconcile, hphysical⟩ := hpasses.exists_eq_scaleBy hweight hstrength
  obtain ⟨bound, hbound, hchain, htied⟩ := hpasses.exists_tie hdefault hreconcile
  rw [hphysical] at he
  obtain ⟨j, hle, hj⟩ := htied e he
  have hget : c.physical.strengths.get? e = some (j * c.physical.scaleFactor) := by
    rw [hphysical, PhysicalProblem.get?_strengths_scaleBy, hj, ← hphysical]
    rfl
  have hhalf : j * c.physical.scaleFactor ≤ -bound * c.physical.scaleFactor :=
    mul_le_mul_of_nonneg_right hle hfactor.le
  have hneg : 0 < bound * c.physical.scaleFactor := mul_pos hbound hfactor
  refine ⟨j * c.physical.scaleFactor, hget, ?_, by linarith⟩
  calc j * c.physical.scaleFactor ≤ -bound * c.physical.scaleFactor := hhalf
    _ = c.physical.scaleFactor * c.strengths.chain / 2 := by
      rw [strengths_of_compile h hpasses.build, hchain]
      ring

/-- Two variables are chained against their coupling, and the helper of a pin takes all strengths to
a twelfth. Of the chain strength of six a half is left, as much as a tie keeps in any case. -/
theorem exists_tie_of_compile_opposed :
    ∃ c : Compiled ℚ, ∃ e j,
      compile { CompileOptions.default with optimize := false, embed := .dense 1 0 1 }
        [.strength "A" "B" 3, .chain "A" "B", .pin "B" true] (.ofEdges [(0, 1), (1, 2)]) false =
          .ok c ∧
      c.strengths.chain = -6 ∧ c.physical.scaleFactor = 1 / 12 ∧
      c.physical.chains.contains e = true ∧ c.physical.strengths.get? e = some j ∧
      j ≤ -(1 / 4) := by
  have hvalues : (compile { CompileOptions.default with optimize := false, embed := .dense 1 0 1 }
        [.strength "A" "B" (3 : ℚ), .chain "A" "B", .pin "B" true] (.ofEdges [(0, 1), (1, 2)])
        false).toOption.map (fun c => (c.strengths.chain, c.physical.scaleFactor,
          KeySet.toList c.physical.chains)) =
      some (-6, 1 / 12, [⟨1, 2⟩]) := by decide +kernel
  generalize hcompile : compile (K := ℚ) _ _ _ _ = compiled at hvalues
  cases compiled with
  | error e => cases hvalues
  | ok c =>
    simp only [Except.toOption, Option.map_some, Option.some.injEq, Prod.mk.injEq] at hvalues
    obtain ⟨hchain, hfactor, hchains⟩ := hvalues
    have htie : c.physical.chains.contains ⟨1, 2⟩ = true :=
      KeySet.mem_toList_iff.mp (hchains ▸ List.mem_singleton_self _)
    obtain ⟨j, hj, hle, _⟩ :=
      exists_tie_of_compile rfl (by decide +kernel) (by decide +kernel) hcompile _ htie
    refine ⟨c, ⟨1, 2⟩, j, rfl, hchain, hfactor, htie, hj, hle.trans_eq ?_⟩
    rw [hchain, hfactor]
    norm_num

end Chains

end SpinGlass

import SpinGlass.Proofs.Compile.PinHelpers
import SpinGlass.Proofs.Simplify.Attached

/-!
# The helpers of a simplified program

Helpers are attached to their users when they are made, through all passes, and after the
renumbering. In the simplified problem of a program every helper is still pinned like its user, with
its weight and its one coupling, and every other pin has a helper.
-/

namespace SpinGlass

/-- A helper stays attached under new numbers. -/
theorem Problem.Attached.renumber {p : Problem ℚ} {s : Symbols} {remap : Remap} {strength : ℚ}
    {helper user : Nat} (h : p.Attached strength helper user) (hremap : Ranks remap s)
    (hp : p.Over s.IsRoot) (hhelper : s.IsRoot helper) (huser : s.IsRoot user) :
    (p.renumber remap).Attached strength (s.rank helper) (s.rank user) where
  ne heq := h.ne (Symbols.eq_of_rank_eq hhelper huser heq)
  pins := by
    obtain ⟨pin, hpin, hpin', hweight⟩ := h.pins
    exact ⟨pin, (get?_pinned_rank hremap hp hhelper).trans hpin,
      (get?_pinned_rank hremap hp huser).trans hpin',
      (get?_weights_rank hremap hp hhelper).trans hweight⟩
  couplings k := by
    by_cases hk : k < s.survivors.length
    · obtain ⟨root, hroot, rfl⟩ := Symbols.exists_rank_eq hk
      have hsame : s.rank root = s.rank user ↔ root = user :=
        ⟨Symbols.eq_of_rank_eq hroot huser, fun heq => heq ▸ rfl⟩
      rw [get?_strengths_rank hremap hp hhelper hroot, h.couplings]
      simp only [hsame]
    · have hrank := Symbols.rank_lt_length huser
      rw [if_neg (by omega)]
      exact (hp.renumber hremap).strengths_eq_none fun hlive => hk hlive.2

namespace Model

variable {m m' : Model ℚ} {strength : ℚ} {n : Nat} {foldDominated : Bool}

section Helpers

/-- A new helper gets the weight of its pin. -/
theorem get?_weights_addHelper (hover : m.problem.Over (· < m.symbols.size)) {user i : Nat}
    {spin : Spin} (hi : i ≠ user) :
    (addHelper strength m (user, spin)).problem.weights.get? i =
      if i = m.symbols.size then some (strength * Coefficient.ofSpin spin)
      else m.problem.weights.get? i := by
  -- nothing was stored at the new index before
  have hnew := hover.weights_eq_none (Nat.lt_irrefl _)
  rw [problem_addHelper]
  simp only [Problem.weights_addStrength hi, Problem.addWeight, Table.get?_alter, hnew]
  simp

/-- A new helper gets one coupling, to its user. -/
theorem get?_strengths_addHelper (hover : m.problem.Over (· < m.symbols.size)) {user : Nat}
    {spin : Spin} (hne : user ≠ m.symbols.size) (q : Pair) :
    (addHelper strength m (user, spin)).problem.strengths.get? q =
      if q = .of m.symbols.size user then some strength else m.problem.strengths.get? q := by
  have hnew : m.problem.strengths.get? (.of m.symbols.size user) = none :=
    hover.strengths_eq_none fun hlive => Nat.lt_irrefl _ hlive.1
  rw [problem_addHelper]
  simp only [Problem.addStrength, if_neg hne, Problem.addWeight, Table.get?_alter,
    Pair.of_comm user, hnew]
  simp

/-- A new helper is attached to its user, and the others stay attached to theirs. -/
theorem attached_addHelper {user : Nat} {spin : Spin} (h : m.HelpersFrom n) (hm : m.Indexed)
    (hn : n ≤ m.symbols.size) (huser : user < n) (hpin : m.problem.pinned.get? user = some spin)
    (hattached : ∀ a b, m.problem.pinHelpers.get? a = some b → m.problem.Attached strength a b)
    {a b : Nat} (hab : (addHelper strength m (user, spin)).problem.pinHelpers.get? a = some b) :
    (addHelper strength m (user, spin)).problem.Attached strength a b := by
  have hover := hm.isOver
  have hne : user ≠ m.symbols.size := by omega
  have hpinned := get?_pinned_addHelper (m := m) strength (user, spin)
  rw [get?_pinHelpers_addHelper] at hab
  split at hab
  · next ha =>
    obtain rfl := Option.some.inj hab
    subst ha
    refine ⟨hne.symm, ⟨spin, ?_, ?_, ?_⟩, fun k => ?_⟩
    · rw [hpinned, if_pos rfl]
    · rw [hpinned, if_neg hne, hpin]
    · rw [get?_weights_addHelper hover hne.symm, if_pos rfl]
    · rw [get?_strengths_addHelper hover hne]
      by_cases hk : k = user
      · rw [if_pos hk, if_pos (by rw [hk])]
      · have hother : Pair.of m.symbols.size k ≠ .of m.symbols.size user := by
          rw [Ne, Pair.of_eq_of_iff]
          omega
        rw [if_neg hk, if_neg hother]
        exact hover.strengths_eq_none fun hlive => Nat.lt_irrefl _ hlive.1
  · next ha =>
    obtain ⟨hle, hltn, _⟩ := h.problem.helpers a b hab
    obtain ⟨pin, hpin', hpin'', hold⟩ := (hattached a b hab).pins
    refine ⟨(hattached a b hab).ne, ⟨pin, ?_, ?_, ?_⟩, fun k => ?_⟩
    · rw [hpinned, if_neg ha, hpin']
    · rw [hpinned, if_neg (by omega), hpin'']
    · rw [get?_weights_addHelper hover (by omega), if_neg ha, hold]
    · have hother : Pair.of a k ≠ .of m.symbols.size user := by
        rw [Ne, Pair.of_eq_of_iff]
        omega
      rw [get?_strengths_addHelper hover hne, if_neg hother, (hattached a b hab).couplings]

/-- Helpers for some pinned variables are attached to them. -/
theorem attached_foldl {pins : List (Nat × Spin)} (h : m.HelpersFrom n) (hm : m.Indexed)
    (hn : n ≤ m.symbols.size)
    (hpins : ∀ e ∈ pins, e.1 < n ∧ m.problem.pinned.get? e.1 = some e.2)
    (hattached : ∀ a b, m.problem.pinHelpers.get? a = some b → m.problem.Attached strength a b)
    {a b : Nat} (hab : (pins.foldl (addHelper strength) m).problem.pinHelpers.get? a = some b) :
    (pins.foldl (addHelper strength) m).problem.Attached strength a b := by
  induction pins generalizing m with
  | nil => exact hattached a b hab
  | cons e rest ih =>
    obtain ⟨⟨huser, hpin⟩, hrest⟩ := List.forall_mem_cons.mp hpins
    have hhelped := helped_addHelper hm (huser.trans_le hn) strength e.2
    refine ih (h.addHelper hm hn huser hpin strength) hhelped.indexed
      (hn.trans hhelped.grows.size_le) (fun e' he' => ?_)
      (fun _ _ => attached_addHelper h hm hn huser hpin hattached) hab
    exact ⟨(hrest e' he').1, hhelped.pinned _ _ (hrest e' he').2⟩

/-- Helpers are attached to their users when they are made, and every pinned variable has one. -/
theorem anchored_pinWithHelpers (hm : m.Indexed) (hnone : m.problem.pinHelpers = .empty)
    (hmode : m.problem.mode = .ising) (strength : ℚ) :
    (m.pinWithHelpers strength).Anchored strength m.symbols.size := by
  have hhelped := helped_pinWithHelpers hm strength
  have hfrom := helpersFrom_pinWithHelpers hm hnone strength
  refine ⟨hfrom.tethered hhelped.indexed.plain.pending, hhelped.mode.trans hmode,
    fun a b hab => ?_, fun i hi spin hpin => ?_⟩
  · have hstart : m.HelpersFrom m.symbols.size :=
      ⟨Problem.tethered_of_over hm.isOver hnone, fun _ _ _ => by omega, fun _ _ _ => by omega⟩
    refine attached_foldl hstart hm le_rfl (fun e he => ?_) (fun a b hold => ?_) hab
    · have hpin := pinned_of_mem_userPins he
      exact ⟨hm.isOver.pinned _ _ hpin, hpin⟩
    · simp [hnone] at hold
  · have hold := hhelped.pinned_old i spin hi hpin
    have hmem : (i, spin) ∈ m.problem.userPins := by
      rw [userPins_eq hnone]
      exact Table.get?_eq_some_iff.mp hold
    obtain ⟨k, hk⟩ := List.mem_iff_getElem?.mp hmem
    refine ⟨m.symbols.size + k, ?_⟩
    rw [get?_pinHelpers_pinWithHelpers hm.isOver, if_neg (by omega), Nat.add_sub_cancel_left, hk]
    rfl

end Helpers

section Stages

variable {aliased fixed : Model ℚ} {r : Reduction}

/-- A simplification keeps helpers attached. -/
theorem Stages.anchored (h : m.Stages foldDominated r aliased fixed m') (hm : m.Indexed)
    (hhelpers : m.HelpersFrom n) (hanchored : m.Anchored strength n) (hstrength : strength ≠ 0) :
    m'.Anchored strength (fixed.symbols.rank n) := by
  have hover := h.isOver_fixed
  have hleft : fixed.Anchored strength n :=
    ((hanchored.pruneZeros hstrength).aliases
      (wellLinked_pruneZeros hm.isOver hm.plain.pending) h.merges).fixes
        h.isAliased.wellLinked h.fixes
  have hstart := h.helpersFrom hm hhelpers
  have hproblem := h.problem
  refine ⟨hstart.tethered h.pending, ?_, fun helper user huser => ?_, fun i hi spin hpin => ?_⟩
  · rw [hproblem]
    exact hleft.mode
  · rw [hproblem] at huser ⊢
    obtain ⟨a, b, hab, rfl, rfl⟩ := (Problem.get?_renumber_helpers h.ranks hover).mp huser
    obtain ⟨ha, hb⟩ := hover.helpers a b hab
    exact ((hleft.attached a b hab).renumber h.ranks hover ha hb).pruneZeros hstrength
  · rw [hproblem] at hpin ⊢
    obtain ⟨root, hroot, rfl⟩ := (Problem.get?_renumber_pinned h.ranks hover).mp hpin
    have hlive := hover.pinned root spin hroot
    obtain ⟨helper, hhelper⟩ :=
      hleft.helped root ((Symbols.rank_lt_rank_iff hlive).mp hi) spin hroot
    exact ⟨_, (Problem.get?_renumber_helpers h.ranks hover).mpr ⟨helper, root, hhelper, rfl, rfl⟩⟩

end Stages

/-- In the simplified problem of a program, over either kind of variables, every helper is pinned
like its user, with the weight of that pin, and coupled to its user alone, and every pinned variable
that is no helper has one. -/
theorem helpers_attached {program : Program ℚ} {mode : Mode} {report : SimplifyReport}
    (hbuild : build program mode .empty = .ok m) (hstrength : strength ≠ 0)
    (hsimplify : ((m.mapProblem (·.toIsing)).pinWithHelpers strength).simplify foldDominated =
      .ok (report, m')) :
    (∀ helper user, m'.problem.pinHelpers.get? helper = some user → helper ≠ user ∧
      (∃ spin, m'.problem.pinned.get? helper = some spin ∧
        m'.problem.pinned.get? user = some spin ∧
        m'.problem.weight helper = strength * Coefficient.ofSpin spin) ∧
      m'.problem.incident helper = [(user, strength)]) ∧
    ∀ i spin, m'.problem.pinned.get? i = some spin → m'.problem.pinHelpers.get? i = none →
      ∃ helper, m'.problem.pinHelpers.get? helper = some i := by
  have hbuilt := (builds_of_build hbuild).built
  obtain ⟨hising, hsame⟩ := Problem.toIsing_spec hbuilt.isOver
  have hindexed : (m.mapProblem (·.toIsing)).Indexed := ⟨hbuilt.plain, hising⟩
  have hnone := hsame.pinHelpers.trans hbuilt.pinHelpers
  have hhelped := helped_pinWithHelpers hindexed strength
  have hstart := helpersFrom_pinWithHelpers hindexed hnone strength
  obtain ⟨r, aliased, fixed, _, hstages⟩ :=
    stages_of_simplify hhelped.indexed.isOver hhelped.indexed.plain.pending hsimplify
  have hanchored := hstages.anchored hhelped.indexed hstart
    (anchored_pinWithHelpers hindexed hnone hsame.mode strength) hstrength
  have hleft := hstages.helpersFrom hhelped.indexed hstart
  have hover := hstages.isOver_simplified
  constructor
  · intro helper user huser
    have hattached := hanchored.attached helper user huser
    obtain ⟨spin, hpin, hpin', hweight⟩ := hattached.pins
    refine ⟨hattached.ne, ⟨spin, hpin, hpin', ?_⟩, hattached.incident_eq hover⟩
    rw [Problem.weight, hweight, Option.getD_some]
  · intro i spin hpin hfree
    have hbelow := (hleft.pinHelpers_eq_none_iff (hover.pinned i spin hpin)).mp hfree
    exact hanchored.helped i hbelow spin hpin

/-- Two variables that are chained and pinned alike, and a third that is coupled to one of them. -/
def twins : Program ℚ := [.pin "A" true, .pin "B" true, .chain "A" "B", .strength "A" "C" 1]

/-- The two helpers of variables that are merged are both left, with the same user. -/
theorem helpers_attached_twins :
    ∃ m report m', build twins .qubo .empty = .ok m ∧
      ((m.mapProblem (·.toIsing)).pinWithHelpers (-4)).simplify true = .ok (report, m') ∧
      m'.problem.pinHelpers.entries = [(2, 0), (3, 0)] ∧
      m'.problem.incident 2 = [(0, -4)] ∧ m'.problem.incident 3 = [(0, -4)] := by
  have hrun : ((build twins .qubo .empty).toOption.bind fun m =>
      (((m.mapProblem (·.toIsing)).pinWithHelpers (-4)).simplify true).toOption).map
        (fun result => result.2.problem.pinHelpers.entries) = some [(2, 0), (3, 0)] := by
    decide +kernel
  obtain ⟨⟨report, m'⟩, hresult, hhelpers⟩ := Option.map_eq_some_iff.mp hrun
  obtain ⟨m, hbuild, hsimplify⟩ := Option.bind_eq_some_iff.mp hresult
  rw [toOption_eq_some_iff] at hbuild hsimplify
  have hattached := (helpers_attached hbuild (by norm_num) hsimplify).1
  have hget : ∀ helper user, (helper, user) ∈ [(2, 0), (3, 0)] →
      m'.problem.pinHelpers.get? helper = some user := fun helper user hmem =>
    Table.get?_eq_some_iff.mpr (hhelpers ▸ hmem)
  exact ⟨m, report, m', hbuild, hsimplify, hhelpers,
    (hattached 2 0 (hget 2 0 (by decide))).2.2, (hattached 3 0 (hget 3 0 (by decide))).2.2⟩

end Model

end SpinGlass

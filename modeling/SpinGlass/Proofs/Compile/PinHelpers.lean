import SpinGlass.Proofs.Compile.Lowering
import SpinGlass.Proofs.Problem.Buildable
import SpinGlass.Proofs.Simplify.Tethered

/-!
# Helpers of a compiled program

Pinned variables get their helpers after all indices of the program are given out, and what is left
of the helpers after a simplification comes last again. The other indices carry the names of the
program.
-/

namespace SpinGlass

namespace Problem

variable {K : Type} {n : Nat} {p : Problem K} {s : Symbols} {remap : Remap}

/-- A renumbering keeps helpers with their users, and behind the other variables. -/
theorem Tethered.renumber (h : p.Tethered n) (hremap : Ranks remap s) (hp : p.Over s.IsRoot) :
    (p.renumber remap).Tethered (s.rank n) where
  chains q hq := by
    obtain ⟨r, hr, rfl⟩ := (contains_renumber_chains hremap hp).mp hq
    exact (Symbols.rank_lt_rank_iff (hp.chains r hr).2.2).mpr (h.chains r hr)
  strengths q j hq := by
    obtain ⟨r, hr, rfl⟩ := (get?_renumber_strengths hremap hp).mp hq
    have hhi := (hp.strengths r j hr).2.2
    refine (h.strengths r j hr).imp (Symbols.rank_lt_rank_iff hhi).mpr fun huser => ?_
    exact (get?_renumber_helpers hremap hp).mpr ⟨_, _, huser, rfl, rfl⟩
  helpers helper user hget := by
    obtain ⟨a, b, hab, rfl, rfl⟩ := (get?_renumber_helpers hremap hp).mp hget
    obtain ⟨hle, hlt, spin, hspin⟩ := h.helpers a b hab
    obtain ⟨ha, hb⟩ := hp.helpers a b hab
    have hrank := (Symbols.rank_lt_rank_iff ha).not.mpr (Nat.not_lt.mpr hle)
    exact ⟨Nat.not_lt.mp hrank, (Symbols.rank_lt_rank_iff hb).mpr hlt, spin,
      (get?_renumber_pinned hremap hp).mpr ⟨b, hspin, rfl⟩⟩

end Problem

namespace Model

variable {K : Type} {n : Nat}

/-- How names go with the indices of a model whose helpers have the indices from `n` on: every index
has a name, a helper has a generated one and no other, and the names of the other variables and of
known values are those that were introduced. -/
structure NamedFrom (n : Nat) (introduced : String → Prop) (m : Model K) : Prop where
  named : m.symbols.Named
  alone : ∀ a b i, n ≤ i → m.symbols.byName.get? a = some i → m.symbols.byName.get? b = some i →
    a = b
  generated : ∀ name i, n ≤ i → m.symbols.byName.get? name = some i → isInternalName name = true
  below : ∀ name i, i < n → m.symbols.byName.get? name = some i → introduced name
  known : ∀ name spin, m.problem.knownValues.get? name = some spin →
    isInternalName name = true ∨ introduced name
  kept : ∀ name, introduced name → (∃ i < n, m.symbols.byName.get? name = some i) ∨
    ∃ spin, m.problem.knownValues.get? name = some spin

section Pins

variable [Coefficient K] {m : Model K}

/-- Giving a helper to a pinned variable puts the helper behind all other variables. -/
theorem HelpersFrom.addHelper {user : Nat} {spin : Spin} (h : m.HelpersFrom n) (hm : m.Indexed)
    (hn : n ≤ m.symbols.size) (huser : user < n) (hpin : m.problem.pinned.get? user = some spin)
    (strength : K) : (addHelper strength m (user, spin)).HelpersFrom n := by
  have hproblem : (Model.addHelper strength m (user, spin)).problem = _ :=
    problem_addHelper user spin
  have hsize : (Model.addHelper strength m (user, spin)).symbols.size = m.symbols.size + 1 :=
    size_addHelper strength (user, spin)
  have hne : user ≠ m.symbols.size := by omega
  have hchains : (Model.addHelper strength m (user, spin)).problem.chains = m.problem.chains :=
    (helped_addHelper hm (huser.trans_le hn) strength spin).chains
  have hpinned : ∀ i, (Model.addHelper strength m (user, spin)).problem.pinned.get? i =
      if i = m.symbols.size then some spin else m.problem.pinned.get? i :=
    get?_pinned_addHelper strength (user, spin)
  have hhelpers : ∀ i, (Model.addHelper strength m (user, spin)).problem.pinHelpers.get? i =
      if i = m.symbols.size then some user else m.problem.pinHelpers.get? i :=
    get?_pinHelpers_addHelper strength (user, spin)
  refine ⟨⟨fun q hq => h.problem.chains q (hchains ▸ hq), fun q j hq => ?_, fun a b hab => ?_⟩,
    fun i hi hlt => ?_, fun i hi hlt => ?_⟩
  · rw [hhelpers]
    -- the coupling of the helper is the only one that changes
    by_cases hq' : q = .of user m.symbols.size
    · right
      rw [hq', Pair.of_of_lt (by omega)]
      exact if_pos rfl
    · rw [hproblem] at hq
      simp only [Problem.strengths_addStrength hq'] at hq
      refine (h.problem.strengths q j hq).imp_right fun hold => ?_
      have hlt := (hm.isOver.strengths q j hq).2.2
      rwa [if_neg hlt.ne]
  · rw [hhelpers] at hab
    rw [hpinned]
    split at hab
    · next heq =>
      cases hab
      exact ⟨heq ▸ hn, huser, spin, by rw [if_neg hne, hpin]⟩
    · obtain ⟨hle, hlt, pin, hpin⟩ := h.problem.helpers a b hab
      exact ⟨hle, hlt, pin, by rw [if_neg (by omega), hpin]⟩
  · rw [hpinned]
    split
    · exact ⟨spin, rfl⟩
    · exact h.pinned i hi (by omega)
  · rw [hhelpers]
    split
    · exact ⟨user, rfl⟩
    · exact h.user i hi (by omega)

/-- Helpers for some pinned variables come behind all other variables. -/
theorem helpersFrom_foldl {pins : List (Nat × Spin)} (h : m.HelpersFrom n) (hm : m.Indexed)
    (hn : n ≤ m.symbols.size)
    (hpins : ∀ e ∈ pins, e.1 < n ∧ m.problem.pinned.get? e.1 = some e.2) (strength : K) :
    (pins.foldl (addHelper strength) m).HelpersFrom n := by
  induction pins generalizing m with
  | nil => exact h
  | cons e rest ih =>
    obtain ⟨⟨huser, hpin⟩, hrest⟩ := List.forall_mem_cons.mp hpins
    have hhelped := helped_addHelper hm (huser.trans_le hn) strength e.2
    refine ih (h.addHelper hm hn huser hpin strength) hhelped.indexed
      (hn.trans hhelped.grows.size_le) fun e' he' => ?_
    exact ⟨(hrest e' he').1, hhelped.pinned _ _ (hrest e' he').2⟩

/-- Helpers come behind all other variables. -/
theorem helpersFrom_pinWithHelpers (hm : m.Indexed) (hhelpers : m.problem.pinHelpers = .empty)
    (strength : K) : (m.pinWithHelpers strength).HelpersFrom m.symbols.size := by
  refine helpersFrom_foldl ⟨Problem.tethered_of_over hm.isOver hhelpers, fun i hi hlt => ?_,
    fun i hi hlt => ?_⟩ hm le_rfl (fun e he => ?_) strength
  · omega
  · omega
  · have hpin := pinned_of_mem_userPins he
    exact ⟨hm.isOver.pinned _ _ hpin, hpin⟩

/-- Helpers get generated names of their own, and the names of the other variables stay. -/
theorem names_pinWithHelpers (hplain : m.symbols.Plain) (hnamed : m.symbols.Named)
    (hapart : m.symbols.Apart) (strength : K) :
    (m.pinWithHelpers strength).symbols.Named ∧ (m.pinWithHelpers strength).symbols.Apart ∧
      ∀ name i, i < m.symbols.size →
        (m.pinWithHelpers strength).symbols.byName.get? name = some i →
        m.symbols.byName.get? name = some i := by
  have hrun := List.foldlRecOn m.problem.userPins (addHelper strength)
    (motive := fun m' : Model K => m'.symbols.Plain ∧ m.symbols.size ≤ m'.symbols.size ∧
      m'.symbols.Named ∧ m'.symbols.Apart ∧ ∀ name i, i < m.symbols.size →
        m'.symbols.byName.get? name = some i → m.symbols.byName.get? name = some i)
    ⟨hplain, le_rfl, hnamed, hapart, fun _ _ _ hi => hi⟩
    fun m' ⟨hplain, hle, hnamed, hapart, hold⟩ e _ => by
      obtain ⟨_, hsize, hplain', _⟩ := hplain.fresh "pin"
      obtain ⟨hnamed', hapart', hold'⟩ := Symbols.names_of_fresh hplain hnamed hapart "pin"
      refine ⟨hplain', ?_, hnamed', hapart', fun name i hi hname => ?_⟩
      · exact hle.trans (hsize ▸ Nat.le_succ _)
      · exact hold name i hi (hold' name i (hi.trans_le hle) hname)
  exact hrun.2.2

end Pins

section Stages

variable {m aliased fixed m' : Model K} {foldDominated : Bool} {r : Reduction}

variable [Coefficient K]

namespace Stages

variable (h : m.Stages foldDominated r aliased fixed m') (hm : m.Indexed)
  (hhelpers : m.HelpersFrom n)

include h hm hhelpers

theorem tethered_aliased : aliased.Tethered n := by
  have hstart := hhelpers.tethered hm.plain.pending
  exact hstart.pruneZeros.aliases (wellLinked_pruneZeros hm.isOver hm.plain.pending) h.merges

theorem tethered_fixed : fixed.Tethered n :=
  (h.tethered_aliased hm hhelpers).fixes h.isAliased.wellLinked h.fixes

/-- The helpers that are left come last again. -/
theorem helpersFrom : m'.HelpersFrom (fixed.symbols.rank n) := by
  have hfixed := h.tethered_fixed hm hhelpers
  have hlinked := h.isPropagated.wellLinked
  have hroots : ∀ i, fixed.symbols.rank n ≤ i → i < m'.symbols.size →
      ∃ root, fixed.symbols.IsRoot root ∧ fixed.symbols.rank root = i ∧ n ≤ root := by
    intro i hi hlt
    rw [h.size] at hlt
    obtain ⟨root, hroot, rfl⟩ := Symbols.exists_rank_eq hlt
    exact ⟨root, hroot, rfl, Nat.not_lt.mp ((Symbols.rank_lt_rank_iff hroot).not.mp
      (Nat.not_lt.mpr hi))⟩
  refine ⟨?_, fun i hi hlt => ?_, fun i hi hlt => ?_⟩
  · rw [h.problem]
    exact (hfixed.problem.renumber h.ranks hlinked.isOver).pruneZeros
  · obtain ⟨root, hroot, rfl, hle⟩ := hroots i hi hlt
    obtain ⟨spin, hspin⟩ := hfixed.pinned root hle hroot
    rw [h.problem]
    exact ⟨spin, (Problem.get?_renumber_pinned h.ranks hlinked.isOver).mpr ⟨root, hspin, rfl⟩⟩
  · obtain ⟨root, hroot, rfl, hle⟩ := hroots i hi hlt
    obtain ⟨user, huser⟩ := hfixed.exists_user hlinked h.settled h.chains_fixed hle hroot
    rw [h.problem]
    exact ⟨_, (Problem.get?_renumber_helpers h.ranks hlinked.isOver).mpr
      ⟨root, user, huser, rfl, rfl⟩⟩

/-- A name that is left was one of an index on the same side, and a helper keeps its names to
itself. -/
theorem exists_index_of_name {name : String} {k : Nat}
    (hk : m'.symbols.byName.get? name = some k) :
    ∃ i root, m.symbols.byName.get? name = some i ∧ fixed.symbols.IsRoot root ∧
      fixed.symbols.rank root = k ∧ (k < fixed.symbols.rank n ↔ i < n) ∧ (n ≤ i → root = i) := by
  obtain ⟨i, root, hi, hroot, hspin⟩ := h.exists_root_of_name hk
  have hlt := hm.plain.lt_size name i hi
  have hleft := h.isRoot_of_left hroot hspin hlt
  have haliased := h.tethered_aliased hm hhelpers
  rw [h.name_of_left hlt hi hroot hspin, Option.some.injEq] at hk
  subst hk
  exact ⟨i, root, hi, hleft, rfl, (Symbols.rank_lt_rank_iff hleft).trans
    (haliased.root_lt_iff h.isAliased.wellLinked.links hroot), haliased.root_eq hroot⟩

/-- The names that are left go with the indices as before. -/
theorem namedFrom {introduced : String → Prop} (hnames : m.NamedFrom n introduced)
    (hknown : m.problem.knownValues = .empty) :
    m'.NamedFrom (fixed.symbols.rank n) introduced where
  named := h.named hnames.named
  alone a b k hk ha hb := by
    obtain ⟨i, root, hi, hroot, hrank, hlt, heq⟩ := h.exists_index_of_name hm hhelpers ha
    obtain ⟨i', root', hi', hroot', hrank', hlt', heq'⟩ := h.exists_index_of_name hm hhelpers hb
    have hle : n ≤ i := Nat.not_lt.mp (hlt.not.mp (Nat.not_lt.mpr hk))
    have hle' : n ≤ i' := Nat.not_lt.mp (hlt'.not.mp (Nat.not_lt.mpr hk))
    have hsame := Symbols.eq_of_rank_eq hroot hroot' (hrank.trans hrank'.symm)
    rw [heq hle, heq' hle'] at hsame
    exact hnames.alone a b i hle hi (hsame ▸ hi')
  generated name k hk hname := by
    obtain ⟨i, _, hi, _, _, hlt, _⟩ := h.exists_index_of_name hm hhelpers hname
    exact hnames.generated name i (Nat.not_lt.mp (hlt.not.mp (Nat.not_lt.mpr hk))) hi
  below name k hk hname := by
    obtain ⟨i, _, hi, _, _, hlt, _⟩ := h.exists_index_of_name hm hhelpers hname
    exact hnames.below name i (hlt.mp hk) hi
  known name spin hspin := by
    obtain ⟨i, hname⟩ := h.exists_byName_of_known hknown hspin
    by_cases hi : i < n
    · exact .inr (hnames.below name i hi hname)
    · exact .inl (hnames.generated name i (Nat.not_lt.mp hi) hname)
  kept name hname := by
    rcases hnames.kept name hname with ⟨i, hi, hname⟩ | ⟨spin, hspin⟩
    · have hsize := hm.plain.lt_size name i hname
      obtain ⟨root, hroot⟩ := h.rooted i
      cases hspin : r.fixings.spin? root with
      | some spin => exact .inr ⟨spin, (h.name_of_fixed hname hroot hspin).2⟩
      | none =>
        refine .inl ⟨_, ?_, h.name_of_left hsize hname hroot hspin⟩
        have hlinks := h.isAliased.wellLinked.links
        exact (Symbols.rank_lt_rank_iff (h.isRoot_of_left hroot hspin hsize)).mpr
          (((h.tethered_aliased hm hhelpers).root_lt_iff hlinks hroot).mpr hi)
    · simp [hknown] at hspin

end Stages

end Stages

end Model

end SpinGlass

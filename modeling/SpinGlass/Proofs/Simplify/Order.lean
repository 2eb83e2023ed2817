import SpinGlass.Proofs.Problem.Reordered
import SpinGlass.Proofs.Simplify.Outcome

/-!
# Simplification and the order of statements

Two orders of a program are simplified to the same result, if both are. Without dominance one is
simplified if the other is. With dominance it depends on the order whether the pin of a variable is
released before a spin against the pin comes to dominate, and nothing but such a variable of the
program stops only one of the two.
-/

namespace SpinGlass

namespace Model

section Helpers

variable {m : Model ℚ} {n i k user : Nat} {live : Nat → Prop} {known s t : Assignment}
  {strength : ℚ} {pin spin : Spin} {foldDominated : Bool}

/-- Nothing is tied to a helper but itself. -/
theorem Tethered.eq_of_tied (h : m.Tethered n) (hover : m.problem.Over live) (hi : n ≤ i)
    (htied : m.Tied i k) : k = i := by
  let apart : Assignment := fun j => if j = i then some .down else some .up
  have hmeets : m.problem.MeetsChains apart := by
    intro q hq
    have hhi := h.problem.chains q hq
    have hlt := (hover.chains q hq).1
    simp only [apart, if_neg (by omega : q.lo ≠ i), if_neg (by omega : q.hi ≠ i)]
  have hsame := htied apart hmeets
  by_contra hne
  simp [apart, hne] at hsame

/-- A helper is released as soon as its user is known. -/
theorem Tethered.released (h : m.Tethered n) (hover : m.problem.Over live) (hi : n ≤ i)
    (huser : m.problem.pinHelpers.get? i = some user) (hknown : known user ≠ none)
    (hpin : m.PinnedTo i pin) : m.Released known i pin where
  pinned := hpin
  helped a b ha _ hnone hcoupled := by
    obtain rfl := h.eq_of_tied hover hi ha
    have hne := (hover.of_strength_ne_zero hcoupled).1
    cases hj : m.problem.strengths.get? (.of a b) with
    | none => simp [Problem.strength, hj] at hcoupled
    | some j =>
      rcases Nat.lt_or_gt_of_ne hne with hlt | hlt
      · rw [Pair.of_of_lt hlt] at hj
        exact absurd (h.problem.lo_of_le hj (hi.trans hlt.le)).1 (Nat.not_lt.mpr hi)
      · rw [Pair.of_comm, Pair.of_of_lt hlt] at hj
        have hhelper : m.problem.pinHelpers.get? a = some b := (h.problem.lo_of_le hj hi).2
        rw [huser, Option.some.injEq] at hhelper
        exact absurd hnone (hhelper ▸ hknown)

variable (hm : m.Indexed) (hnone : m.problem.pinHelpers = .empty)
  (hmode : m.problem.mode = .ising)

include hm hnone hmode

/-- With helpers a model is ready to be simplified. -/
theorem prepared_pinWithHelpers (strength : ℚ) :
    (m.pinWithHelpers strength).Prepared m.symbols.size := by
  have hhelped := helped_pinWithHelpers hm strength
  have hpending := hhelped.indexed.plain.pending
  exact ⟨hhelped.indexed.isOver, hpending, hhelped.mode.trans hmode,
    (helpersFrom_pinWithHelpers hm hnone strength).tethered hpending⟩

/-- The spin of a helper does not matter where its user is broken. -/
theorem energy_eq_of_broken_user (hs : s.Covers (m.pinWithHelpers strength).symbols.size)
    (huser : (m.pinWithHelpers strength).problem.pinHelpers.get? i = some user)
    (hpin : (m.pinWithHelpers strength).problem.pinned.get? i = some pin)
    (hbroken : s user = some pin.flip) (hsame : ∀ k, k ≠ i → s k = t k) :
    (m.pinWithHelpers strength).problem.energy s =
      (m.pinWithHelpers strength).problem.energy t := by
  have hle := ((helper_iff hm hnone).mp huser).1
  have hbelow : ∀ k < m.symbols.size, s k = t k := fun k hk => hsame k (by omega)
  have husers : ∀ e ∈ m.problem.userPins, e.1 < m.symbols.size ∧ ∃ spin, s e.1 = some spin := by
    intro e he
    have hlt := hm.isOver.pinned _ _ (pinned_of_mem_userPins he)
    exact ⟨hlt, hs _ (hlt.trans_le (helped_pinWithHelpers hm strength).grows.size_le)⟩
  have husers' : ∀ e ∈ m.problem.userPins, ∃ spin, t e.1 = some spin := by
    intro e he
    obtain ⟨hlt, hspin⟩ := husers e he
    rwa [← hbelow _ hlt]
  have hterms : helperEnergy strength s m.problem.userPins m.symbols.size =
      helperEnergy strength t m.problem.userPins m.symbols.size := by
    refine congrArg List.sum (List.map_congr_left fun ⟨⟨other, asked⟩, helper⟩ hmem => ?_)
    obtain ⟨hhelper, hasked⟩ :
        (m.pinWithHelpers strength).problem.pinHelpers.get? helper = some other ∧
          (m.pinWithHelpers strength).problem.pinned.get? helper = some asked :=
      (mem_zipIdx_userPins_iff hm hnone).mp hmem
    have hother := (husers _ (List.fst_mem_of_mem_zipIdx hmem)).1
    dsimp only at hother ⊢
    rw [Problem.value_congr .ising (hbelow other hother)]
    by_cases hi : helper = i
    · rw [hi, huser, Option.some.injEq] at hhelper
      rw [hi, hpin, Option.some.injEq] at hasked
      have huser : t user = some pin.flip := hbelow user (hhelper ▸ hother) ▸ hbroken
      rw [← hhelper, ← hasked, Problem.value_of_eq_some _ huser]
      cases pin <;> simp [Spin.flip, Coefficient.ofSpinIn, Coefficient.ofSpin]
    · rw [Problem.value_congr .ising (hsame helper hi)]
  unfold pinWithHelpers
  rw [energy_foldl_addHelper hmode fun e he => (husers e he).2,
    energy_foldl_addHelper hmode husers', hterms, hm.isOver.energy_congr hbelow]

/-- No helper contradicts its pin: while its user is not known no spin of it dominates, and after
that it is released. -/
theorem lt_of_contradicts
    (h : (m.pinWithHelpers strength).Contradicts foldDominated known i pin spin) :
    i < m.symbols.size := by
  by_contra hlt
  have hi := Nat.not_lt.mp hlt
  obtain ⟨hover, _, _, htethered⟩ := prepared_pinWithHelpers hm hnone hmode strength
  obtain ⟨user, huser⟩ := (helpersFrom_pinWithHelpers hm hnone strength).user i hi h.lt
  have hpinned : ∀ {pin}, (m.pinWithHelpers strength).PinnedTo i pin →
      (m.pinWithHelpers strength).problem.pinned.get? i = some pin := by
    rintro pin ⟨k, htied, hk⟩
    exact htethered.eq_of_tied hover hi htied ▸ hk
  have hpin := hpinned h.pinnedTo
  have hunknown : known user = none := by
    by_contra hknown
    exact h.unreleased (htethered.released hover hi huser hknown h.pinnedTo)
  rcases h.evident with hreleased | ⟨_, hdominated⟩
  · have hspin := hpinned hreleased.pinned
    rw [hpin, Option.some.injEq] at hspin
    exact h.ne hspin
  · -- with the user against its pin, neither spin of the helper is better
    let filled := (m.pinWithHelpers strength).complete known (fun _ => pin.flip) i
    have hlt : 2 * Problem.dominanceMargin <
        (m.pinWithHelpers strength).problem.energy (filled spin.flip) -
          (m.pinWithHelpers strength).problem.energy (filled spin) :=
      hdominated.lt_complete _ (fun _ _ => h.infers.eq_of_tied) (fun _ _ => h.infers.eq_of_tied)
        (fun _ _ _ => rfl) (fun _ _ hk => hk) h.unknown
    have hapart : ∀ k, k ≠ i → ∀ other, filled other k = some ((known k).getD pin.flip) :=
      fun k hk other => complete_of_not_tied fun htied => hk (htethered.eq_of_tied hover hi htied)
    have huserlt := (htethered.problem.helpers i user huser).2.1
    have hbroken : filled spin user = some pin.flip := by
      rw [hapart user (by omega), hunknown, Option.getD_none]
    have heq := energy_eq_of_broken_user hm hnone hmode (covers_complete _ known _ i spin) huser
      hpin hbroken fun k hk => (hapart k hk spin).trans (hapart k hk spin.flip).symm
    have hmargin := Problem.dominanceMargin_pos
    rw [heq, sub_self] at hlt
    linarith

end Helpers

/-- Simplified models that are the same to a user. -/
structure SameResult (m n : Model ℚ) : Prop where
  knownValues : ∀ name, isInternalName name = false →
    m.problem.knownValues.get? name = n.problem.knownValues.get? name
  unbound_iff : ∀ name, isInternalName name = false →
    (m.symbols.lookup? name = none ↔ n.symbols.lookup? name = none)
  share_iff : ∀ a b, isInternalName a = false → isInternalName b = false →
    (m.symbols.lookup? a = m.symbols.lookup? b ↔ n.symbols.lookup? a = n.symbols.lookup? b)
  leastEnergy : ∃ e, IsLeast m.pinnedEnergies e ∧ IsLeast n.pinnedEnergies e

/-- A name that is left is that of a variable whose spin is not inferred. -/
theorem Outcome.exists_unknown {m m' : Model ℚ} {known : Assignment} {foldDominated : Bool}
    {name : String} (h : m.Outcome foldDominated known m')
    (hbound : m'.symbols.lookup? name ≠ none) :
    ∃ i, m.symbols.byName.get? name = some i ∧ known i = none := by
  by_contra hall
  refine hbound ((h.lookup?_eq_none_iff name).mpr fun i hi => ?_)
  exact Option.ne_none_iff_exists'.mp fun hnone => hall ⟨i, hi, hnone⟩

/-- The names of the user keep their variables from the one model to the other. -/
def KeepsNames (π : Equiv.Perm Nat) (m n : Model ℚ) : Prop :=
  ∀ name, isInternalName name = false →
    n.symbols.byName.get? name = (m.symbols.byName.get? name).map π

namespace Matches

variable {π : Equiv.Perm Nat} {m n m' n' : Model ℚ} {known known' : Assignment}
  {foldDominated : Bool} {e : SimplifyError} (h : Matches π m n)

include h

theorem energies_subset : n.energies ⊆ m.energies := by
  rintro _ ⟨s, ⟨hover, hpins, hchains⟩, rfl⟩
  exact ⟨s ∘ π, ⟨h.isOver_iff.mpr hover, h.meetsPins_iff.mp hpins,
    (h.meetsChains_iff s).mp hchains⟩, (h.energy s hover.covers).symm⟩

/-- The energies under pins and chains are the same. -/
theorem energies_eq : m.energies = n.energies :=
  h.symm.energies_subset.antisymm h.energies_subset

variable (hkeeps : KeepsNames π m n)

include hkeeps

/-- Models that match are simplified to the same result. -/
theorem sameResult (ho : m.Outcome foldDominated known m')
    (ho' : n.Outcome foldDominated known' n') : SameResult m' n' := by
  obtain rfl : known ∘ π.symm = known' :=
    (h.infers ho.infers).eq_of_settles (h.settles ho.settles) ho'.infers ho'.settles
  have hknown : ∀ i, (known ∘ π.symm) (π i) = known i := fun i => by
    rw [Function.comp_apply, π.symm_apply_apply]
  have hunbound : ∀ name, isInternalName name = false →
      (m'.symbols.lookup? name = none ↔ n'.symbols.lookup? name = none) := by
    intro name hname
    rw [ho.lookup?_eq_none_iff, ho'.lookup?_eq_none_iff, hkeeps name hname]
    cases m.symbols.byName.get? name with
    | none => simp
    | some i => simp
  refine ⟨fun name hname => ?_, hunbound, fun a b ha hb => ?_, ?_⟩
  · rw [ho.knownValues, ho'.knownValues, hkeeps name hname, Option.bind_map]
    simp only [Function.comp_def, π.symm_apply_apply]
  · by_cases hbound : m'.symbols.lookup? a = none
    · rw [hbound, (hunbound a ha).mp hbound, eq_comm, hunbound b hb, eq_comm]
    by_cases hbound' : m'.symbols.lookup? b = none
    · rw [hbound', (hunbound b hb).mp hbound', hunbound a ha]
    obtain ⟨i, hi, hnone⟩ := ho.exists_unknown hbound
    obtain ⟨k, hk, hnone'⟩ := ho.exists_unknown hbound'
    have hi' := hkeeps a ha
    have hk' := hkeeps b hb
    rw [hi, Option.map_some] at hi'
    rw [hk, Option.map_some] at hk'
    rw [ho.lookup?_eq_iff hi hk hnone hnone', ho'.lookup?_eq_iff hi' hk' ((hknown i).trans hnone)
      ((hknown k).trans hnone'), h.tied_iff]
  · obtain ⟨e, hleast, henergies⟩ := ho.exists_isLeast
    obtain ⟨e', hleast', henergies'⟩ := ho'.exists_isLeast
    obtain rfl := henergies.unique (h.energies_eq ▸ henergies')
    exact ⟨e, hleast, hleast'⟩

omit hkeeps in
/-- If one of two models that match is simplified, pins and chains of the other can be met. -/
theorem exists_meets (ho : m.Outcome foldDominated known m') :
    ∃ s : Assignment, n.problem.MeetsPins s ∧ n.problem.MeetsChains s := by
  obtain ⟨e, _, hleast⟩ := ho.exists_isLeast
  obtain ⟨s, hs, _⟩ := h.energies_eq ▸ hleast.1
  exact ⟨s, hs.2⟩

/-- If one of two models that match is simplified, a spin that contradicts a pin in the other is a
dominating one, and the variable is known by its pin in the one. -/
theorem pinned_of_contradicts {j : Nat} {pin spin : Spin} (ho : m.Outcome foldDominated known m')
    (hcontradicts : n.Contradicts foldDominated known' j pin spin) :
    foldDominated = true ∧ spin = pin.flip ∧
      ∀ name k, isInternalName name = false → n.symbols.byName.get? name = some k → n.Tied j k →
        m'.problem.knownValues.get? name = some pin := by
  obtain ⟨hfold, hpin⟩ := (h.symm.contradicts hcontradicts).known_eq ho.infers ho.settles
  refine ⟨hfold, ?_, fun name k hname hk htied => ?_⟩
  · have hne := hcontradicts.ne
    cases pin <;> cases spin <;> simp_all [Spin.flip]
  · rw [hkeeps name hname, Option.map_eq_some_iff] at hk
    obtain ⟨i, hi, rfl⟩ := hk
    have hback := h.symm.tied htied
    rw [π.symm_apply_apply] at hback
    rw [ho.knownValues, hi, Option.bind_some, ← ho.infers.eq_of_tied hback, hpin]

end Matches

/-- What a program over spins is simplified to, with helpers for its pins. -/
def SimplifiesTo (program : Program ℚ) (strength : ℚ) (foldDominated : Bool) (m' : Model ℚ) :
    Prop :=
  ∃ m report, build program .ising .empty = .ok m ∧
    (m.pinWithHelpers strength).simplify foldDominated = .ok (report, m')

/-- What stops the simplification of a program over spins, with helpers for its pins. -/
def StopsWith (program : Program ℚ) (strength : ℚ) (foldDominated : Bool) (e : SimplifyError) :
    Prop :=
  ∃ m, build program .ising .empty = .ok m ∧
    (m.pinWithHelpers strength).simplify foldDominated = .error e

section Order

variable {program program' : Program ℚ} {m n m' : Model ℚ} {strength : ℚ} {foldDominated : Bool}

/-- Helpers have names of their own. -/
theorem Helped.byName_eq (h : m.Helped n) {name : String} (hname : isInternalName name = false) :
    n.symbols.byName.get? name = m.symbols.byName.get? name := by
  apply Option.ext
  intro i
  refine ⟨fun hi => (h.only name i hi).resolve_left ?_, h.grows.byName name i⟩
  rw [hname]
  exact Bool.false_ne_true

/-- The problem of a program is ready to be simplified as soon as its pins have helpers. -/
theorem prepared_of_build (h : build program .ising .empty = .ok m) (strength : ℚ) :
    (m.pinWithHelpers strength).Prepared m.symbols.size := by
  have hbuilt := (builds_of_build h).built
  exact prepared_pinWithHelpers hbuilt.indexed hbuilt.pinHelpers hbuilt.mode strength

theorem helped_of_build (h : build program .ising .empty = .ok m) (strength : ℚ) :
    m.Helped (m.pinWithHelpers strength) :=
  helped_pinWithHelpers (builds_of_build h).built.indexed strength

/-- The problem of a program is simplified by inferences. -/
theorem exists_outcome_of_build {report : SimplifyReport} (h : build program .ising .empty = .ok m)
    (hsimplify : (m.pinWithHelpers strength).simplify foldDominated = .ok (report, m')) :
    ∃ known, (m.pinWithHelpers strength).Outcome foldDominated known m' := by
  have hhelped := helped_of_build h strength
  exact exists_outcome (prepared_of_build h strength) hhelped.indexed.plain
    (hhelped.knownValues.trans (builds_of_build h).built.knownValues) hsimplify

/-- A variable that contradicts its pin has a name in the program. -/
theorem exists_name_of_contradicts {known : Assignment} {i : Nat} {pin spin : Spin}
    (h : build program .ising .empty = .ok m)
    (hcontradicts : (m.pinWithHelpers strength).Contradicts foldDominated known i pin spin) :
    ∃ s ∈ program, ∃ name ∈ s.names,
      (m.pinWithHelpers strength).symbols.byName.get? name = some i := by
  have hbuilt := (builds_of_build h).built
  have hlt := lt_of_contradicts hbuilt.indexed hbuilt.pinHelpers hbuilt.mode hcontradicts
  obtain ⟨name, hname⟩ := named_of_build h i hlt
  obtain ⟨s, hs, hmem⟩ := (named_iff_of_build h name).mp ⟨i, hname⟩
  exact ⟨s, hs, name, hmem, (helped_of_build h strength).grows.byName name i hname⟩

/-- With helpers the problems of a program in two orders match, and the names of the user keep their
variables. -/
theorem exists_matches_pinWithHelpers (hperm : program.Perm program')
    (hm : build program .ising .empty = .ok m) (hn : build program' .ising .empty = .ok n)
    (strength : ℚ) : ∃ π, Matches π (m.pinWithHelpers strength) (n.pinWithHelpers strength) ∧
      KeepsNames π (m.pinWithHelpers strength) (n.pinWithHelpers strength) := by
  have hbuilt := (builds_of_build hm).built
  have hbuilt' := (builds_of_build hn).built
  obtain ⟨π, hmatch, hnames⟩ := exists_matches_of_perm hperm hm hn
  have hfree : MatchesWithoutHelpers π m n :=
    ⟨hmatch, hbuilt.indexed, hbuilt'.indexed, hbuilt.pinHelpers, hbuilt'.pinHelpers⟩
  obtain ⟨ρ, hhelped, hagree⟩ := hfree.exists_matches strength
  refine ⟨ρ, hhelped, fun name hname => ?_⟩
  rw [(helped_pinWithHelpers hbuilt.indexed strength).byName_eq hname,
    (helped_pinWithHelpers hbuilt'.indexed strength).byName_eq hname, hnames]
  cases hi : m.symbols.byName.get? name with
  | none => rfl
  | some i => rw [Option.map_some, Option.map_some, hagree i (hbuilt.plain.lt_size name i hi)]

/-- The order of the statements does not matter to a simplification that succeeds on both orders,
nor does it matter to whether it succeeds without dominance. With dominance only one order may
succeed: what stops the other is a variable of the user whose dominating spin contradicts its pin,
where the first order has released the pin before. -/
theorem simplifiesTo_perm (hnames : ∀ s ∈ program, ∀ name ∈ s.written, isInternalName name = false)
    (hperm : program.Perm program') (strength : ℚ)
    (h : SimplifiesTo program strength foldDominated m') :
    (∃ n', SimplifiesTo program' strength foldDominated n' ∧ SameResult m' n') ∨
      foldDominated = true ∧ ∃ names pin,
        StopsWith program' strength foldDominated (.contradiction names pin pin.flip) ∧
        (∃ name ∈ names, isInternalName name = false) ∧
        ∀ name ∈ names, isInternalName name = false →
          m'.problem.knownValues.get? name = some pin := by
  obtain ⟨m, report, hm, hsimplify⟩ := h
  obtain ⟨n, hn⟩ := exists_build_of_perm hperm hm
  obtain ⟨π, hmatch, hkeeps⟩ := exists_matches_pinWithHelpers hperm hm hn strength
  obtain ⟨known, houtcome⟩ := exists_outcome_of_build hm hsimplify
  cases hsimplify' : (n.pinWithHelpers strength).simplify foldDominated with
  | ok result =>
    obtain ⟨report', n'⟩ := result
    obtain ⟨known', houtcome'⟩ := exists_outcome_of_build hn hsimplify'
    exact .inl ⟨n', ⟨n, report', hn, hsimplify'⟩, hmatch.sameResult hkeeps houtcome houtcome'⟩
  | error e =>
    obtain ⟨s, hpins, hchains⟩ := hmatch.exists_meets houtcome
    obtain ⟨known', i, pin, spin, names, hcontradicts, rfl, hmem⟩ :=
      exists_contradicts (prepared_of_build hn strength)
        (helped_of_build hn strength).indexed.plain hpins hchains hsimplify'
    obtain ⟨hfold, rfl, hpinned⟩ := hmatch.pinned_of_contradicts hkeeps houtcome hcontradicts
    refine .inr ⟨hfold, names, pin, ⟨n, hn, hsimplify'⟩, ?_, fun name hname hshown => ?_⟩
    · obtain ⟨st, hst, name, hname, hi⟩ := exists_name_of_contradicts hn hcontradicts
      refine ⟨name, (hmem name).mpr ⟨i, hi, .refl _ i⟩, ?_⟩
      exact hnames st (hperm.mem_iff.mpr hst) name (st.mem_written hname)
    · obtain ⟨k, hk, htied⟩ := (hmem name).mp hname
      exact hpinned name k hshown hk htied

end Order

/-- Whether a program is simplified can be computed. -/
theorem exists_simplifiesTo_iff {program : Program ℚ} {strength : ℚ} {foldDominated : Bool} :
    (∃ m', SimplifiesTo program strength foldDominated m') ↔
      ((build program .ising .empty).toOption.bind fun m =>
        ((m.pinWithHelpers strength).simplify foldDominated).toOption).isSome = true := by
  unfold SimplifiesTo
  cases build program .ising .empty with
  | error e => simp [Except.toOption]
  | ok m =>
    cases hsimplify : (m.pinWithHelpers strength).simplify foldDominated with
    | error e => simp [Except.toOption, hsimplify]
    | ok result =>
      obtain ⟨report, m'⟩ := result
      simp [Except.toOption, hsimplify]

instance (program : Program ℚ) (strength : ℚ) (foldDominated : Bool) :
    Decidable (∃ m', SimplifiesTo program strength foldDominated m') :=
  decidable_of_iff _ exists_simplifiesTo_iff.symm

/-- A pin against a weight that dominates, and a coupling that holds the pin. -/
def contested : Program ℚ := [.weight "A" 100, .strength "A" "B" 1, .pin "A" true]

/-- If the coupled variable comes first, the pin is released. If it comes last, the weight dominates
before, and what is blamed is the variable. Without dominance the order does not matter. -/
theorem simplifiesTo_perm_contested :
    (∃ m', SimplifiesTo (.weight "B" 5 :: contested) (-2) true m' ∧
      ∃ names pin,
        StopsWith (contested ++ [.weight "B" 5]) (-2) true (.contradiction names pin pin.flip) ∧
        (∃ name ∈ names, isInternalName name = false) ∧
        ∀ name ∈ names, isInternalName name = false →
          m'.problem.knownValues.get? name = some pin) ∧
      ∃ m' n', SimplifiesTo (.weight "B" 5 :: contested) (-2) false m' ∧
        SimplifiesTo (contested ++ [.weight "B" 5]) (-2) false n' ∧ SameResult m' n' := by
  have hnames : ∀ s ∈ Statement.weight "B" 5 :: contested, ∀ name ∈ s.written,
      isInternalName name = false := by decide +kernel
  have hperm := (List.perm_append_singleton (.weight "B" 5) contested).symm
  constructor
  · obtain ⟨m', h⟩ : ∃ m', SimplifiesTo (.weight "B" 5 :: contested) (-2) true m' := by
      decide +kernel
    refine ⟨m', h, ?_⟩
    rcases simplifiesTo_perm hnames hperm (-2) h with ⟨n', h', _⟩ | ⟨_, hstops⟩
    · have hnone : ¬ ∃ n', SimplifiesTo (contested ++ [.weight "B" 5]) (-2) true n' := by
        decide +kernel
      exact absurd ⟨n', h'⟩ hnone
    · exact hstops
  · obtain ⟨m', h⟩ : ∃ m', SimplifiesTo (.weight "B" 5 :: contested) (-2) false m' := by
      decide +kernel
    rcases simplifiesTo_perm hnames hperm (-2) h with ⟨n', h', hsame⟩ | ⟨hfold, _⟩
    · exact ⟨m', n', h, h', hsame⟩
    · cases hfold

/-- So it depends on the order of the statements whether a simplification succeeds. -/
theorem exists_perm_not_simplified :
    ¬ ∀ (program program' : Program ℚ) (strength : ℚ) (foldDominated : Bool),
      (∀ s ∈ program, ∀ name ∈ s.written, isInternalName name = false) →
      program.Perm program' →
      ((∃ m', SimplifiesTo program strength foldDominated m') ↔
        ∃ n', SimplifiesTo program' strength foldDominated n') ∧
      ∀ m' n', SimplifiesTo program strength foldDominated m' →
        SimplifiesTo program' strength foldDominated n' → SameResult m' n' := by
  intro hall
  have hsame := hall (.weight "B" 5 :: contested) (contested ++ [.weight "B" 5]) (-2) true
    (by decide +kernel) (List.perm_append_singleton (.weight "B" 5) contested).symm
  exact absurd (hsame.1.mp (by decide +kernel)) (by decide +kernel)

end Model

end SpinGlass

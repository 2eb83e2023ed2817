import SpinGlass.Proofs.Compile.PinHelpers
import SpinGlass.Proofs.Problem.Buildable
import SpinGlass.Proofs.Problem.PinHelpers
import SpinGlass.Proofs.Simplify.Matching
import Mathlib.Data.Fintype.EquivFin
import Mathlib.Logic.Equiv.Fin.Basic

/-!
# Programs in another order

The order of the statements decides which index a name gets, and which helper a pin. So the problems
of a program and of its statements in another order match, with helpers and without, by the
permutation that goes from the index of a name in the one to its index in the other.
-/

namespace SpinGlass

/-- A relation that pairs the numbers below one bound with those below another. -/
structure Pairs (R : Nat → Nat → Prop) (a b : Nat) : Prop where
  lt : ∀ i j, R i j → i < a ∧ j < b
  left : ∀ i < a, ∃ j, R i j
  right : ∀ j < b, ∃ i, R i j
  inj : ∀ i i' j, R i j → R i' j → i = i'
  unique : ∀ i j j', R i j → R i j' → j = j'

/-- Such a relation is that of a permutation. -/
theorem Pairs.exists_perm {R : Nat → Nat → Prop} {a b : Nat} (h : Pairs R a b) :
    b = a ∧ ∃ π : Equiv.Perm Nat, (∀ i, π i < b ↔ i < a) ∧ ∀ i < a, R i (π i) := by
  choose partner hpartner using fun i : Fin a => h.left i i.isLt
  let f : Fin a → Fin b := fun i => ⟨partner i, (h.lt _ _ (hpartner i)).2⟩
  have hbijective : f.Bijective := by
    constructor
    · intro i i' heq
      have heq : partner i = partner i' := congrArg Fin.val heq
      exact Fin.ext (h.inj _ _ _ (hpartner i) (heq ▸ hpartner i'))
    · intro j
      obtain ⟨i, hi⟩ := h.right j j.isLt
      have hlt := (h.lt i j hi).1
      exact ⟨⟨i, hlt⟩, Fin.ext (h.unique _ _ _ (hpartner ⟨i, hlt⟩) hi)⟩
  obtain rfl : b = a := by
    have hcard := Fintype.card_of_bijective hbijective
    rw [Fintype.card_fin, Fintype.card_fin] at hcard
    exact hcard.symm
  let π := Equiv.Perm.extendDomain (Equiv.ofBijective f hbijective) Fin.equivSubtype
  have himage : ∀ i (hi : i < b), π i = partner ⟨i, hi⟩ := fun i hi =>
    Equiv.Perm.extendDomain_apply_image (Equiv.ofBijective f hbijective) Fin.equivSubtype ⟨i, hi⟩
  have hfixed : ∀ i, ¬ i < b → π i = i := fun i hi =>
    Equiv.Perm.extendDomain_apply_not_subtype _ _ hi
  refine ⟨rfl, π, fun i => ?_, fun i hi => ?_⟩
  · by_cases hi : i < b
    · rw [himage i hi]
      exact iff_of_true (h.lt _ _ (hpartner ⟨i, hi⟩)).2 hi
    · rw [hfixed i hi]
  · rw [himage i hi]
    exact hpartner ⟨i, hi⟩

/-- The objective of a program does not depend on the order of its statements. -/
theorem Program.objective_perm {program program' : Program ℚ} (h : program.Perm program')
    (mode : Mode) (spins : String → Option Spin) :
    program.objective mode spins = program'.objective mode spins :=
  (h.map _).sum_eq

namespace Problem

variable {K : Type} {p : Problem K} {n : Nat} {s t : Assignment}

/-- A pinned variable is one that has one spin wherever the pins are met. -/
theorem pinned_iff_meetsPins {i : Nat} {spin : Spin} : p.pinned.get? i = some spin ↔
    ∀ s : Assignment, p.MeetsPins s → s i = some spin :=
  ⟨fun hi _ hs => hs i spin hi, fun h => h p.pinned.get? p.meetsPins_pinned⟩

/-- Only the spins of allocated indices matter to the chains. -/
theorem Over.meetsChains_congr (hp : p.Over (· < n)) (h : ∀ i < n, s i = t i) :
    p.MeetsChains s ↔ p.MeetsChains t := by
  refine forall_congr' fun q => forall_congr' fun hq => ?_
  obtain ⟨_, hlo, hhi⟩ := hp.chains q hq
  rw [h _ hlo, h _ hhi]

end Problem

namespace Model

section Build

variable {program program' : Program ℚ} {m n : Model ℚ}

/-- Indices of one name. -/
def SameName (m n : Model ℚ) (i j : Nat) : Prop :=
  ∃ name, m.symbols.byName.get? name = some i ∧ n.symbols.byName.get? name = some j

/-- The names that have an index are those of the statements. -/
theorem named_iff_of_build (h : build program .ising .empty = .ok m) (name : String) :
    (∃ i, m.symbols.byName.get? name = some i) ↔ ∃ s ∈ program, name ∈ s.names := by
  have hbuilds := builds_of_build h
  constructor
  · rintro ⟨i, hi⟩
    refine (hbuilds.only name i hi).resolve_right ?_
    simp [Symbols.empty]
  · rintro ⟨s, hs, hname⟩
    exact hbuilds.named s hs name hname

/-- A program has the same names in any order. -/
theorem named_iff_of_perm (hperm : program.Perm program')
    (hm : build program .ising .empty = .ok m) (hn : build program' .ising .empty = .ok n)
    (name : String) :
    (∃ i, m.symbols.byName.get? name = some i) ↔ ∃ j, n.symbols.byName.get? name = some j := by
  rw [named_iff_of_build hm, named_iff_of_build hn]
  exact exists_congr fun s => and_congr_left' hperm.mem_iff

/-- The indices of one name in the problems of a program in two orders. -/
theorem pairs_sameName (hperm : program.Perm program')
    (hm : build program .ising .empty = .ok m) (hn : build program' .ising .empty = .ok n) :
    Pairs (SameName m n) m.symbols.size n.symbols.size := by
  have hbuilt := (builds_of_build hm).built
  have hbuilt' := (builds_of_build hn).built
  have hnames := named_iff_of_perm hperm hm hn
  refine ⟨fun i j ⟨name, hi, hj⟩ => ?_, fun i hi => ?_, fun j hj => ?_,
    fun i i' j ⟨name, hi, hj⟩ ⟨name', hi', hj'⟩ => ?_,
    fun i j j' ⟨name, hi, hj⟩ ⟨name', hi', hj'⟩ => ?_⟩
  · exact ⟨hbuilt.plain.lt_size name i hi, hbuilt'.plain.lt_size name j hj⟩
  · obtain ⟨name, hname⟩ := named_of_build hm i hi
    obtain ⟨j, hj⟩ := (hnames name).mp ⟨i, hname⟩
    exact ⟨j, name, hname, hj⟩
  · obtain ⟨name, hname⟩ := named_of_build hn j hj
    obtain ⟨i, hi⟩ := (hnames name).mpr ⟨j, hname⟩
    exact ⟨i, name, hi, hname⟩
  · obtain rfl := hbuilt'.apart name name' j hj hj'
    rw [hi, Option.some.injEq] at hi'
    exact hi'
  · obtain rfl := hbuilt.apart name name' i hi hi'
    rw [hj, Option.some.injEq] at hj'
    exact hj'

/-- The problems of a program in two orders match, and each name keeps its variable. -/
theorem exists_matches_of_perm (hperm : program.Perm program')
    (hm : build program .ising .empty = .ok m) (hn : build program' .ising .empty = .ok n) :
    ∃ π, Matches π m n ∧
      ∀ name, n.symbols.byName.get? name = (m.symbols.byName.get? name).map π := by
  have hbuilds := builds_of_build hm
  have hbuilds' := builds_of_build hn
  have hpairs := pairs_sameName hperm hm hn
  obtain ⟨hsize, π, hlt, hπ⟩ := hpairs.exists_perm
  have hname : ∀ name, n.symbols.byName.get? name = (m.symbols.byName.get? name).map π := by
    intro name
    have hnames := named_iff_of_perm hperm hm hn name
    cases hi : m.symbols.byName.get? name with
    | none =>
      rw [Option.map_none, Option.eq_none_iff_forall_ne_some]
      intro j hj
      obtain ⟨i, hsome⟩ := hnames.mpr ⟨j, hj⟩
      rw [hi] at hsome
      cases hsome
    | some i =>
      obtain ⟨j, hj⟩ := hnames.mp ⟨i, hi⟩
      have hpair : SameName m n i (π i) := hπ i (hbuilds.built.plain.lt_size name i hi)
      rw [hj, Option.map_some, hpairs.unique i j (π i) ⟨name, hi, hj⟩ hpair]
  have hspins : ∀ s : Assignment, n.symbols.spinOf s = m.symbols.spinOf (s ∘ π) := by
    intro s
    funext name
    unfold Symbols.spinOf
    rw [hbuilds.built.plain.lookup?, hbuilds'.built.plain.lookup?, hname, Option.bind_map]
  have hpins : ∀ s : Assignment, n.problem.MeetsPins s ↔ m.problem.MeetsPins (s ∘ π) := by
    intro s
    rw [hbuilds'.meetsPins_iff, hbuilds.meetsPins_iff, hspins]
    exact and_congr (by simp [Problem.MeetsPins, Problem.empty])
      (forall_congr' fun st => imp_congr_left hperm.symm.mem_iff)
  refine ⟨π, ⟨hbuilds.built.isOver, hbuilds'.built.isOver, hbuilds.built.mode, hbuilds'.built.mode,
    hsize, hlt, fun s hs => ?_, fun s => ?_, fun i => ?_, fun i => ?_⟩, hname⟩
  · have hcovers : Assignment.Covers (s ∘ π) m.symbols.size := fun i hi => hs (π i) ((hlt i).mpr hi)
    rw [energy_build hm hcovers, energy_build hn hs, hspins, Program.objective_perm hperm]
  · rw [hbuilds'.meetsChains_iff, hbuilds.meetsChains_iff, hspins]
    exact and_congr (by simp [Problem.MeetsChains, Problem.empty, KeySet.contains_empty])
      (forall_congr' fun st => imp_congr_left hperm.symm.mem_iff)
  · apply Option.ext
    intro spin
    rw [Problem.pinned_iff_meetsPins, Problem.pinned_iff_meetsPins]
    constructor
    · intro h s hs
      have hcomp : (s ∘ π.symm) ∘ π = s := by
        rw [Function.comp_assoc, π.symm_comp_self, Function.comp_id]
      have hspin := h (s ∘ π.symm) ((hpins _).mpr (hcomp.symm ▸ hs))
      rwa [Function.comp_apply, π.symm_apply_apply] at hspin
    · exact fun h s hs => h (s ∘ π) ((hpins s).mp hs)
  · rw [hbuilds.built.pinHelpers, hbuilds'.built.pinHelpers]
    rfl

/-- If a program is built, so are its statements in another order. -/
theorem exists_build_of_perm (hperm : program.Perm program')
    (hm : build program .ising .empty = .ok m) :
    ∃ n, build program' .ising .empty = .ok n := by
  have hbuilds := builds_of_build hm
  obtain ⟨s, _, hs⟩ := Problem.exists_meetsPins hbuilds.built.isOver
  have hpins := ((hbuilds.meetsPins_iff s).mp hs).2
  let values (name : String) : Spin := (m.symbols.spinOf s name).getD .up
  have hvalues : ∀ st ∈ program', st.MeetsPin fun name => some (values name) := by
    intro st hst
    have hpin := hpins st (hperm.mem_iff.mpr hst)
    cases st with
    | pin var value =>
      have hspin : m.symbols.spinOf s var = some (.ofBool value) := hpin
      simp only [values, Statement.MeetsPin, hspin, Option.getD_some]
    | weight | strength | chain | assert => trivial
  refine exists_build_eq_ok .ising hvalues fun e he name hname => ?_
  obtain ⟨st, hst, hmem⟩ := exists_names_of_build hm (hperm.mem_iff.mpr he) name hname
  exact ⟨st, hperm.mem_iff.mp hst, hmem⟩

end Build

section Helpers

variable {m n : Model ℚ} {strength : ℚ} {i k user : Nat} {spin : Spin}

variable (hm : m.Indexed) (hnone : m.problem.pinHelpers = .empty)

include hm hnone

theorem helper_iff : (m.pinWithHelpers strength).problem.pinHelpers.get? i = some user ↔
    m.symbols.size ≤ i ∧ ∃ spin, m.problem.userPins[i - m.symbols.size]? = some (user, spin) := by
  rw [get?_pinHelpers_pinWithHelpers hm.isOver, hnone]
  by_cases hi : i < m.symbols.size
  · simp [hi, Nat.not_le.mpr hi]
  · simp [hi, Nat.not_lt.mp hi, Option.map_eq_some_iff]

/-- A helper is pinned like its user. -/
theorem pinned_of_helper
    (hi : (m.pinWithHelpers strength).problem.pinHelpers.get? i = some user) :
    ∃ spin, m.problem.pinned.get? user = some spin ∧
      (m.pinWithHelpers strength).problem.pinned.get? i = some spin := by
  obtain ⟨hle, spin, hpin⟩ := (helper_iff hm hnone).mp hi
  refine ⟨spin, pinned_of_mem_userPins (List.mem_of_getElem? hpin), ?_⟩
  rw [get?_pinned_pinWithHelpers hm.isOver, if_neg (Nat.not_lt.mpr hle), hpin]
  rfl

/-- The helpers, by their users and spins. -/
theorem mem_zipIdx_userPins_iff :
    ((user, spin), i) ∈ m.problem.userPins.zipIdx m.symbols.size ↔
      (m.pinWithHelpers strength).problem.pinHelpers.get? i = some user ∧
        (m.pinWithHelpers strength).problem.pinned.get? i = some spin := by
  rw [List.mk_mem_zipIdx_iff_le_and_getElem?_sub, helper_iff hm hnone,
    get?_pinned_pinWithHelpers hm.isOver]
  constructor
  · rintro ⟨hle, hpin⟩
    refine ⟨⟨hle, spin, hpin⟩, ?_⟩
    rw [if_neg (Nat.not_lt.mpr hle), hpin]
    rfl
  · rintro ⟨⟨hle, pin, hpin⟩, hspin⟩
    rw [if_neg (Nat.not_lt.mpr hle), hpin, Option.map_some, Option.some.injEq] at hspin
    exact ⟨hle, hspin ▸ hpin⟩

/-- Every pinned variable has a helper. -/
theorem exists_helper (strength : ℚ) (hpin : m.problem.pinned.get? user = some spin) :
    ∃ i, (m.pinWithHelpers strength).problem.pinHelpers.get? i = some user := by
  have hmem : (user, spin) ∈ m.problem.userPins := by
    rw [userPins_eq hnone]
    exact Table.get?_eq_some_iff.mp hpin
  obtain ⟨k, hk⟩ := List.mem_iff_getElem?.mp hmem
  refine ⟨m.symbols.size + k, (helper_iff hm hnone).mpr ⟨by omega, spin, ?_⟩⟩
  rw [Nat.add_sub_cancel_left, hk]

/-- No variable has two helpers. -/
theorem eq_of_helper (hi : (m.pinWithHelpers strength).problem.pinHelpers.get? i = some user)
    (hk : (m.pinWithHelpers strength).problem.pinHelpers.get? k = some user) : i = k := by
  obtain ⟨hile, spin, hi⟩ := (helper_iff hm hnone).mp hi
  obtain ⟨hkle, spin', hk⟩ := (helper_iff hm hnone).mp hk
  have huser : ∀ {j : Nat} {pin : Spin}, m.problem.userPins[j]? = some (user, pin) →
      m.problem.pinned.keys[j]? = some user := by
    intro j pin hj
    rw [userPins_eq hnone] at hj
    unfold Table.keys
    rw [List.getElem?_map, hj]
    rfl
  have hsame := (huser hi).trans (huser hk).symm
  have hlt : i - m.symbols.size < m.problem.pinned.keys.length :=
    (List.getElem?_eq_some_iff.mp (huser hi)).1
  have heq := (List.getElem?_inj hlt (Table.nodup_keys _)).mp hsame
  omega

end Helpers

/-- Variables that match, and helpers of variables that match. -/
def MatchWithHelpers (π : Equiv.Perm Nat) (strength : ℚ) (m n : Model ℚ) (i j : Nat) : Prop :=
  i < m.symbols.size ∧ π i = j ∨
    ∃ user, (m.pinWithHelpers strength).problem.pinHelpers.get? i = some user ∧
      (n.pinWithHelpers strength).problem.pinHelpers.get? j = some (π user)

/-- Two models without helpers that match. -/
structure MatchesWithoutHelpers (π : Equiv.Perm Nat) (m n : Model ℚ) : Prop where
  toMatches : Matches π m n
  indexed : m.Indexed
  indexed' : n.Indexed
  free : m.problem.pinHelpers = .empty
  free' : n.problem.pinHelpers = .empty

namespace MatchesWithoutHelpers

variable {π : Equiv.Perm Nat} {m n : Model ℚ} (h : MatchesWithoutHelpers π m n) (strength : ℚ)

include h

theorem symm : MatchesWithoutHelpers π.symm n m :=
  ⟨h.toMatches.symm, h.indexed', h.indexed, h.free', h.free⟩

theorem matchWithHelpers_symm {i j : Nat} (hij : MatchWithHelpers π strength m n i j) :
    MatchWithHelpers π.symm strength n m j i := by
  rcases hij with ⟨hi, rfl⟩ | ⟨user, hi, hj⟩
  · exact .inl ⟨(h.toMatches.lt_iff i).mpr hi, π.symm_apply_apply i⟩
  · exact .inr ⟨π user, hj, by rw [π.symm_apply_apply, hi]⟩

theorem exists_matchWithHelpers {i : Nat} (hi : i < (m.pinWithHelpers strength).symbols.size) :
    ∃ j, MatchWithHelpers π strength m n i j := by
  by_cases hlt : i < m.symbols.size
  · exact ⟨π i, .inl ⟨hlt, rfl⟩⟩
  · obtain ⟨user, huser⟩ := (helpersFrom_pinWithHelpers h.indexed h.free strength).user i
      (Nat.not_lt.mp hlt) hi
    obtain ⟨spin, hpin, _⟩ := pinned_of_helper h.indexed h.free huser
    obtain ⟨j, hj⟩ := exists_helper h.indexed' h.free' strength
      ((h.toMatches.pinned user).trans hpin)
    exact ⟨j, .inr ⟨user, huser, hj⟩⟩

theorem eq_of_matchWithHelpers {i i' j : Nat} (hij : MatchWithHelpers π strength m n i j)
    (hij' : MatchWithHelpers π strength m n i' j) : i = i' := by
  have hhelper : ∀ {k user}, k < m.symbols.size →
      (n.pinWithHelpers strength).problem.pinHelpers.get? (π k) = some user → False := by
    intro k user hk hhelper
    have hle := ((helper_iff h.indexed' h.free').mp hhelper).1
    exact Nat.not_lt.mpr hle ((h.toMatches.lt_iff k).mpr hk)
  rcases hij with ⟨hi, rfl⟩ | ⟨user, hi, hj⟩ <;> rcases hij' with ⟨hi', heq⟩ | ⟨user', hi', hj'⟩
  · exact (π.injective heq).symm
  · exact (hhelper hi hj').elim
  · subst heq
    exact (hhelper hi' hj).elim
  · rw [hj, Option.some.injEq] at hj'
    obtain rfl := π.injective hj'
    exact eq_of_helper h.indexed h.free hi hi'

theorem lt_of_matchWithHelpers {i j : Nat} (hij : MatchWithHelpers π strength m n i j) :
    i < (m.pinWithHelpers strength).symbols.size := by
  have hhelped := helped_pinWithHelpers h.indexed strength
  rcases hij with ⟨hi, _⟩ | ⟨user, hi, _⟩
  · exact hi.trans_le hhelped.grows.size_le
  · exact (hhelped.indexed.isOver.helpers i user hi).1

theorem pairs : Pairs (MatchWithHelpers π strength m n) (m.pinWithHelpers strength).symbols.size
    (n.pinWithHelpers strength).symbols.size where
  lt _ _ hij := ⟨h.lt_of_matchWithHelpers strength hij,
    h.symm.lt_of_matchWithHelpers strength (h.matchWithHelpers_symm strength hij)⟩
  left _ hi := h.exists_matchWithHelpers strength hi
  right j hj := by
    obtain ⟨i, hi⟩ := h.symm.exists_matchWithHelpers strength hj
    exact ⟨i, h.symm.matchWithHelpers_symm strength hi⟩
  inj _ _ _ := h.eq_of_matchWithHelpers strength
  unique _ _ _ hij hij' := h.symm.eq_of_matchWithHelpers strength
    (h.matchWithHelpers_symm strength hij) (h.matchWithHelpers_symm strength hij')

section Permuted

variable {ρ : Equiv.Perm Nat} {strength : ℚ}
  (hlt : ∀ i, ρ i < (n.pinWithHelpers strength).symbols.size ↔
    i < (m.pinWithHelpers strength).symbols.size)
  (hρ : ∀ i < (m.pinWithHelpers strength).symbols.size, MatchWithHelpers π strength m n i (ρ i))

include hlt hρ

omit hlt in
theorem perm_eq {i : Nat} (hi : i < m.symbols.size) : ρ i = π i := by
  have hpair := hρ i (hi.trans_le (helped_pinWithHelpers h.indexed strength).grows.size_le)
  exact ((h.pairs strength).unique i (π i) (ρ i) (.inl ⟨hi, rfl⟩) hpair).symm

omit hlt in
theorem perm_user {i user : Nat}
    (hi : (m.pinWithHelpers strength).problem.pinHelpers.get? i = some user) : ρ user = π user := by
  obtain ⟨pin, hpin, _⟩ := pinned_of_helper h.indexed h.free hi
  exact h.perm_eq hρ (h.indexed.isOver.pinned _ _ hpin)

/-- Helpers are taken to helpers, and their users to users. -/
theorem pinHelpers_comp (i : Nat) : (n.pinWithHelpers strength).problem.pinHelpers.get? (ρ i) =
    ((m.pinWithHelpers strength).problem.pinHelpers.get? i).map ρ := by
  apply Option.ext
  intro v
  rw [Option.map_eq_some_iff]
  constructor
  · intro hv
    have hhelped' := helped_pinWithHelpers h.indexed' strength
    rcases hρ i ((hlt i).mp (hhelped'.indexed.isOver.helpers _ _ hv).1) with
      ⟨hi, heq⟩ | ⟨user, huser, hj⟩
    · have hle := ((helper_iff h.indexed' h.free').mp hv).1
      rw [← heq] at hle
      exact absurd ((h.toMatches.lt_iff i).mpr hi) (Nat.not_lt.mpr hle)
    · rw [hv, Option.some.injEq] at hj
      exact ⟨user, huser, by rw [h.perm_user hρ huser, hj]⟩
  · rintro ⟨user, huser, rfl⟩
    obtain ⟨pin, hpin, _⟩ := pinned_of_helper h.indexed h.free huser
    obtain ⟨j, hj⟩ := exists_helper h.indexed' h.free' strength
      ((h.toMatches.pinned user).trans hpin)
    have hi := ((helped_pinWithHelpers h.indexed strength).indexed.isOver.helpers _ _ huser).1
    rw [← (h.pairs strength).unique i j (ρ i) (.inr ⟨user, huser, hj⟩) (hρ i hi),
      h.perm_user hρ huser, hj]

/-- The pins match. -/
theorem pinned_comp (i : Nat) : (n.pinWithHelpers strength).problem.pinned.get? (ρ i) =
    (m.pinWithHelpers strength).problem.pinned.get? i := by
  by_cases hi : i < m.symbols.size
  · rw [get?_pinned_pinWithHelpers h.indexed.isOver, get?_pinned_pinWithHelpers h.indexed'.isOver,
      h.perm_eq hρ hi, if_pos hi, if_pos ((h.toMatches.lt_iff i).mpr hi), h.toMatches.pinned]
  · by_cases hhelper : i < (m.pinWithHelpers strength).symbols.size
    · obtain ⟨user, huser⟩ := (helpersFrom_pinWithHelpers h.indexed h.free strength).user i
        (Nat.not_lt.mp hi) hhelper
      have huser' := h.pinHelpers_comp hlt hρ i
      rw [huser, Option.map_some] at huser'
      obtain ⟨pin, hpin, hspin⟩ := pinned_of_helper h.indexed h.free huser
      obtain ⟨pin', hpin', hspin'⟩ := pinned_of_helper h.indexed' h.free' huser'
      rw [h.perm_user hρ huser, h.toMatches.pinned, hpin] at hpin'
      rw [hspin, hspin', hpin']
    · have hnone : ∀ {p : Problem ℚ} {size k : Nat}, p.Over (· < size) → ¬ k < size →
          p.pinned.get? k = none := fun hp hk =>
        Option.eq_none_iff_forall_ne_some.mpr fun pin hpin => hk (hp.pinned _ pin hpin)
      rw [hnone (helped_pinWithHelpers h.indexed strength).indexed.isOver hhelper,
        hnone (helped_pinWithHelpers h.indexed' strength).indexed.isOver ((hlt i).not.mpr hhelper)]

/-- What the helpers add to an energy does not depend on their order. -/
theorem helperEnergy_comp (s : Assignment) :
    helperEnergy strength (s ∘ ρ) m.problem.userPins m.symbols.size =
      helperEnergy strength s n.problem.userPins n.symbols.size := by
  let move (e : (Nat × Spin) × Nat) : (Nat × Spin) × Nat := ((ρ e.1.1, e.1.2), ρ e.2)
  have hnodup : ∀ (pins : List (Nat × Spin)) (first : Nat), (pins.zipIdx first).Nodup := by
    intro pins first
    refine List.Nodup.of_map Prod.snd ?_
    rw [List.zipIdx_map_snd]
    exact List.nodup_range'
  have hmove : move.Injective := by
    rintro ⟨⟨u, x⟩, i⟩ ⟨⟨u', x'⟩, i'⟩ heq
    simp only [move, Prod.mk.injEq, ρ.injective.eq_iff] at heq
    obtain ⟨⟨rfl, rfl⟩, rfl⟩ := heq
    rfl
  have hperm : ((m.problem.userPins.zipIdx m.symbols.size).map move).Perm
      (n.problem.userPins.zipIdx n.symbols.size) := by
    rw [List.perm_ext_iff_of_nodup ((hnodup _ _).map hmove) (hnodup _ _)]
    rintro ⟨⟨v, x⟩, j⟩
    obtain ⟨i, rfl⟩ := ρ.surjective j
    rw [mem_zipIdx_userPins_iff h.indexed' h.free', h.pinned_comp hlt hρ, h.pinHelpers_comp hlt hρ,
      List.mem_map, Option.map_eq_some_iff]
    constructor
    · rintro ⟨⟨⟨u, y⟩, k⟩, hmem, heq⟩
      simp only [move, Prod.mk.injEq, ρ.injective.eq_iff] at heq
      obtain ⟨⟨rfl, rfl⟩, rfl⟩ := heq
      obtain ⟨hhelper, hpin⟩ := (mem_zipIdx_userPins_iff h.indexed h.free).mp hmem
      exact ⟨⟨u, hhelper, rfl⟩, hpin⟩
    · rintro ⟨⟨u, hhelper, rfl⟩, hpin⟩
      exact ⟨((u, x), i), (mem_zipIdx_userPins_iff h.indexed h.free).mpr ⟨hhelper, hpin⟩, rfl⟩
  unfold helperEnergy
  rw [← (hperm.map _).sum_eq, List.map_map]
  rfl

/-- With helpers the energies match. -/
theorem energy_comp {s : Assignment}
    (hs : s.Covers (n.pinWithHelpers strength).symbols.size) :
    (n.pinWithHelpers strength).problem.energy s =
      (m.pinWithHelpers strength).problem.energy (s ∘ ρ) := by
  have hgrows := (helped_pinWithHelpers h.indexed strength).grows
  have hgrows' := (helped_pinWithHelpers h.indexed' strength).grows
  have hcovers : s.Covers n.symbols.size := fun i hi => hs i (hi.trans_le hgrows'.size_le)
  have husers : ∀ e ∈ m.problem.userPins, ∃ spin, (s ∘ ρ) e.1 = some spin := by
    intro e he
    have hi := h.indexed.isOver.pinned _ _ (pinned_of_mem_userPins he)
    exact hs _ ((hlt _).mpr (hi.trans_le hgrows.size_le))
  have husers' : ∀ e ∈ n.problem.userPins, ∃ spin, s e.1 = some spin := fun e he =>
    hcovers _ (h.indexed'.isOver.pinned _ _ (pinned_of_mem_userPins he))
  have hsame : ∀ i < m.symbols.size, (s ∘ ρ) i = (s ∘ π) i := fun i hi =>
    congrArg s (h.perm_eq hρ hi)
  unfold pinWithHelpers
  rw [energy_foldl_addHelper h.toMatches.mode husers,
    energy_foldl_addHelper h.toMatches.mode' husers', h.helperEnergy_comp hlt hρ s,
    h.toMatches.energy s hcovers, h.indexed.isOver.energy_congr hsame]

omit hlt in
/-- Helpers are in no chains, so the chains match. -/
theorem meetsChains_comp (s : Assignment) :
    (n.pinWithHelpers strength).problem.MeetsChains s ↔
      (m.pinWithHelpers strength).problem.MeetsChains (s ∘ ρ) := by
  have hsame : ∀ i < m.symbols.size, (s ∘ ρ) i = (s ∘ π) i := fun i hi =>
    congrArg s (h.perm_eq hρ hi)
  have hmeets := h.toMatches.meetsChains_iff s
  rw [← h.indexed.isOver.meetsChains_congr hsame] at hmeets
  unfold Problem.MeetsChains at hmeets ⊢
  rwa [(helped_pinWithHelpers h.indexed strength).chains,
    (helped_pinWithHelpers h.indexed' strength).chains]

end Permuted

/-- With helpers the models match as well, by a permutation that takes helpers to helpers. -/
theorem exists_matches : ∃ ρ, Matches ρ (m.pinWithHelpers strength) (n.pinWithHelpers strength) ∧
    ∀ i < m.symbols.size, ρ i = π i := by
  have hhelped := helped_pinWithHelpers h.indexed strength
  have hhelped' := helped_pinWithHelpers h.indexed' strength
  obtain ⟨hsize, ρ, hlt, hρ⟩ := (h.pairs strength).exists_perm
  exact ⟨ρ, ⟨hhelped.indexed.isOver, hhelped'.indexed.isOver, hhelped.mode.trans h.toMatches.mode,
    hhelped'.mode.trans h.toMatches.mode', hsize, hlt, fun s hs => h.energy_comp hlt hρ hs,
    h.meetsChains_comp hρ, h.pinned_comp hlt hρ, h.pinHelpers_comp hlt hρ⟩,
    fun i hi => h.perm_eq hρ hi⟩

end MatchesWithoutHelpers

end Model

end SpinGlass

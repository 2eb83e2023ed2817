import SpinGlass.Problem.Energy
import SpinGlass.Proofs.Problem.Objective

/-!
# Indices of problems and assignments

Which indices a problem mentions, and which ones an assignment gives a spin. Every operation on
problems keeps to the indices that it is given.
-/

namespace SpinGlass

/-- The value of a spin in a mode; no spin counts as zero. -/
def Coefficient.ofSpin? {K : Type} [Coefficient K] (mode : Mode) : Option Spin → K
  | some spin => ofSpinIn mode spin
  | none => 0

namespace Assignment

/-- Every index below `n` has a spin. -/
def Covers (s : Assignment) (n : Nat) : Prop := ∀ i < n, ∃ spin, s i = some spin

/-- Exactly the indices below `n` have a spin. -/
def IsOver (s : Assignment) (n : Nat) : Prop := ∀ i, (∃ spin, s i = some spin) ↔ i < n

theorem IsOver.covers {s : Assignment} {n : Nat} (h : s.IsOver n) : s.Covers n :=
  fun i hi => (h i).mpr hi

/-- An assignment over `n` indices gives no spin to others. -/
theorem IsOver.eq_none {s : Assignment} {n i : Nat} (h : s.IsOver n) (hi : n ≤ i) : s i = none := by
  cases hs : s i with
  | none => rfl
  | some spin => exact absurd ((h i).mp ⟨spin, hs⟩) (by omega)

end Assignment

/-- A pair in order with ends that are both live. -/
def Pair.Joins (live : Nat → Prop) (q : Pair) : Prop := q.lo < q.hi ∧ live q.lo ∧ live q.hi

namespace Pair

theorem joins_of {live : Nat → Prop} {a b : Nat} (hne : a ≠ b) (ha : live a) (hb : live b) :
    (of a b).Joins live := by
  refine ⟨of_lo_lt_hi hne, ?_, ?_⟩ <;> unfold of <;> split <;> assumption

/-- A pair of two indices joins them if they differ. -/
theorem joins_of_iff {live : Nat → Prop} {a b : Nat} :
    (of a b).Joins live ↔ a ≠ b ∧ live a ∧ live b := by
  refine ⟨fun ⟨hlt, hlo, hhi⟩ => ?_, fun ⟨hne, ha, hb⟩ => joins_of hne ha hb⟩
  unfold of at hlt hlo hhi
  split at hlt
  · next hab =>
    rw [if_pos hab] at hlo hhi
    exact ⟨hab.ne, hlo, hhi⟩
  · next hab =>
    rw [if_neg hab] at hlo hhi
    exact ⟨hlt.ne', hhi, hlo⟩

/-- The ends of a pair have one spin if the two indices have. -/
theorem eq_ends_of (s : Assignment) (a b : Nat) : s (of a b).lo = s (of a b).hi ↔ s a = s b := by
  unfold of
  split
  · rfl
  · exact eq_comm

theorem Joins.other {live : Nat → Prop} {q : Pair} (h : q.Joins live) (i : Nat) :
    live (q.other i) := by
  unfold Pair.other
  split
  · exact h.2.2
  · exact h.2.1

end Pair

namespace Problem

variable {K : Type}

/-- Every index of a problem is live, and every pair is in order. -/
structure Over (p : Problem K) (live : Nat → Prop) : Prop where
  weights : ∀ i w, p.weights.get? i = some w → live i
  strengths : ∀ q j, p.strengths.get? q = some j → q.Joins live
  chains : ∀ q, p.chains.contains q = true → q.Joins live
  pinned : ∀ i s, p.pinned.get? i = some s → live i
  helpers : ∀ helper user, p.pinHelpers.get? helper = some user → live helper ∧ live user

/-- A problem over some indices is over any indices that include them. -/
theorem Over.mono {p : Problem K} {live live' : Nat → Prop} (h : p.Over live)
    (hlive : ∀ i, live i → live' i) : p.Over live' where
  weights i w hi := hlive i (h.weights i w hi)
  strengths q j hq := (h.strengths q j hq).imp_right fun hq => hq.imp (hlive _) (hlive _)
  chains q hq := (h.chains q hq).imp_right fun hq => hq.imp (hlive _) (hlive _)
  pinned i s hi := hlive i (h.pinned i s hi)
  helpers a b hab := (h.helpers a b hab).imp (hlive a) (hlive b)

theorem Over.weights_eq_none {p : Problem K} {live : Nat → Prop} (h : p.Over live) {i : Nat}
    (hi : ¬ live i) : p.weights.get? i = none :=
  Option.eq_none_iff_forall_ne_some.mpr fun w hw => hi (h.weights i w hw)

/-- What is not live is coupled to nothing. -/
theorem Over.strengths_eq_none {p : Problem K} {live : Nat → Prop} (h : p.Over live) {a b : Nat}
    (hab : ¬ (live a ∧ live b)) : p.strengths.get? (.of a b) = none :=
  Option.eq_none_iff_forall_ne_some.mpr fun j hj =>
    hab (Pair.joins_of_iff.mp (h.strengths _ j hj)).2

/-- An assignment gives a spin to every variable in a term. -/
structure CoversTerms (p : Problem K) (s : Assignment) : Prop where
  weights : ∀ i w, p.weights.get? i = some w → ∃ spin, s i = some spin
  strengths : ∀ q j, p.strengths.get? q = some j →
    (∃ spin, s q.lo = some spin) ∧ ∃ spin, s q.hi = some spin

/-- An assignment of all live variables covers the terms over them. -/
theorem Over.coversTerms {p : Problem K} {live : Nat → Prop} (h : p.Over live) {s : Assignment}
    (hs : ∀ i, live i → ∃ spin, s i = some spin) : p.CoversTerms s where
  weights i w hi := hs i (h.weights i w hi)
  strengths q j hq := (h.strengths q j hq).2.imp (hs q.lo) (hs q.hi)

/-- A chain mentions its ends. -/
theorem Over.insertChain {p : Problem K} {live : Nat → Prop} (h : p.Over live) {a b : Nat}
    (hne : a ≠ b) (ha : live a) (hb : live b) :
    { p with chains := KeySet.insert p.chains (.of a b) }.Over live := by
  refine ⟨h.weights, h.strengths, fun q hq => ?_, h.pinned, h.helpers⟩
  rcases KeySet.contains_insert_iff.mp hq with rfl | hq
  · exact Pair.joins_of hne ha hb
  · exact h.chains q hq

/-- A pin mentions its variable. -/
theorem Over.insertPin {p : Problem K} {live : Nat → Prop} (h : p.Over live) {i : Nat}
    (hi : live i) (spin : Spin) : { p with pinned := p.pinned.insert i spin }.Over live := by
  refine ⟨h.weights, h.strengths, h.chains, fun k pin hk => ?_, h.helpers⟩
  rw [Table.get?_insert] at hk
  split at hk
  · next heq => exact heq ▸ hi
  · exact h.pinned k pin hk

/-- The active indices are those of weights, quadratic terms, chains and pins. -/
theorem mem_activeIndices_iff {p : Problem K} {i : Nat} : i ∈ p.activeIndices ↔
    (∃ w, p.weights.get? i = some w) ∨
      (∃ q, ((∃ j, p.strengths.get? q = some j) ∨ p.chains.contains q = true) ∧
        (i = q.lo ∨ i = q.hi)) ∨
      ∃ spin, p.pinned.get? i = some spin := by
  simp only [activeIndices, KeySet.mem_toList_iff, KeySet.contains_ofList_iff, List.mem_append,
    List.mem_flatMap, Table.mem_keys_iff, List.mem_cons, List.not_mem_nil, or_false, or_assoc]

/-- An active index is mentioned. -/
theorem Over.mem_activeIndices {p : Problem K} {live : Nat → Prop} (h : p.Over live) {i : Nat}
    (hi : i ∈ p.activeIndices) : live i := by
  rcases mem_activeIndices_iff.mp hi with ⟨w, hw⟩ | ⟨q, hq, hi⟩ | ⟨s, hs⟩
  · exact h.weights i w hw
  · have hjoins : q.Joins live := by
      rcases hq with ⟨j, hj⟩ | hq
      · exact h.strengths q j hj
      · exact h.chains q hq
    rcases hi with rfl | rfl
    · exact hjoins.2.1
    · exact hjoins.2.2
  · exact h.pinned i s hs

/-- The constraints that a pin puts on an assignment. -/
def MeetsPins (p : Problem K) (s : Assignment) : Prop :=
  ∀ i spin, p.pinned.get? i = some spin → s i = some spin

/-- The pins of a problem are met by themselves. -/
theorem meetsPins_pinned (p : Problem K) : p.MeetsPins p.pinned.get? := fun _ _ hi => hi

/-- The constraints that a chain puts on an assignment. -/
def MeetsChains (p : Problem K) (s : Assignment) : Prop :=
  ∀ q, p.chains.contains q = true → s q.lo = s q.hi

/-- Pins can be met. -/
theorem exists_meetsPins {p : Problem K} {n : Nat} (hp : p.Over (· < n)) :
    ∃ t : Assignment, t.IsOver n ∧ p.MeetsPins t := by
  refine ⟨fun i => if i < n then some ((p.pinned.get? i).getD .up) else none, fun i => ?_,
    fun i spin hi => ?_⟩
  · by_cases hi : i < n <;> simp [hi]
  · simp only [if_pos (hp.pinned i spin hi), hi, Option.getD_some]

/-- A new pin asks its spin of its variable. -/
theorem meetsPins_insertPin {p : Problem K} {i : Nat} (hfree : p.pinned.get? i = none) (spin : Spin)
    (s : Assignment) :
    { p with pinned := p.pinned.insert i spin }.MeetsPins s ↔ p.MeetsPins s ∧ s i = some spin := by
  constructor
  · intro hmeets
    refine ⟨fun k pin hk => hmeets k pin ?_, hmeets i spin (by simp [Table.get?_insert])⟩
    have hne : k ≠ i := by
      rintro rfl
      rw [hfree] at hk
      cases hk
    simp [Table.get?_insert, hne, hk]
  · rintro ⟨hmeets, heq⟩ k pin hk
    simp only [Table.get?_insert] at hk
    split at hk
    · next hki =>
      cases hk
      rw [hki, heq]
    · exact hmeets k pin hk

/-- A new chain asks one spin of its ends. -/
theorem meetsChains_insertChain (p : Problem K) (a b : Nat) (s : Assignment) :
    { p with chains := KeySet.insert p.chains (.of a b) }.MeetsChains s ↔
      p.MeetsChains s ∧ s a = s b := by
  rw [← Pair.eq_ends_of s a b]
  constructor
  · intro hmeets
    exact ⟨fun q hq => hmeets q (KeySet.contains_insert_iff.mpr (.inr hq)),
      hmeets _ (KeySet.contains_insert_iff.mpr (.inl rfl))⟩
  · rintro ⟨hmeets, heq⟩ q hq
    rcases KeySet.contains_insert_iff.mp hq with rfl | hq
    · exact heq
    · exact hmeets q hq

/-- Two problems differ in their terms only. -/
structure SameConstraints {K : Type} (p p' : Problem K) : Prop where
  mode : p'.mode = p.mode
  chains : p'.chains = p.chains
  pinned : p'.pinned = p.pinned
  pinHelpers : p'.pinHelpers = p.pinHelpers
  assertions : p'.assertions = p.assertions
  knownValues : p'.knownValues = p.knownValues

section

variable {K : Type}

theorem SameConstraints.refl (p : Problem K) : p.SameConstraints p := ⟨rfl, rfl, rfl, rfl, rfl, rfl⟩

theorem SameConstraints.trans {p q r : Problem K} (h : p.SameConstraints q)
    (h' : q.SameConstraints r) : p.SameConstraints r :=
  ⟨h'.mode.trans h.mode, h'.chains.trans h.chains, h'.pinned.trans h.pinned,
    h'.pinHelpers.trans h.pinHelpers, h'.assertions.trans h.assertions,
    h'.knownValues.trans h.knownValues⟩

theorem sameConstraints_addStrength [Coefficient K] (p : Problem K) (a b : Nat) (j : K) :
    p.SameConstraints (p.addStrength a b j) := by
  unfold addStrength
  split
  · split <;> exact ⟨rfl, rfl, rfl, rfl, rfl, rfl⟩
  · exact ⟨rfl, rfl, rfl, rfl, rfl, rfl⟩

end

section Operations

variable {live : Nat → Prop}

theorem Over.eraseStrength {p : Problem K} (h : p.Over live) (q : Pair) :
    { p with strengths := p.strengths.erase q }.Over live := by
  refine ⟨h.weights, fun q' j hq => ?_, h.chains, h.pinned, h.helpers⟩
  rw [Table.get?_erase] at hq
  split at hq
  · cases hq
  · exact h.strengths q' j hq

theorem Over.eraseWeight {p : Problem K} (h : p.Over live) (i : Nat) :
    { p with weights := p.weights.erase i }.Over live := by
  refine ⟨fun k w hk => ?_, h.strengths, h.chains, h.pinned, h.helpers⟩
  rw [Table.get?_erase] at hk
  split at hk
  · cases hk
  · exact h.weights k w hk

variable [Coefficient K]

theorem Over.addWeight {p : Problem K} (h : p.Over live) {i : Nat} (hi : live i) (w : K) :
    (p.addWeight i w).Over live where
  weights k v hk := by
    simp only [Problem.addWeight, Table.get?_alter] at hk
    split at hk
    · next heq => exact heq ▸ hi
    · exact h.weights k v hk
  strengths := h.strengths
  chains := h.chains
  pinned := h.pinned
  helpers := h.helpers

theorem Over.addStrength {p : Problem K} (h : p.Over live) {a b : Nat} (ha : live a) (hb : live b)
    (j : K) : (p.addStrength a b j).Over live := by
  unfold Problem.addStrength
  split
  · cases p.mode with
    | qubo => exact h.addWeight ha j
    | ising => exact ⟨h.weights, h.strengths, h.chains, h.pinned, h.helpers⟩
  · next hne =>
    refine ⟨h.weights, fun q v hq => ?_, h.chains, h.pinned, h.helpers⟩
    rw [Table.get?_alter] at hq
    split at hq
    · next heq => exact heq ▸ Pair.joins_of hne ha hb
    · exact h.strengths q v hq

theorem Over.addOffset {p : Problem K} (h : p.Over live) (c : K) : (p.addOffset c).Over live :=
  ⟨h.weights, h.strengths, h.chains, h.pinned, h.helpers⟩

theorem over_empty (mode : Mode) : (Problem.empty mode : Problem K).Over live := by
  constructor <;> intros <;> simp_all [Problem.empty, Table.contains_iff]

/-- Nothing new is mentioned when zero terms are dropped. -/
theorem Over.pruneZeros {p : Problem K} (h : p.Over live) : p.pruneZeros.Over live where
  weights i w hi := by
    simp only [Problem.pruneZeros, Table.nonzero, Table.get?_filter,
      Option.filter_eq_some_iff] at hi
    exact h.weights i w hi.1
  strengths q j hq := by
    simp only [Problem.pruneZeros, Table.nonzero, Table.get?_filter,
      Option.filter_eq_some_iff] at hq
    exact h.strengths q j hq.1
  chains := h.chains
  pinned := h.pinned
  helpers := h.helpers

end Operations

section Values

variable [Coefficient K] (mode : Mode) {s t : Assignment} {i k : Nat}

/-- The value of a variable is that of its spin. -/
theorem value_eq_ofSpin? : (value mode s i : K) = Coefficient.ofSpin? mode (s i) := by
  unfold value Coefficient.ofSpin?
  cases s i <;> rfl

/-- Variables with one spin have one value. -/
theorem value_congr (h : s i = t k) : (value mode s i : K) = value mode t k := by
  simp [value, h]

theorem value_of_eq_some {spin : Spin} (h : s i = some spin) :
    (value mode s i : K) = Coefficient.ofSpinIn mode spin := by
  simp [value, h]

end Values

/-- A variable with a spin has a value of the mode. -/
theorem isValue_value (mode : Mode) {s : Assignment} {i : Nat} (h : ∃ spin, s i = some spin) :
    mode.IsValue (value mode s i) := by
  obtain ⟨spin, hspin⟩ := h
  rw [value_of_eq_some mode hspin]
  exact mode.isValue_ofSpinIn spin

/-- Only the spins of live variables matter to the energy. -/
theorem Over.energy_congr {p : Problem ℚ} {live : Nat → Prop} (h : p.Over live) {s t : Assignment}
    (hsame : ∀ i, live i → s i = t i) : p.energy s = p.energy t := by
  rw [energy_eq_objective, energy_eq_objective]
  have hvalue : ∀ i, live i → (value p.mode s i : ℚ) = value p.mode t i :=
    fun i hi => value_congr _ (hsame i hi)
  refine objective_congr (fun i w hi => hvalue i (h.weights i w hi)) fun q j hq => ?_
  obtain ⟨_, hlo, hhi⟩ := h.strengths q j hq
  exact ⟨hvalue _ hlo, hvalue _ hhi⟩

/-- A linear term adds its value to the energy. -/
theorem energy_addWeight (p : Problem ℚ) (i : Nat) (w : ℚ) (s : Assignment) :
    (p.addWeight i w).energy s = p.energy s + w * value p.mode s i := by
  rw [energy_eq_objective, energy_eq_objective, objective_addWeight]
  rfl

/-- A constant adds itself to the energy. -/
theorem energy_addOffset (p : Problem ℚ) (c : ℚ) (s : Assignment) :
    (p.addOffset c).energy s = p.energy s + c := by
  rw [energy_eq_objective, energy_eq_objective, objective_addOffset]
  rfl

/-- A quadratic term adds its value to the energy, also where it collapses. -/
theorem energy_addStrength (p : Problem ℚ) (a b : Nat) (j : ℚ) {s : Assignment}
    (ha : ∃ spin, s a = some spin) :
    (p.addStrength a b j).energy s = p.energy s + j * value p.mode s a * value p.mode s b := by
  rw [energy_eq_objective, energy_eq_objective, (sameConstraints_addStrength p a b j).mode,
    objective_addStrength _ _ _ _ _ fun _ => isValue_value _ ha]

/-- Zero terms do not count. -/
theorem energy_pruneZeros (p : Problem ℚ) (s : Assignment) :
    p.pruneZeros.energy s = p.energy s := by
  rw [energy_eq_objective, energy_eq_objective, objective_pruneZeros]
  rfl

end Problem

end SpinGlass

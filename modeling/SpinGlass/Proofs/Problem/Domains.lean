import SpinGlass.Proofs.Problem.Indices

/-!
# Bits as spins

A problem over bits and the problem over spins that is made from it have one energy, because the
terms of each coefficient add up to the coefficient times the bits. Chains, pins and names stay.
-/

namespace SpinGlass.Problem

section Constraints

variable {K : Type} [Coefficient K] {live : Nat → Prop}

theorem Over.addBitWeight {p : Problem K} (h : p.Over live) {i : Nat} (hi : live i) (a : K) :
    (p.addBitWeight i a).Over live :=
  (h.addWeight hi _).addOffset _

theorem Over.addBitStrength {p : Problem K} (h : p.Over live) {q : Pair} (hq : q.Joins live)
    (b : K) :
    (p.addBitStrength q b).Over live :=
  (((h.addStrength hq.2.1 hq.2.2 _).addWeight hq.2.1 _).addWeight hq.2.2 _).addOffset _

theorem sameConstraints_addBitStrength (p : Problem K) (q : Pair) (b : K) :
    p.SameConstraints (p.addBitStrength q b) :=
  (sameConstraints_addStrength p q.lo q.hi _).trans ⟨rfl, rfl, rfl, rfl, rfl, rfl⟩

omit [Coefficient K] in
/-- Going over all terms of a problem keeps what every step keeps. -/
theorem foldl_terms {p start : Problem K} {motive : Problem K → Prop}
    {weight : Problem K → Nat × K → Problem K} {strength : Problem K → Pair × K → Problem K}
    (hstart : motive start)
    (hweight : ∀ out e, p.weights.get? e.1 = some e.2 → motive out → motive (weight out e))
    (hstrength : ∀ out e, p.strengths.get? e.1 = some e.2 → motive out → motive (strength out e)) :
    motive (p.strengths.entries.foldl strength (p.weights.entries.foldl weight start)) := by
  refine List.foldlRecOn _ strength (List.foldlRecOn _ weight hstart ?_) ?_
  · exact fun out hout e he => hweight out e (Table.get?_eq_some_iff.mpr he) hout
  · exact fun out hout e he => hstrength out e (Table.get?_eq_some_iff.mpr he) hout

omit [Coefficient K] in
theorem Over.withoutTerms {p : Problem K} (h : p.Over live) (mode : Mode) :
    (p.withoutTerms mode).Over live :=
  ⟨fun i w hi => by simp [Problem.withoutTerms] at hi,
    fun q j hq => by simp [Problem.withoutTerms] at hq, h.chains, h.pinned, h.helpers⟩

/-- A problem over spins stays as it is. -/
theorem toIsing_eq_self {p : Problem K} (h : p.mode = .ising) : p.toIsing = p := by
  unfold toIsing
  rw [h]

/-- The problem over spins asks for the same. -/
theorem sameConstraints_toIsing (p : Problem K) :
    (p.withoutTerms .ising).SameConstraints p.toIsing := by
  unfold toIsing
  split
  · next hmode => exact ⟨hmode, rfl, rfl, rfl, rfl, rfl⟩
  · refine foldl_terms (motive := (p.withoutTerms .ising).SameConstraints) (.refl _) ?_ ?_
    · exact fun out e _ hsame => hsame.trans ⟨rfl, rfl, rfl, rfl, rfl, rfl⟩
    · exact fun out e _ hsame => hsame.trans (sameConstraints_addBitStrength out e.1 e.2)

/-- The problem over spins mentions the same indices, and asks for the same. -/
theorem toIsing_spec {p : Problem K} (h : p.Over live) :
    p.toIsing.Over live ∧ (p.withoutTerms .ising).SameConstraints p.toIsing := by
  refine ⟨?_, sameConstraints_toIsing p⟩
  unfold toIsing
  split
  · exact h
  · refine foldl_terms (motive := fun out => out.Over live) (h.withoutTerms .ising) ?_ ?_
    · exact fun out e he hout => hout.addBitWeight (h.weights e.1 e.2 he) e.2
    · exact fun out e he hout => hout.addBitStrength (h.strengths e.1 e.2 he) e.2

end Constraints

section Energy

variable {live : Nat → Prop} {p : Problem ℚ} {s : Assignment}

/-- A spin is twice its bit less one. -/
theorem value_ising_eq {i : Nat} (hi : ∃ spin, s i = some spin) :
    (value .ising s i : ℚ) = 2 * value .qubo s i - 1 := by
  obtain ⟨spin, hspin⟩ := hi
  rw [value_of_eq_some _ hspin, value_of_eq_some _ hspin]
  cases spin
  · simp [Coefficient.ofSpinIn, Coefficient.ofSpin]
  · norm_num [Coefficient.ofSpinIn, Coefficient.ofSpin]

theorem energy_addBitWeight (hmode : p.mode = .ising) {i : Nat} (hi : ∃ spin, s i = some spin)
    (a : ℚ) : (p.addBitWeight i a).energy s = p.energy s + a * value .qubo s i := by
  unfold addBitWeight
  rw [energy_addOffset, energy_addWeight, hmode, value_ising_eq hi, Coefficient.ofNat_eq]
  push_cast
  ring

theorem energy_addBitStrength (hmode : p.mode = .ising) {q : Pair}
    (hlo : ∃ spin, s q.lo = some spin) (hhi : ∃ spin, s q.hi = some spin) (b : ℚ) :
    (p.addBitStrength q b).energy s =
      p.energy s + b * value .qubo s q.lo * value .qubo s q.hi := by
  unfold addBitStrength
  rw [energy_addOffset, energy_addWeight, energy_addWeight, energy_addStrength _ _ _ _ hlo]
  simp only [addWeight, (sameConstraints_addStrength p q.lo q.hi _).mode, hmode]
  rw [value_ising_eq hlo, value_ising_eq hhi, Coefficient.ofNat_eq]
  push_cast
  ring

/-- Steps that each add an amount add up to the total. -/
theorem foldl_measure {α : Type} (keeps : Problem ℚ → Prop) (measure : Problem ℚ → ℚ)
    (step : Problem ℚ → α → Problem ℚ) (amount : α → ℚ) (entries : List α) (hstart : keeps p)
    (hstep : ∀ e ∈ entries, ∀ q, keeps q →
      keeps (step q e) ∧ measure (step q e) = measure q + amount e) :
    keeps (entries.foldl step p) ∧
      measure (entries.foldl step p) = measure p + (entries.map amount).sum := by
  induction entries generalizing p with
  | nil => simp [hstart]
  | cons e rest ih =>
    have hfirst := hstep e List.mem_cons_self p hstart
    have hrest := ih hfirst.1 fun e he => hstep e (List.mem_cons_of_mem _ he)
    rw [List.foldl_cons, hrest.2, hfirst.2, List.map_cons, List.sum_cons, add_assoc]
    exact ⟨hrest.1, rfl⟩

/-- Going over all terms of a problem, by steps that each add an amount, adds both totals. -/
theorem foldl_terms_measure {start : Problem ℚ} (keeps : Problem ℚ → Prop)
    (measure : Problem ℚ → ℚ) {weight : Problem ℚ → Nat × ℚ → Problem ℚ}
    {strength : Problem ℚ → Pair × ℚ → Problem ℚ} {f : Nat → ℚ → ℚ} {g : Pair → ℚ → ℚ}
    (hstart : keeps start)
    (hweight : ∀ i w, p.weights.get? i = some w → ∀ q, keeps q →
      keeps (weight q (i, w)) ∧ measure (weight q (i, w)) = measure q + f i w)
    (hstrength : ∀ e j, p.strengths.get? e = some j → ∀ q, keeps q →
      keeps (strength q (e, j)) ∧ measure (strength q (e, j)) = measure q + g e j) :
    measure (p.strengths.entries.foldl strength (p.weights.entries.foldl weight start)) =
      measure start + p.weights.total f + p.strengths.total g := by
  have hweights := foldl_measure keeps measure weight (fun e => f e.1 e.2) p.weights.entries hstart
    fun e he => hweight e.1 e.2 (Table.get?_eq_some_iff.mpr he)
  have hstrengths := foldl_measure keeps measure strength (fun e => g e.1 e.2) p.strengths.entries
    hweights.1 fun e he => hstrength e.1 e.2 (Table.get?_eq_some_iff.mpr he)
  rw [hstrengths.2, hweights.2]
  rfl

/-- Without terms only the constant term is left. -/
theorem objective_withoutTerms (p : Problem ℚ) (mode : Mode) (x : Nat → ℚ) :
    (p.withoutTerms mode).objective x = p.offset := by
  simp [objective, withoutTerms]

/-- Going over all terms of a problem, by steps that each add the value of their term, builds a
problem with the energy of that one. -/
theorem energy_foldl_terms {mode : Mode} (h : p.CoversTerms s)
    {weight : Problem ℚ → Nat × ℚ → Problem ℚ} {strength : Problem ℚ → Pair × ℚ → Problem ℚ}
    (hweight : ∀ q : Problem ℚ, ∀ i w, q.mode = mode → (∃ spin, s i = some spin) →
      (weight q (i, w)).mode = mode ∧
      (weight q (i, w)).energy s = q.energy s + w * value p.mode s i)
    (hstrength : ∀ q : Problem ℚ, ∀ (e : Pair) j, q.mode = mode → (∃ spin, s e.lo = some spin) →
      (∃ spin, s e.hi = some spin) → (strength q (e, j)).mode = mode ∧
      (strength q (e, j)).energy s =
        q.energy s + j * value p.mode s e.lo * value p.mode s e.hi) :
    (p.strengths.entries.foldl strength
      (p.weights.entries.foldl weight (p.withoutTerms mode))).energy s = p.energy s := by
  rw [foldl_terms_measure (fun q => q.mode = mode) (fun q => q.energy s) rfl
    (fun i w hi q hq => hweight q i w hq (h.weights i w hi))
    fun e j he q hq => hstrength q e j hq (h.strengths e j he).1 (h.strengths e j he).2]
  rw [energy_eq_objective, energy_eq_objective, objective_withoutTerms]
  unfold objective
  ring

/-- The problem over spins has the energy of the problem over bits. -/
theorem CoversTerms.energy_toIsing (h : p.CoversTerms s) : p.toIsing.energy s = p.energy s := by
  unfold toIsing
  split
  · rfl
  · next hmode =>
    refine energy_foldl_terms h (fun q i w hq hi => ?_) fun q e j hq hlo hhi => ?_
    · rw [hmode]
      exact ⟨hq, energy_addBitWeight hq hi w⟩
    · rw [hmode]
      exact ⟨(sameConstraints_addBitStrength q e j).mode.trans hq,
        energy_addBitStrength hq hlo hhi j⟩

theorem energy_toIsing (h : p.Over live) (hs : ∀ i, live i → ∃ spin, s i = some spin) :
    p.toIsing.energy s = p.energy s :=
  (h.coversTerms hs).energy_toIsing

end Energy

section Terms

variable {live : Nat → Prop} {p : Problem ℚ}

/-- A quadratic term over bits changes the term over spins only if it is not zero. -/
theorem get?_addBitStrength {q r : Pair} (hq : q.lo < q.hi) {b j : ℚ} (hj : j ≠ 0)
    (hr : (p.addBitStrength q b).strengths.get? r = some j) :
    (∃ k, p.strengths.get? r = some k ∧ k ≠ 0) ∨ r = q ∧ b ≠ 0 := by
  have halter : (p.addBitStrength q b).strengths =
      p.strengths.alter q fun old => old.getD 0 + b / Coefficient.ofNat 4 := by
    simp [addBitStrength, addStrength, addWeight, addOffset, hq.ne, Pair.of_of_lt hq]
  rw [halter, Table.get?_alter] at hr
  split at hr
  · next heq =>
    subst heq
    by_cases hb : b = 0
    · left
      cases hold : p.strengths.get? r with
      | none => simp [hold, hb, eq_comm, hj] at hr
      | some k =>
        simp only [hold, hb, zero_div, Option.getD_some, add_zero, Option.some.injEq] at hr
        exact ⟨k, rfl, hr ▸ hj⟩
    · exact .inr ⟨rfl, hb⟩
  · exact .inl ⟨j, hr, hj⟩

/-- The quadratic terms over spins that are not zero come from terms that are not zero. -/
theorem get?_toIsing (h : p.Over live) {r : Pair} {j : ℚ} (hj : j ≠ 0)
    (hr : p.toIsing.strengths.get? r = some j) : ∃ b, p.strengths.get? r = some b ∧ b ≠ 0 := by
  unfold toIsing at hr
  split at hr
  · exact ⟨j, hr, hj⟩
  · have hweights := List.foldlRecOn p.weights.entries (fun out e => out.addBitWeight e.1 e.2)
      (motive := fun out : Problem ℚ => out.strengths = .empty)
      (rfl : (p.withoutTerms .ising).strengths = .empty) fun out hout e _ => hout
    refine List.foldlRecOn p.strengths.entries (fun out e => out.addBitStrength e.1 e.2)
      (motive := fun out : Problem ℚ => ∀ j, j ≠ 0 → out.strengths.get? r = some j →
        ∃ b, p.strengths.get? r = some b ∧ b ≠ 0) ?_ (fun out hout e he j hj hr => ?_) j hj hr
    · intro j _ hget
      rw [hweights] at hget
      cases hget
    · have hget := Table.get?_eq_some_iff.mpr he
      rcases get?_addBitStrength (h.strengths e.1 e.2 hget).1 hj hr with ⟨k, hk, hne⟩ | ⟨rfl, hb⟩
      · exact hout k hne hk
      · exact ⟨e.2, hget, hb⟩

end Terms

end SpinGlass.Problem

import SpinGlass.Proofs.Problem.Domains

/-!
# Spins as bits

The way back from spins to bits keeps the energy and the constraints too, and a coupling that is not
zero stays one that is not zero. So a problem can be written in either mode.
-/

namespace SpinGlass.Problem

section Constraints

variable {K : Type} [Coefficient K] {live : Nat → Prop} {p : Problem K}

theorem Over.addSpinWeight (h : p.Over live) {i : Nat} (hi : live i) (w : K) :
    (p.addSpinWeight i w).Over live := by
  have hadded := h.addWeight hi (Coefficient.ofNat 2 * w)
  exact ⟨hadded.weights, hadded.strengths, hadded.chains, hadded.pinned, hadded.helpers⟩

theorem Over.addSpinStrength (h : p.Over live) {q : Pair} (hq : q.Joins live) (j : K) :
    (p.addSpinStrength q j).Over live :=
  (((h.addStrength hq.2.1 hq.2.2 _).addWeight hq.2.1 _).addWeight hq.2.2 _).addOffset _

theorem sameConstraints_addSpinStrength (p : Problem K) (q : Pair) (j : K) :
    p.SameConstraints (p.addSpinStrength q j) :=
  (sameConstraints_addStrength p q.lo q.hi _).trans ⟨rfl, rfl, rfl, rfl, rfl, rfl⟩

/-- The problem over bits asks for the same. -/
theorem sameConstraints_toQubo (p : Problem K) :
    (p.withoutTerms .qubo).SameConstraints p.toQubo := by
  unfold toQubo
  split
  · next hmode => exact ⟨hmode, rfl, rfl, rfl, rfl, rfl⟩
  · refine foldl_terms (motive := (p.withoutTerms .qubo).SameConstraints) (.refl _) ?_ ?_
    · exact fun out e _ hsame => hsame.trans ⟨rfl, rfl, rfl, rfl, rfl, rfl⟩
    · exact fun out e _ hsame => hsame.trans (sameConstraints_addSpinStrength out e.1 e.2)

/-- The problem over bits mentions the same indices, and asks for the same. -/
theorem toQubo_spec (h : p.Over live) :
    p.toQubo.Over live ∧ (p.withoutTerms .qubo).SameConstraints p.toQubo := by
  refine ⟨?_, sameConstraints_toQubo p⟩
  unfold toQubo
  split
  · exact h
  · refine foldl_terms (motive := fun out => out.Over live) (h.withoutTerms .qubo) ?_ ?_
    · exact fun out e he hout => hout.addSpinWeight (h.weights e.1 e.2 he) e.2
    · exact fun out e he hout => hout.addSpinStrength (h.strengths e.1 e.2 he) e.2

/-- The problem in a mode asks for the same. -/
theorem sameConstraints_toMode (p : Problem K) (mode : Mode) :
    (p.withoutTerms mode).SameConstraints (p.toMode mode) := by
  cases mode
  · exact sameConstraints_toQubo p
  · exact sameConstraints_toIsing p

/-- The problem in a mode mentions the same indices, and asks for the same. -/
theorem toMode_spec (h : p.Over live) (mode : Mode) :
    (p.toMode mode).Over live ∧ (p.withoutTerms mode).SameConstraints (p.toMode mode) := by
  cases mode
  · exact toQubo_spec h
  · exact toIsing_spec h

end Constraints

section Energy

variable {live : Nat → Prop} {p : Problem ℚ} {s : Assignment}

theorem addSpinWeight_eq (p : Problem ℚ) (i : Nat) (w : ℚ) :
    p.addSpinWeight i w = (p.addWeight i (Coefficient.ofNat 2 * w)).addOffset (-w) := by
  simp [addSpinWeight, addOffset, addWeight, sub_eq_add_neg]

theorem energy_addSpinWeight (hmode : p.mode = .qubo) {i : Nat} (hi : ∃ spin, s i = some spin)
    (w : ℚ) : (p.addSpinWeight i w).energy s = p.energy s + w * value .ising s i := by
  rw [addSpinWeight_eq, energy_addOffset, energy_addWeight, hmode, value_ising_eq hi,
    Coefficient.ofNat_eq]
  push_cast
  ring

theorem energy_addSpinStrength (hmode : p.mode = .qubo) {q : Pair}
    (hlo : ∃ spin, s q.lo = some spin) (hhi : ∃ spin, s q.hi = some spin) (j : ℚ) :
    (p.addSpinStrength q j).energy s =
      p.energy s + j * value .ising s q.lo * value .ising s q.hi := by
  unfold addSpinStrength
  rw [energy_addOffset, energy_addWeight, energy_addWeight, energy_addStrength _ _ _ _ hlo]
  simp only [addWeight, (sameConstraints_addStrength p q.lo q.hi _).mode, hmode]
  rw [value_ising_eq hlo, value_ising_eq hhi, Coefficient.ofNat_eq, Coefficient.ofNat_eq]
  push_cast
  ring

/-- The problem over bits has the energy of the problem over spins. -/
theorem CoversTerms.energy_toQubo (h : p.CoversTerms s) : p.toQubo.energy s = p.energy s := by
  unfold toQubo
  split
  · rfl
  · next hmode =>
    refine energy_foldl_terms h (fun q i w hq hi => ?_) fun q e j hq hlo hhi => ?_
    · rw [hmode]
      exact ⟨hq, energy_addSpinWeight hq hi w⟩
    · rw [hmode]
      exact ⟨(sameConstraints_addSpinStrength q e j).mode.trans hq,
        energy_addSpinStrength hq hlo hhi j⟩

/-- The problem in a mode has the energy of the problem. -/
theorem CoversTerms.energy_toMode (h : p.CoversTerms s) (mode : Mode) :
    (p.toMode mode).energy s = p.energy s := by
  cases mode
  · exact h.energy_toQubo
  · exact h.energy_toIsing

theorem energy_toMode (h : p.Over live) (hs : ∀ i, live i → ∃ spin, s i = some spin)
    (mode : Mode) : (p.toMode mode).energy s = p.energy s :=
  (h.coversTerms hs).energy_toMode mode

end Energy

section Strengths

variable {p : Problem ℚ} {live : Nat → Prop}

/-- A quadratic term over spins is four times as large over bits. -/
theorem strengths_addSpinStrength (p : Problem ℚ) {q : Pair} (hq : q.lo < q.hi) (j : ℚ) :
    (p.addSpinStrength q j).strengths =
      p.strengths.alter q fun old => old.getD 0 + Coefficient.ofNat 4 * j := by
  simp [addSpinStrength, addStrength, addWeight, addOffset, hq.ne, Pair.of_of_lt hq]

/-- The terms of a list are added to those that are there, each under its own pair. -/
theorem get?_foldl_addSpinStrength {entries : List (Pair × ℚ)} {start : Problem ℚ} {q : Pair}
    {j : ℚ} (hnodup : (entries.map (·.1)).Nodup) (horder : ∀ e ∈ entries, e.1.lo < e.1.hi)
    (he : (q, j) ∈ entries) (hstart : start.strengths.get? q = none) :
    (entries.foldl (fun out e => out.addSpinStrength e.1 e.2) start).strengths.get? q =
      some (4 * j) := by
  -- what is stored under a pair stays as long as no term of the pair is added
  have hkept : ∀ rest : List (Pair × ℚ), (∀ e ∈ rest, e.1.lo < e.1.hi) → q ∉ rest.map (·.1) →
      ∀ out : Problem ℚ,
        (rest.foldl (fun out e => out.addSpinStrength e.1 e.2) out).strengths.get? q =
          out.strengths.get? q := by
    intro rest horder hq out
    refine List.foldlRecOn rest (fun out e => out.addSpinStrength e.1 e.2)
      (motive := fun next : Problem ℚ => next.strengths.get? q = out.strengths.get? q) rfl
      fun next hnext e he => ?_
    have hne : q ≠ e.1 := fun heq => hq (List.mem_map.mpr ⟨e, he, heq.symm⟩)
    rw [strengths_addSpinStrength _ (horder e he), Table.get?_alter, if_neg hne, hnext]
  induction entries generalizing start with
  | nil => cases he
  | cons e rest ih =>
    obtain ⟨hnotin, hrest⟩ := List.nodup_cons.mp hnodup
    have horderRest : ∀ e' ∈ rest, e'.1.lo < e'.1.hi := fun e' he' =>
      horder e' (List.mem_cons_of_mem _ he')
    have hfirst := strengths_addSpinStrength start (horder e List.mem_cons_self) e.2
    rw [List.foldl_cons]
    rcases List.mem_cons.mp he with rfl | he
    · rw [hkept rest horderRest hnotin, hfirst, Table.get?_alter, if_pos rfl, hstart]
      simp
    · have hne : q ≠ e.1 := fun heq => hnotin (List.mem_map.mpr ⟨(q, j), he, heq⟩)
      refine ih hrest horderRest he ?_
      rw [hfirst, Table.get?_alter, if_neg hne, hstart]

/-- A coupling of spins that is not zero is one of the problem in either mode. -/
theorem exists_get?_toMode (h : p.Over live) (hmode : p.mode = .ising) {q : Pair} {j : ℚ}
    (hq : p.strengths.get? q = some j) (hj : j ≠ 0) (mode : Mode) :
    ∃ k, (p.toMode mode).strengths.get? q = some k ∧ k ≠ 0 := by
  cases mode with
  | ising =>
    refine ⟨j, ?_, hj⟩
    rwa [toMode, toIsing, hmode]
  | qubo =>
    have hweights := List.foldlRecOn p.weights.entries (fun out e => out.addSpinWeight e.1 e.2)
      (motive := fun out : Problem ℚ => out.strengths = .empty)
      (rfl : (p.withoutTerms .qubo).strengths = .empty) fun out hout e _ => hout
    refine ⟨4 * j, ?_, mul_ne_zero (by norm_num) hj⟩
    rw [toMode, toQubo, hmode]
    refine get?_foldl_addSpinStrength p.strengths.nodup_keys (fun e he => ?_)
      (Table.get?_eq_some_iff.mp hq) ?_
    · exact (h.strengths e.1 e.2 (Table.get?_eq_some_iff.mpr he)).1
    · rw [hweights]
      rfl

end Strengths

section Terms

variable {K : Type} [Coefficient K] {live : Nat → Prop} {p : Problem K}

/-- Every index of a term is live, and the pair of every quadratic term is in order. -/
structure TermsOver (p : Problem K) (live : Nat → Prop) : Prop where
  weights : ∀ i w, p.weights.get? i = some w → live i
  strengths : ∀ q j, p.strengths.get? q = some j → q.Joins live

theorem TermsOver.addSpinWeight (h : p.TermsOver live) {i : Nat} (hi : live i) (w : K) :
    (p.addSpinWeight i w).TermsOver live := by
  refine ⟨fun k v hk => ?_, h.strengths⟩
  simp only [Problem.addSpinWeight, addWeight, Table.get?_alter] at hk
  split at hk
  · next heq => exact heq ▸ hi
  · exact h.weights k v hk

theorem TermsOver.addSpinStrength (h : p.TermsOver live) {q : Pair} (hq : q.Joins live) (j : K) :
    (p.addSpinStrength q j).TermsOver live := by
  refine ⟨fun k v hk => ?_, fun r v hr => ?_⟩
  · simp only [Problem.addSpinStrength, addOffset, addWeight, addStrength, if_neg hq.1.ne,
      Table.get?_alter] at hk
    split at hk
    · next heq => exact heq ▸ hq.2.2
    · split at hk
      · next heq => exact heq ▸ hq.2.1
      · exact h.weights k v hk
  · simp only [Problem.addSpinStrength, addOffset, addWeight, addStrength, if_neg hq.1.ne,
      Table.get?_alter, Pair.of_of_lt hq.1] at hr
    split at hr
    · next heq => exact heq ▸ hq
    · exact h.strengths r v hr

/-- A problem over spins has terms over the same indices in either mode, whatever its helpers
are. -/
theorem TermsOver.toMode (h : p.TermsOver live) (hmode : p.mode = .ising) (mode : Mode) :
    (p.toMode mode).TermsOver live := by
  cases mode with
  | ising => rwa [Problem.toMode, toIsing, hmode]
  | qubo =>
    rw [Problem.toMode, toQubo, hmode]
    refine foldl_terms (motive := fun out => out.TermsOver live) ?_ (fun out e he hout => ?_)
      fun out e he hout => ?_
    · exact ⟨fun i w hi => by simp [withoutTerms] at hi, fun q j hq => by simp [withoutTerms] at hq⟩
    · exact hout.addSpinWeight (h.weights e.1 e.2 he) e.2
    · exact hout.addSpinStrength (h.strengths e.1 e.2 he) e.2

end Terms

end SpinGlass.Problem

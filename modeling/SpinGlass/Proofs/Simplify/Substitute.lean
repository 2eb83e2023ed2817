import SpinGlass.Proofs.Simplify.Touching
import SpinGlass.Proofs.Symbols.Links

/-!
# Putting a spin for a variable

The terms of the variable move into the constant and the weights of its neighbours. Afterwards the
variable is mentioned nowhere, and the objective is the same wherever the variable has the value
that was put for it.
-/

namespace SpinGlass

namespace Problem

section Substitute

variable {K : Type} [Coefficient K] {live : Nat → Prop} {p : Problem K} {i : Nat}

/-- The problem whose linear term of `i` went into the constant. -/
def absorbWeight (p : Problem K) (i : Nat) (value : K) : Problem K :=
  { p with weights := p.weights.erase i, offset := p.offset + p.weight i * value }

/-- One quadratic term of `i` goes into the weight of the neighbour. -/
def absorbStrength (i : Nat) (value : K) (p : Problem K) (term : Pair × K) : Problem K :=
  substituteTerm i value p (term.1.other i, term.2)

/-- The problem whose quadratic terms of `i` went into the weights of the neighbours. -/
def absorbStrengths (p : Problem K) (i : Nat) (value : K) : Problem K :=
  (p.strengths.entries.filter fun e => e.1.contains i).foldl (absorbStrength i value) p

/-- A substitution absorbs the terms of the variable, and forgets its pin and its helpers. -/
theorem substitute_eq (p : Problem K) (i : Nat) (spin : Spin) :
    p.substitute i spin =
      let absorbed := (p.absorbWeight i (Coefficient.ofSpinIn p.mode spin)).absorbStrengths i
        (Coefficient.ofSpinIn p.mode spin)
      { absorbed with
        pinned := absorbed.pinned.erase i
        pinHelpers := (absorbed.pinHelpers.erase i).filter fun _ user => user != i } := by
  unfold substitute incident absorbStrengths
  simp only [List.foldl_map]
  rfl

/-- Absorbing a term leaves the other terms of the variable alone. -/
theorem strengths_absorbStrength (value : K) (p : Problem K) (q : Pair) (j : K) (other : Pair)
    (hq : q.Joins live) (hi : q.contains i = true) (_ : other.contains i = true) :
    (absorbStrength i value p (q, j)).strengths.get? other =
      if other = q then none else p.strengths.get? other := by
  unfold absorbStrength substituteTerm addWeight
  rw [Pair.of_other hq.1 hi, Table.get?_erase]

theorem Over.absorbWeight (hp : p.Over live) (value : K) : (p.absorbWeight i value).Over live :=
  (hp.eraseWeight i).addOffset _

/-- What is left when all terms of the variable are absorbed. -/
theorem absorbStrengths_spec (hp : p.Over live) (value : K) :
    (p.absorbStrengths i value).Over live ∧ p.SameConstraints (p.absorbStrengths i value) ∧
      (p.absorbStrengths i value).weights.get? i = p.weights.get? i ∧
      ∀ q, q.contains i = true → (p.absorbStrengths i value).strengths.get? q = none := by
  have h := foldl_touching hp (strengths_absorbStrength (i := i) value)
    (motive := fun p' => p'.Over live ∧ p.SameConstraints p' ∧
      p'.weights.get? i = p.weights.get? i)
    ⟨hp, .refl p, rfl⟩ (fun p' q j hq _ _ ⟨hover, hsame, hweights⟩ => ?_)
  · exact ⟨h.1.1, h.1.2.1, h.1.2.2, h.2⟩
  · refine ⟨(hover.eraseStrength _).addWeight (hq.other i) _,
      hsame.trans ⟨rfl, rfl, rfl, rfl, rfl, rfl⟩, ?_⟩
    have hother : i ≠ q.other i := (Pair.other_ne hq.1).symm
    simpa [absorbStrength, substituteTerm, addWeight, Table.get?_alter, hother] using hweights

/-- A substitution leaves no mention of the variable, if it was in no chain. -/
theorem Over.substitute (hp : p.Over live) (hchain : p.inChain i = false) (spin : Spin) :
    (p.substitute i spin).Over fun k => live k ∧ k ≠ i := by
  obtain ⟨hover, hsame, hweights, hstrengths⟩ := absorbStrengths_spec (i := i)
    (hp.absorbWeight (i := i) (Coefficient.ofSpinIn p.mode spin)) (Coefficient.ofSpinIn p.mode spin)
  have hnoWeight : (p.absorbWeight i (Coefficient.ofSpinIn p.mode spin)).weights.get? i = none := by
    simp [Problem.absorbWeight, Table.get?_erase]
  rw [substitute_eq]
  generalize (p.absorbWeight i _).absorbStrengths i _ = absorbed at *
  refine ⟨fun k w hk => ⟨hover.weights k w hk, ?_⟩, fun q j hq => ?_, fun q hq => ?_,
    fun k s hk => ?_, fun helper user h => ?_⟩
  · rintro rfl
    exact Option.some_ne_none w (hk.symm.trans (hweights.trans hnoWeight))
  · have hjoins := hover.strengths q j hq
    have hnot : ¬ q.contains i = true := fun hi =>
      Option.some_ne_none j (hq.symm.trans (hstrengths q hi))
    simp only [Pair.contains, Bool.or_eq_true, beq_iff_eq, not_or] at hnot
    exact ⟨hjoins.1, ⟨hjoins.2.1, hnot.1⟩, hjoins.2.2, hnot.2⟩
  · have hq : p.chains.contains q = true := by
      simp only at hq
      rwa [hsame.chains] at hq
    have hjoins := hp.chains q hq
    have hnot := List.any_eq_false.mp hchain q (KeySet.mem_toList_iff.mpr hq)
    simp only [Pair.contains, Bool.or_eq_true, beq_iff_eq, not_or] at hnot
    exact ⟨hjoins.1, ⟨hjoins.2.1, hnot.1⟩, hjoins.2.2, hnot.2⟩
  · rw [Table.get?_erase] at hk
    split at hk
    · cases hk
    · next hne => exact ⟨hover.pinned k s hk, hne⟩
  · rw [Table.get?_filter, Option.filter_eq_some_iff, Table.get?_erase] at h
    obtain ⟨h, huser⟩ := h
    split at h
    · cases h
    · next hne =>
      obtain ⟨hhelper, hlive⟩ := hover.helpers helper user h
      exact ⟨⟨hhelper, hne⟩, hlive, by simpa using huser⟩

/-- A substitution keeps everything that is no term, but for the pin and the helpers of the
variable. -/
theorem substitute_constraints (hp : p.Over live) (spin : Spin) :
    (p.substitute i spin).mode = p.mode ∧ (p.substitute i spin).chains = p.chains ∧
      (p.substitute i spin).pinned = p.pinned.erase i ∧
      (p.substitute i spin).assertions = p.assertions ∧
      (p.substitute i spin).knownValues = p.knownValues := by
  obtain ⟨_, hsame, _, _⟩ := absorbStrengths_spec (i := i)
    (hp.absorbWeight (i := i) (Coefficient.ofSpinIn p.mode spin)) (Coefficient.ofSpinIn p.mode spin)
  rw [substitute_eq]
  exact ⟨hsame.mode, hsame.chains, congrArg (·.erase i) hsame.pinned, hsame.assertions,
    hsame.knownValues⟩

end Substitute

/-- A substitution keeps the objective where the variable has its value. -/
theorem objective_substitute {live : Nat → Prop} {p : Problem ℚ} {i : Nat} {spin : Spin}
    {x : Nat → ℚ} (hp : p.Over live) (hx : x i = Coefficient.ofSpinIn p.mode spin) :
    (p.substitute i spin).objective x = p.objective x := by
  have hweight : (p.absorbWeight i (x i)).objective x = p.objective x := by
    have h : p.absorbWeight i (x i) =
        { p with weights := p.weights.erase i }.addOffset (p.weight i * x i) := rfl
    rw [h, objective_addOffset, objective_eraseWeight]
    ring
  have hstrengths : ((p.absorbWeight i (x i)).absorbStrengths i (x i)).objective x =
      p.objective x := by
    refine (foldl_touching (hp.absorbWeight (i := i) (x i))
      (strengths_absorbStrength (i := i) (x i))
      (motive := fun p' => p'.objective x = p.objective x) hweight
      (fun p' q j hq hi hget hobjective => ?_)).1
    have hproduct : x q.lo * x q.hi = x i * x (q.other i) := by
      rw [← Pair.mul_of x i, Pair.of_other hq.1 hi]
    simp only [absorbStrength, substituteTerm]
    rw [Pair.of_other hq.1 hi, objective_addWeight, objective_eraseStrength hget, hobjective,
      mul_assoc, mul_assoc, hproduct]
    ring
  rw [substitute_eq, ← hx]
  exact hstrengths

end Problem

end SpinGlass

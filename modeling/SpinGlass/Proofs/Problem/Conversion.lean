import SpinGlass.Proofs.Problem.Bits

/-!
# Changing the domain and back

The change between bits and spins substitutes `x = (s + 1) / 2` or `s = 2 x - 1` in the objective,
which holds of the polynomials and not only at bits and spins. So the way there and back gives the
polynomial of the start. Its coefficients can be read off its values where one or two variables are
one and the others are zero.
-/

namespace SpinGlass.Problem

/-- Every quadratic term is one of two variables, the lower one first. -/
def Ordered {K : Type} (p : Problem K) : Prop :=
  ∀ q j, p.strengths.get? q = some j → q.lo < q.hi

section Ordered

variable {K : Type} [Coefficient K] {p : Problem K}

/-- A term on a single variable collapses, and the ends of any other are put in order. -/
theorem Ordered.addStrength (h : p.Ordered) (a b : Nat) (j : K) :
    (p.addStrength a b j).Ordered := by
  unfold Problem.addStrength
  split
  · cases p.mode <;> exact h
  · next hne =>
    intro q k hq
    rw [Table.get?_alter] at hq
    split at hq
    · next heq =>
      rw [heq]
      exact Pair.of_lo_lt_hi hne
    · exact h q k hq

/-- The problem in a mode has its quadratic terms in order. -/
theorem Ordered.toMode (h : p.Ordered) (mode : Mode) : (p.toMode mode).Ordered := by
  have hstart : ∀ mode, (p.withoutTerms mode).Ordered := fun mode q j hq => by
    simp [withoutTerms] at hq
  cases mode with
  | qubo =>
    unfold Problem.toMode toQubo
    dsimp only
    split
    · exact h
    · apply foldl_terms (motive := Ordered) (hstart .qubo)
      · exact fun out e _ hout => hout
      · exact fun out e _ hout => hout.addStrength e.1.lo e.1.hi _
  | ising =>
    unfold Problem.toMode toIsing
    dsimp only
    split
    · exact h
    · apply foldl_terms (motive := Ordered) (hstart .ising)
      · exact fun out e _ hout => hout
      · exact fun out e _ hout => hout.addStrength e.1.lo e.1.hi _

end Ordered

section Substitution

variable {p : Problem ℚ} {q : Pair}

theorem objective_addBitWeight (p : Problem ℚ) (i : Nat) (a : ℚ) (x : Nat → ℚ) :
    (p.addBitWeight i a).objective x = p.objective x + a * ((x i + 1) / 2) := by
  unfold addBitWeight
  rw [objective_addOffset, objective_addWeight, Coefficient.ofNat_eq]
  push_cast
  ring

theorem objective_addBitStrength (p : Problem ℚ) (hq : q.lo < q.hi) (b : ℚ) (x : Nat → ℚ) :
    (p.addBitStrength q b).objective x =
      p.objective x + b * ((x q.lo + 1) / 2) * ((x q.hi + 1) / 2) := by
  have hne : q.lo ≠ q.hi := by omega
  unfold addBitStrength
  rw [objective_addOffset, objective_addWeight, objective_addWeight,
    objective_addStrength _ _ _ _ _ fun heq => absurd heq hne, Coefficient.ofNat_eq]
  push_cast
  ring

theorem objective_addSpinWeight (p : Problem ℚ) (i : Nat) (w : ℚ) (x : Nat → ℚ) :
    (p.addSpinWeight i w).objective x = p.objective x + w * (2 * x i - 1) := by
  rw [addSpinWeight_eq, objective_addOffset, objective_addWeight, Coefficient.ofNat_eq]
  push_cast
  ring

theorem objective_addSpinStrength (p : Problem ℚ) (hq : q.lo < q.hi) (j : ℚ) (x : Nat → ℚ) :
    (p.addSpinStrength q j).objective x =
      p.objective x + j * (2 * x q.lo - 1) * (2 * x q.hi - 1) := by
  have hne : q.lo ≠ q.hi := by omega
  unfold addSpinStrength
  rw [objective_addOffset, objective_addWeight, objective_addWeight,
    objective_addStrength _ _ _ _ _ fun heq => absurd heq hne, Coefficient.ofNat_eq,
    Coefficient.ofNat_eq]
  push_cast
  ring

/-- The objective over spins is the objective over bits at `x = (s + 1) / 2`. -/
theorem objective_toIsing (hp : p.Ordered) (hmode : p.mode = .qubo) (x : Nat → ℚ) :
    p.toIsing.objective x = p.objective fun i => (x i + 1) / 2 := by
  unfold toIsing
  simp only [hmode]
  rw [foldl_terms_measure (fun _ => True) (fun out => out.objective x) trivial
    (fun i w _ out _ => ⟨trivial, objective_addBitWeight out i w x⟩)
    fun e j he out _ => ⟨trivial, objective_addBitStrength out (hp e j he) j x⟩,
    objective_withoutTerms]
  unfold objective
  ring

/-- The objective over bits is the objective over spins at `s = 2 x - 1`. -/
theorem objective_toQubo (hp : p.Ordered) (hmode : p.mode = .ising) (x : Nat → ℚ) :
    p.toQubo.objective x = p.objective fun i => 2 * x i - 1 := by
  unfold toQubo
  simp only [hmode]
  rw [foldl_terms_measure (fun _ => True) (fun out => out.objective x) trivial
    (fun i w _ out _ => ⟨trivial, objective_addSpinWeight out i w x⟩)
    fun e j he out _ => ⟨trivial, objective_addSpinStrength out (hp e j he) j x⟩,
    objective_withoutTerms]
  unfold objective
  ring

/-- There and back the objective is the same polynomial. -/
theorem objective_toMode_toMode (hp : p.Ordered) (mode : Mode) (x : Nat → ℚ) :
    ((p.toMode mode).toMode p.mode).objective x = p.objective x := by
  have hback := (sameConstraints_toMode p mode).mode
  have hordered := hp.toMode mode
  cases hmode : p.mode with
  | qubo =>
    cases mode with
    | qubo => simp [toMode, toQubo, hmode]
    | ising =>
      have hhalf : (fun i => (2 * x i - 1 + 1) / 2) = x := by
        funext i
        ring
      calc p.toIsing.toQubo.objective x
        _ = p.toIsing.objective fun i => 2 * x i - 1 := objective_toQubo hordered hback x
        _ = p.objective fun i => (2 * x i - 1 + 1) / 2 := objective_toIsing hp hmode _
        _ = p.objective x := by rw [hhalf]
  | ising =>
    cases mode with
    | ising => simp [toMode, toIsing, hmode]
    | qubo =>
      have htwice : (fun i => 2 * ((x i + 1) / 2) - 1) = x := by
        funext i
        ring
      calc p.toQubo.toIsing.objective x
        _ = p.toQubo.objective fun i => (x i + 1) / 2 := objective_toIsing hordered hback x
        _ = p.objective fun i => 2 * ((x i + 1) / 2) - 1 := objective_toQubo hp hmode _
        _ = p.objective x := by rw [htwice]

end Substitution

section Coefficients

variable {p q : Problem ℚ} {a b i : Nat}

/-- Where all variables are zero the constant term is left. -/
theorem objective_zero (p : Problem ℚ) : (p.objective fun _ => 0) = p.offset := by
  simp [objective, Table.total_eq_zero]

/-- The total of the linear terms where one variable is one and the others are zero. -/
theorem total_weights_single (p : Problem ℚ) (i : Nat) :
    (p.weights.total fun k w => w * if k = i then 1 else 0) = p.weight i := by
  rw [Table.total_eq_elim i fun k w _ hk => by simp [hk]]
  unfold weight
  cases p.weights.get? i <;> simp

/-- A weight is what the objective gains where its variable is one and the others are zero. -/
theorem objective_single (hp : p.Ordered) (i : Nat) :
    (p.objective fun k => if k = i then 1 else 0) = p.weight i + p.offset := by
  have hstrengths : (p.strengths.total fun q j =>
      j * (if q.lo = i then 1 else 0) * if q.hi = i then 1 else 0) = 0 := by
    refine Table.total_eq_zero fun q j hq => ?_
    have hlt := hp q j hq
    by_cases hlo : q.lo = i
    · have hhi : q.hi ≠ i := by omega
      simp [hhi]
    · simp [hlo]
  unfold objective
  rw [total_weights_single, hstrengths, add_zero]

/-- A strength is what the objective gains beyond the weights where its two variables are one and
the others are zero. -/
theorem objective_pair (hp : p.Ordered) (hne : a ≠ b) :
    (p.objective fun k => (if k = a then 1 else 0) + if k = b then 1 else 0) =
      p.weight a + p.weight b + p.strength a b + p.offset := by
  have hweights : (p.weights.total fun k w =>
      w * ((if k = a then 1 else 0) + if k = b then 1 else 0)) = p.weight a + p.weight b := by
    simp only [mul_add]
    rw [Table.total_add, total_weights_single, total_weights_single]
  have hstrengths : (p.strengths.total fun q j =>
      j * ((if q.lo = a then 1 else 0) + if q.lo = b then 1 else 0) *
        ((if q.hi = a then 1 else 0) + if q.hi = b then 1 else 0)) = p.strength a b := by
    -- only the pair of the two has both ends among them
    rw [Table.total_eq_elim (.of a b) fun q j hq hkey => ?_]
    · have hproduct := Pair.mul_of (fun k => (if k = a then 1 else 0) + if k = b then 1 else 0) a b
      unfold strength
      cases p.strengths.get? (.of a b) with
      | none => rfl
      | some j => simp [mul_assoc, hproduct, hne, Ne.symm hne]
    · have hlt := hp q j hq
      have hends : ¬ ((q.lo = a ∨ q.lo = b) ∧ (q.hi = a ∨ q.hi = b)) := by
        rintro ⟨hlo | hlo, hhi | hhi⟩
        · omega
        · exact hkey (by rw [← hlo, ← hhi, Pair.of_of_lt hlt])
        · exact hkey (by rw [← hlo, ← hhi, Pair.of_comm, Pair.of_of_lt hlt])
        · omega
      rcases not_and_or.mp hends with hlo | hhi
      · obtain ⟨ha, hb⟩ := not_or.mp hlo
        simp [ha, hb]
      · obtain ⟨ha, hb⟩ := not_or.mp hhi
        simp [ha, hb]
  unfold objective
  rw [hweights, hstrengths]

/-- No variable is coupled to itself. -/
theorem Ordered.strength_self (hp : p.Ordered) (i : Nat) : p.strength i i = 0 := by
  unfold strength
  cases hget : p.strengths.get? (.of i i) with
  | none => rfl
  | some j =>
    have hlt := hp (.of i i) j hget
    simp [Pair.of] at hlt

/-- Problems with the same objective have the same coefficients. -/
theorem coefficients_eq_of_objective_eq (hp : p.Ordered) (hq : q.Ordered)
    (h : ∀ x, p.objective x = q.objective x) :
    (∀ i, p.weight i = q.weight i) ∧ (∀ a b, p.strength a b = q.strength a b) ∧
      p.offset = q.offset := by
  have hoffset : p.offset = q.offset := by
    rw [← objective_zero, ← objective_zero, h]
  have hweight : ∀ i, p.weight i = q.weight i := by
    intro i
    have hsingle := h fun k => if k = i then 1 else 0
    rw [objective_single hp, objective_single hq, hoffset] at hsingle
    linarith
  refine ⟨hweight, fun a b => ?_, hoffset⟩
  by_cases hab : a = b
  · rw [hab, hp.strength_self, hq.strength_self]
  · have hpair := h fun k => (if k = a then 1 else 0) + if k = b then 1 else 0
    rw [objective_pair hp hab, objective_pair hq hab, hoffset, hweight, hweight] at hpair
    linarith

end Coefficients

section Exact

/-- A problem asks for the same after a conversion and the way back. -/
theorem sameConstraints_toMode_toMode (p : Problem ℚ) (mode : Mode) :
    p.SameConstraints ((p.toMode mode).toMode p.mode) := by
  have hthere := sameConstraints_toMode p mode
  have hback := sameConstraints_toMode (p.toMode mode) p.mode
  exact ⟨hback.mode, hback.chains.trans hthere.chains, hback.pinned.trans hthere.pinned,
    hback.pinHelpers.trans hthere.pinHelpers, hback.assertions.trans hthere.assertions,
    hback.knownValues.trans hthere.knownValues⟩

/-- A problem has the same energy over spins and over bits, wherever all variables in terms have a
spin. If its pairs are in order, then after a conversion to either domain and back it has the
coefficients of the start, and asks for the same. -/
theorem toMode_exact (p : Problem ℚ) :
    (∀ s, p.CoversTerms s → p.toIsing.energy s = p.energy s ∧ p.toQubo.energy s = p.energy s) ∧
    (p.Ordered → ∀ mode,
      (∀ i, ((p.toMode mode).toMode p.mode).weight i = p.weight i) ∧
      (∀ a b, ((p.toMode mode).toMode p.mode).strength a b = p.strength a b) ∧
      ((p.toMode mode).toMode p.mode).offset = p.offset ∧
      p.SameConstraints ((p.toMode mode).toMode p.mode)) := by
  constructor
  · exact fun s hs => ⟨hs.energy_toIsing, hs.energy_toQubo⟩
  · intro hp mode
    have hback : ((p.toMode mode).toMode p.mode).Ordered := (hp.toMode mode).toMode p.mode
    obtain ⟨hweight, hstrength, hoffset⟩ :=
      coefficients_eq_of_objective_eq hback hp (objective_toMode_toMode hp mode)
    exact ⟨hweight, hstrength, hoffset, sameConstraints_toMode_toMode p mode⟩

/-- Three bits in a row, of which only the first has a linear term. -/
def rowOfBits : Problem ℚ :=
  (((Problem.empty .qubo).addWeight 0 1).addStrength 0 1 2).addStrength 2 1 (-3)

/-- Over spins all three bits of `rowOfBits` have a linear term. On the way back that of the last
bit cancels, though its entry stays. -/
theorem toMode_exact_rowOfBits : ∃ s, rowOfBits.CoversTerms s ∧ rowOfBits.Ordered ∧
    rowOfBits.toIsing.energy s = -3 ∧ rowOfBits.toIsing.weight 2 = -3 / 4 ∧
    rowOfBits.toIsing.toQubo.weight 2 = 0 ∧
    rowOfBits.toIsing.toQubo.weights.contains 2 = true := by
  have hweights : ∀ e ∈ rowOfBits.weights.entries, e.1 < 3 := by decide +kernel
  have hpairs : ∀ e ∈ rowOfBits.strengths.entries, e.1.lo < e.1.hi ∧ e.1.hi < 3 := by
    decide +kernel
  have hordered : rowOfBits.Ordered := fun q j hq => (hpairs _ (Table.get?_eq_some_iff.mp hq)).1
  let s : Assignment := fun i => if i < 3 then some (.ofBool (i != 0)) else none
  have hspin : ∀ i < 3, ∃ spin, s i = some spin := fun i hi => ⟨_, if_pos hi⟩
  have hcovers : rowOfBits.CoversTerms s := by
    refine ⟨fun i w hi => hspin i (hweights _ (Table.get?_eq_some_iff.mp hi)), fun q j hq => ?_⟩
    obtain ⟨hlt, hhi⟩ := hpairs _ (Table.get?_eq_some_iff.mp hq)
    exact ⟨hspin q.lo (hlt.trans hhi), hspin q.hi hhi⟩
  obtain ⟨henergy, hback⟩ := toMode_exact rowOfBits
  refine ⟨s, hcovers, hordered, ?_, by decide +kernel, ?_, by decide +kernel⟩
  · rw [(henergy s hcovers).1]
    decide +kernel
  · have hweight := (hback hordered .ising).1 2
    exact hweight.trans (by decide +kernel)

end Exact

end SpinGlass.Problem

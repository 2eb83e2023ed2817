import SpinGlass.Proofs.Simplify.Touching
import SpinGlass.Proofs.Symbols.Links

/-!
# Merging two variables

Each part of a problem is moved from `drop` to `keep`. Afterwards `drop` is mentioned nowhere, an
assignment that gives both one spin meets the same pins and chains as before, and its objective is
the same. A coupling between the two collapses, by the rule of the mode.
-/

namespace SpinGlass

namespace Problem

section Terms

variable {K : Type} [Coefficient K]

/-- A quadratic term changes no weight but that of a variable coupled to itself. -/
theorem weights_addStrength {p : Problem K} {a b i : Nat} (hi : i ≠ a) (j : K) :
    (p.addStrength a b j).weights.get? i = p.weights.get? i := by
  unfold addStrength
  split
  · split
    · simp [addWeight, Table.get?_alter, hi]
    · rfl
  · rfl

/-- A quadratic term is stored under its own pair. -/
theorem strengths_addStrength {p : Problem K} {a b : Nat} {q : Pair} (hq : q ≠ .of a b) (j : K) :
    (p.addStrength a b j).strengths.get? q = p.strengths.get? q := by
  unfold addStrength
  split
  · split <;> rfl
  · simp [Table.get?_alter, hq]

end Terms

section Merge

variable {K : Type} [Coefficient K] {live : Nat → Prop} {p : Problem K} {keep drop : Nat}

theorem Over.mergeWeight (hp : p.Over live) (hkeep : live keep) (drop : Nat) :
    (p.mergeWeight keep drop).Over live := by
  unfold Problem.mergeWeight
  split
  · exact (hp.eraseWeight drop).addWeight hkeep _
  · exact hp

/-- The dropped variable has no weight left. -/
theorem weights_mergeWeight (hne : keep ≠ drop) :
    (p.mergeWeight keep drop).weights.get? drop = none := by
  unfold mergeWeight
  split
  · simp [addWeight, Table.get?_alter, Table.get?_erase, hne.symm]
  · assumption

theorem sameConstraints_mergeWeight (p : Problem K) (keep drop : Nat) :
    p.SameConstraints (p.mergeWeight keep drop) := by
  unfold mergeWeight
  split <;> exact ⟨rfl, rfl, rfl, rfl, rfl, rfl⟩

/-- Moving a term leaves the other terms of the dropped variable alone. -/
theorem strengths_moveStrength (hne : keep ≠ drop) (p : Problem K) (q : Pair) (j : K) (other : Pair)
    (hq : q.Joins live) (_ : q.contains drop = true) (hother : other.contains drop = true) :
    (moveStrength keep drop p (q, j)).strengths.get? other =
      if other = q then none else p.strengths.get? other := by
  have hpair : other ≠ .of keep (q.other drop) := by
    rintro rfl
    rcases Pair.contains_of.mp hother with h | h
    · exact hne h.symm
    · exact Pair.other_ne hq.1 h.symm
  rw [moveStrength, strengths_addStrength hpair, Table.get?_erase]

/-- What is left when all terms of the dropped variable are moved. -/
theorem mergeStrengths_spec (hp : p.Over live) (hkeep : live keep) (hne : keep ≠ drop) :
    (p.mergeStrengths keep drop).Over live ∧ p.SameConstraints (p.mergeStrengths keep drop) ∧
      (p.mergeStrengths keep drop).weights.get? drop = p.weights.get? drop ∧
      ∀ q, q.contains drop = true → (p.mergeStrengths keep drop).strengths.get? q = none := by
  have h := foldl_touching hp (strengths_moveStrength hne)
    (motive := fun p' => p'.Over live ∧ p.SameConstraints p' ∧
      p'.weights.get? drop = p.weights.get? drop)
    ⟨hp, .refl p, rfl⟩ (fun p' q j hq _ _ ⟨hover, hsame, hweights⟩ => ?_)
  · exact ⟨h.1.1, h.1.2.1, h.1.2.2, h.2⟩
  · refine ⟨(hover.eraseStrength q).addStrength hkeep (hq.other drop) j, ?_, ?_⟩
    · have herase : p.SameConstraints { p' with strengths := p'.strengths.erase q } :=
        ⟨hsame.mode, hsame.chains, hsame.pinned, hsame.pinHelpers, hsame.assertions,
          hsame.knownValues⟩
      exact herase.trans (sameConstraints_addStrength ..)
    · exact (weights_addStrength hne.symm j).trans hweights

end Merge

section Constraints

variable {K : Type} {live : Nat → Prop} {p : Problem K} {keep drop : Nat}

/-- A chain of the dropped variable goes to the other one, and a chain between the two is gone. -/
theorem contains_foldl_moveChain (hne : keep ≠ drop) (touched : List Pair) (chains : KeySet Pair)
    (htouched : ∀ q ∈ touched, q.lo < q.hi ∧ q.contains drop = true) (q : Pair) :
    (touched.foldl (moveChain keep drop) chains).contains q = true ↔
      (chains.contains q = true ∧ q ∉ touched) ∨
        ∃ q' ∈ touched, q'.other drop ≠ keep ∧ q = .of keep (q'.other drop) := by
  induction touched generalizing chains with
  | nil => simp
  | cons e rest ih =>
    obtain ⟨he, hcontains⟩ := htouched e List.mem_cons_self
    have hrest : ∀ r ∈ rest, r.lo < r.hi ∧ r.contains drop = true := fun r hr =>
      htouched r (List.mem_cons_of_mem _ hr)
    -- a moved chain does not touch the dropped variable, so it is not moved again
    have hmoved : ∀ r : Pair, r.contains drop = true → r ≠ .of keep (e.other drop) := by
      rintro r hr rfl
      rcases Pair.contains_of.mp hr with h | h
      · exact hne h.symm
      · exact Pair.other_ne he h.symm
    rw [List.foldl_cons, ih _ hrest]
    simp only [List.mem_cons, not_or, exists_eq_or_imp]
    unfold moveChain
    by_cases hother : e.other drop = keep
    · simp only [hother, if_true, Table.contains_erase_iff, ne_eq, not_true, false_and, false_or]
      tauto
    · simp only [if_neg hother, KeySet.contains_insert_iff, Table.contains_erase_iff]
      by_cases hq : q = .of keep (e.other drop)
      · have hqe : q ≠ e := fun h => hmoved e hcontains (h ▸ hq)
        have hqrest : q ∉ rest := fun h => hmoved q (hrest q h).2 hq
        simp [hq.symm, hqe, hqrest, hother]
      · simp only [hq, and_false, false_or]
        tauto

theorem contains_mergeChains (hp : p.Over live) (hne : keep ≠ drop) {q : Pair} :
    (p.mergeChains keep drop).chains.contains q = true ↔
      (p.chains.contains q = true ∧ q.contains drop = false) ∨
        ∃ q', p.chains.contains q' = true ∧ q'.contains drop = true ∧ q'.other drop ≠ keep ∧
          q = .of keep (q'.other drop) := by
  unfold mergeChains
  simp only
  rw [contains_foldl_moveChain hne]
  · simp only [List.mem_filter, KeySet.mem_toList_iff, not_and, Bool.not_eq_true, and_assoc]
    constructor <;> rintro (⟨h, hd⟩ | h)
    · exact .inl ⟨h, hd h⟩
    · exact .inr h
    · exact .inl ⟨h, fun _ => hd⟩
    · exact .inr h
  · intro r hr
    rw [List.mem_filter, KeySet.mem_toList_iff] at hr
    exact ⟨(hp.chains r hr.1).1, hr.2⟩

/-- Merging does not make chains. -/
theorem size_mergeChains_le (hp : p.Over live) :
    (p.mergeChains keep drop).chains.size ≤ p.chains.size := by
  have hfold : ∀ (touched : List Pair) (chains : KeySet Pair), touched.Nodup →
      (∀ q ∈ touched, q.lo < q.hi ∧ q.contains drop = true ∧ chains.contains q = true) →
      (touched.foldl (moveChain keep drop) chains).size ≤ chains.size := by
    intro touched
    induction touched with
    | nil => intro chains _ _; exact le_rfl
    | cons e rest ih =>
      intro chains hnodup htouched
      obtain ⟨he, _, hcontains⟩ := htouched e List.mem_cons_self
      have hlt := Table.size_erase_lt hcontains
      have hle : (moveChain keep drop chains e).size ≤ chains.size := by
        by_cases hother : e.other drop = keep
        · simpa only [moveChain, if_pos hother] using hlt.le
        · have hinsert := Table.size_alter_le (Table.erase chains e) (.of keep (e.other drop))
            fun _ => ()
          simp only [moveChain, if_neg hother]
          exact hinsert.trans hlt
      refine (ih _ (List.nodup_cons.mp hnodup).2 fun r hr => ?_).trans hle
      obtain ⟨hr', hdrop, hget⟩ := htouched r (List.mem_cons_of_mem _ hr)
      have hne : r ≠ e := fun h => (List.nodup_cons.mp hnodup).1 (h ▸ hr)
      have herase := Table.contains_erase_iff.mpr ⟨hne, hget⟩
      refine ⟨hr', hdrop, ?_⟩
      by_cases hother : e.other drop = keep
      · simpa only [moveChain, if_pos hother] using herase
      · simpa only [moveChain, if_neg hother] using KeySet.contains_insert_iff.mpr (.inr herase)
  refine hfold _ _ ?_ fun q hq => ?_
  · exact (Table.nodup_keys p.chains).filter _
  · rw [List.mem_filter, KeySet.mem_toList_iff] at hq
    exact ⟨(hp.chains q hq.1).1, hq.2, hq.1⟩

/-- No chain of the dropped variable is left. -/
theorem joins_mergeChains (hp : p.Over live) (hkeep : live keep) (hne : keep ≠ drop) {q : Pair}
    (hq : (p.mergeChains keep drop).chains.contains q = true) :
    q.Joins fun i => live i ∧ i ≠ drop := by
  rcases (contains_mergeChains hp hne).mp hq with ⟨hmem, hdrop⟩ | ⟨q', hmem, _, hother, rfl⟩
  · obtain ⟨hlt, hlo, hhi⟩ := hp.chains q hmem
    simp only [Pair.contains, Bool.or_eq_false_iff, beq_eq_false_iff_ne] at hdrop
    exact ⟨hlt, ⟨hlo, hdrop.1⟩, hhi, hdrop.2⟩
  · have hjoins := hp.chains q' hmem
    exact Pair.joins_of (Ne.symm hother) ⟨hkeep, hne⟩
      ⟨hjoins.other drop, Pair.other_ne hjoins.1⟩

/-- With one spin for both variables, the chains ask for the same as before. -/
theorem meetsChains_mergeChains (hp : p.Over live) (hne : keep ≠ drop) {s : Assignment}
    (hs : s drop = s keep) : (p.mergeChains keep drop).MeetsChains s ↔ p.MeetsChains s := by
  have hends : ∀ q : Pair, q.contains drop = true →
      (s q.lo = s q.hi ↔ s keep = s (q.other drop)) := by
    intro q hq
    simp only [Pair.contains, Bool.or_eq_true, beq_iff_eq] at hq
    unfold Pair.other
    split
    · next hlo => rw [hlo, hs]
    · next hlo => rw [hq.resolve_left hlo, hs, eq_comm]
  constructor
  · intro h q hq
    cases hdrop : q.contains drop with
    | false => exact h q ((contains_mergeChains hp hne).mpr (.inl ⟨hq, hdrop⟩))
    | true =>
      rw [hends q hdrop]
      by_cases hother : q.other drop = keep
      · rw [hother]
      · have hmoved := (contains_mergeChains hp hne).mpr (.inr ⟨q, hq, hdrop, hother, rfl⟩)
        exact (Pair.eq_ends_of s _ _).mp (h _ hmoved)
  · intro h q hq
    rcases (contains_mergeChains hp hne).mp hq with ⟨hmem, _⟩ | ⟨q', hmem, hdrop, _, rfl⟩
    · exact h q hmem
    · rw [Pair.eq_ends_of, ← hends q' hdrop]
      exact h q' hmem

/-- No helper stands by the dropped variable, and it is none. -/
theorem helpers_mergeHelpers (hp : p.Over live) (hkeep : live keep) (hne : keep ≠ drop)
    (helper user : Nat) (h : (p.mergeHelpers keep drop).pinHelpers.get? helper = some user) :
    (live helper ∧ helper ≠ drop) ∧ live user ∧ user ≠ drop := by
  have hmoved : ∀ a b,
      (p.pinHelpers.mapValues fun u => if u = drop then keep else u).get? a = some b →
      live a ∧ live b ∧ b ≠ drop := by
    intro a b hab
    rw [Table.get?_mapValues] at hab
    obtain ⟨u, hu, rfl⟩ := Option.map_eq_some_iff.mp hab
    obtain ⟨ha, hlive⟩ := hp.helpers a u hu
    split
    · exact ⟨ha, hkeep, hne⟩
    · next hdrop => exact ⟨ha, hlive, hdrop⟩
  unfold mergeHelpers at h
  simp only at h
  split at h
  · next other hother =>
    have hmovedOther := hmoved drop other hother
    have herase : ∀ a b, ((p.pinHelpers.mapValues fun u => if u = drop then keep else u).erase
        drop).get? a = some b → (live a ∧ a ≠ drop) ∧ live b ∧ b ≠ drop := by
      intro a b hab
      rw [Table.get?_erase] at hab
      split at hab
      · cases hab
      · next hdrop =>
        have hab := hmoved a b hab
        exact ⟨⟨hab.1, hdrop⟩, hab.2⟩
    simp only at h
    split at h
    · exact herase helper user h
    · rw [Table.get?_insert] at h
      split at h
      · next heq =>
        cases h
        rw [heq]
        exact ⟨⟨hkeep, hne⟩, hmovedOther.2⟩
      · exact herase helper user h
  · next hnone =>
    have hab := hmoved helper user h
    refine ⟨⟨hab.1, ?_⟩, hab.2⟩
    rintro rfl
    rw [h] at hnone
    cases hnone

/-- Only the helpers change when they are moved. -/
theorem mergeHelpers_eq (p : Problem K) (keep drop : Nat) :
    p.mergeHelpers keep drop = { p with pinHelpers := (p.mergeHelpers keep drop).pinHelpers } := by
  unfold mergeHelpers
  simp only
  split <;> rfl

end Constraints

/-- Everything but the pin of `drop` moved to `keep`. -/
def merge {K : Type} [Coefficient K] (p : Problem K) (keep drop : Nat) : Problem K :=
  (((p.mergeWeight keep drop).mergeStrengths keep drop).mergeChains keep drop).mergeHelpers
    keep drop

section Whole

variable {K : Type} [Coefficient K] {live : Nat → Prop} {p : Problem K} {keep drop : Nat}

/-- A merged problem mentions the dropped variable nowhere, if it was not pinned. -/
theorem Over.merge (hp : p.Over live) (hkeep : live keep) (hne : keep ≠ drop)
    (hpin : p.pinned.get? drop = none) : (p.merge keep drop).Over fun i => live i ∧ i ≠ drop := by
  obtain ⟨hover, hsame, hweights, hstrengths⟩ :=
    mergeStrengths_spec (hp.mergeWeight hkeep drop) hkeep hne
  have hpinned := ((sameConstraints_mergeWeight p keep drop).trans hsame).pinned
  have hnoWeight := hweights.trans (weights_mergeWeight (p := p) hne)
  unfold Problem.merge
  generalize (p.mergeWeight keep drop).mergeStrengths keep drop = q at *
  have hchains : (q.mergeChains keep drop).Over live := by
    refine ⟨hover.weights, hover.strengths, fun r hr => ?_, hover.pinned, hover.helpers⟩
    obtain ⟨hr, hlo, hhi⟩ := joins_mergeChains hover hkeep hne hr
    exact ⟨hr, hlo.1, hhi.1⟩
  have hhelpers := helpers_mergeHelpers hchains hkeep hne
  rw [mergeHelpers_eq]
  refine ⟨fun i w hi => ⟨hover.weights i w hi, ?_⟩, fun r j hr => ?_,
    fun r hr => joins_mergeChains hover hkeep hne hr, fun i spin hi => ⟨hover.pinned i spin hi, ?_⟩,
    hhelpers⟩
  · rintro rfl
    exact Option.some_ne_none w (hi.symm.trans hnoWeight)
  · have hjoins := hover.strengths r j hr
    have hnot : ¬ r.contains drop = true := fun hd =>
      Option.some_ne_none j (hr.symm.trans (hstrengths r hd))
    simp only [Pair.contains, Bool.or_eq_true, beq_iff_eq, not_or] at hnot
    exact ⟨hjoins.1, ⟨hjoins.2.1, hnot.1⟩, hjoins.2.2, hnot.2⟩
  · rintro rfl
    exact Option.some_ne_none spin (hi.symm.trans ((congrArg (·.get? i) hpinned).trans hpin))

/-- A merge keeps everything that is no index. -/
theorem merge_eq (p : Problem K) (keep drop : Nat) (hp : p.Over live) (hkeep : live keep)
    (hne : keep ≠ drop) :
    (p.merge keep drop).mode = p.mode ∧ (p.merge keep drop).pinned = p.pinned ∧
      (p.merge keep drop).assertions = p.assertions ∧
      (p.merge keep drop).knownValues = p.knownValues := by
  obtain ⟨_, hsame, _, _⟩ :=
    mergeStrengths_spec (hp.mergeWeight hkeep drop) hkeep hne
  have hsame := (sameConstraints_mergeWeight p keep drop).trans hsame
  unfold merge
  rw [mergeHelpers_eq]
  exact ⟨hsame.mode, hsame.pinned, hsame.assertions, hsame.knownValues⟩

/-- A merge makes no chains, and keeps what they ask of an assignment with one spin for both. -/
theorem chains_merge (hp : p.Over live) (hkeep : live keep) (hne : keep ≠ drop) :
    (p.merge keep drop).chains.size ≤ p.chains.size ∧
      ∀ s : Assignment, s drop = s keep →
        ((p.merge keep drop).MeetsChains s ↔ p.MeetsChains s) := by
  obtain ⟨hover, hsame, _, _⟩ :=
    mergeStrengths_spec (hp.mergeWeight hkeep drop) hkeep hne
  have hchains := ((sameConstraints_mergeWeight p keep drop).trans hsame).chains
  unfold merge
  rw [mergeHelpers_eq, ← hchains]
  refine ⟨size_mergeChains_le hover, fun s hs => (meetsChains_mergeChains hover hne hs).trans ?_⟩
  unfold MeetsChains
  rw [hchains]

end Whole

section Objective

variable {live : Nat → Prop} {p : Problem ℚ} {keep drop : Nat} {x : Nat → ℚ}

/-- A moved weight counts the same at equal values. -/
theorem objective_mergeWeight (hx : x drop = x keep) :
    (p.mergeWeight keep drop).objective x = p.objective x := by
  unfold mergeWeight
  split
  · next w hw =>
    rw [objective_addWeight, objective_eraseWeight]
    simp [weight, hw, hx]
  · rfl

/-- Moved couplings count the same at equal values. -/
theorem objective_mergeStrengths (hp : p.Over live) (hne : keep ≠ drop) (hx : x drop = x keep)
    (hvalue : p.mode.IsValue (x keep)) :
    (p.mergeStrengths keep drop).objective x = p.objective x := by
  refine (foldl_touching hp (strengths_moveStrength hne)
    (motive := fun p' => p'.mode = p.mode ∧ p'.objective x = p.objective x) ⟨rfl, rfl⟩
    (fun p' q j hq hdrop hget ⟨hmode, hobjective⟩ => ?_)).1.2
  have hproduct : x q.lo * x q.hi = x keep * x (q.other drop) := by
    rw [← hx, ← Pair.mul_of x drop, Pair.of_other hq.1 hdrop]
  refine ⟨(sameConstraints_addStrength ..).mode.trans hmode, ?_⟩
  unfold moveStrength
  rw [objective_addStrength _ _ _ _ _ fun _ => ?_, objective_eraseStrength hget, hobjective]
  · simp only
    rw [mul_assoc, mul_assoc, hproduct]
    ring
  · simpa only [hmode] using hvalue

/-- A merge keeps the objective at equal values. -/
theorem objective_merge (hp : p.Over live) (hkeep : live keep) (hne : keep ≠ drop)
    (hx : x drop = x keep) (hvalue : p.mode.IsValue (x keep)) :
    (p.merge keep drop).objective x = p.objective x := by
  have hweight := objective_mergeWeight (p := p) hx
  have hmode := (sameConstraints_mergeWeight p keep drop).mode
  have hstrength := objective_mergeStrengths (hp.mergeWeight hkeep drop) hne hx
    (by rwa [hmode])
  unfold merge
  rw [mergeHelpers_eq]
  exact hstrength.trans hweight

end Objective

end Problem

end SpinGlass

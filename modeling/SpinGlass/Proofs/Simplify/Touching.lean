import SpinGlass.Problem.Simplify
import SpinGlass.Proofs.Problem.Indices

/-!
# Passes over the quadratic terms of a variable

Merging a variable into another and putting a spin for it both go over its quadratic terms and
erase one after the other. The terms still to come stay as they were, because what a step adds
elsewhere does not touch the variable. This gives one induction principle for both passes.
-/

namespace SpinGlass.Problem

variable {K : Type} {live : Nat → Prop} {p : Problem K} {d : Nat}
  {step : Problem K → Pair × K → Problem K}

/-- Steps over the terms of `d` that are still stored, each of which erases its term and leaves the
other terms of `d` alone, keep what every step keeps and leave no term of `d`. -/
theorem foldl_of_terms
    (hframe : ∀ p' q j other, q.Joins live → q.contains d = true → other.contains d = true →
      (step p' (q, j)).strengths.get? other = if other = q then none else p'.strengths.get? other)
    {motive : Problem K → Prop}
    (hstep : ∀ p' q j, q.Joins live → q.contains d = true → p'.strengths.get? q = some j →
      motive p' → motive (step p' (q, j)))
    {terms : List (Pair × K)} (hnodup : (terms.map (·.1)).Nodup)
    (hjoins : ∀ e ∈ terms, e.1.Joins live)
    (hterms : ∀ q j, q.contains d = true ∧ p.strengths.get? q = some j ↔ (q, j) ∈ terms)
    (hstart : motive p) :
    motive (terms.foldl step p) ∧
      ∀ q, q.contains d = true → (terms.foldl step p).strengths.get? q = none := by
  induction terms generalizing p with
  | nil =>
    refine ⟨hstart, fun q hq => Option.eq_none_iff_forall_ne_some.mpr fun j hj => ?_⟩
    simpa using (hterms q j).mp ⟨hq, hj⟩
  | cons e rest ih =>
    obtain ⟨q, j⟩ := e
    have hqj := (hterms q j).mpr List.mem_cons_self
    have hq := hjoins (q, j) List.mem_cons_self
    have hnotin : q ∉ rest.map (·.1) := (List.nodup_cons.mp hnodup).1
    refine ih (List.nodup_cons.mp hnodup).2 (fun e he => hjoins e (List.mem_cons_of_mem _ he))
      (fun other i => ?_) (hstep p q j hq hqj.1 hqj.2 hstart)
    constructor
    · rintro ⟨hother, hget⟩
      rw [hframe p q j other hq hqj.1 hother] at hget
      split at hget
      · cases hget
      · next hne =>
        rcases List.mem_cons.mp ((hterms other i).mp ⟨hother, hget⟩) with heq | hmem
        · cases heq
          exact absurd rfl hne
        · exact hmem
    · intro hmem
      have hget := (hterms other i).mpr (List.mem_cons_of_mem _ hmem)
      have hne : other ≠ q := fun heq => hnotin (heq ▸ List.mem_map.mpr ⟨_, hmem, rfl⟩)
      refine ⟨hget.1, ?_⟩
      rw [hframe p q j other hq hqj.1 hget.1, if_neg hne]
      exact hget.2

/-- Going over all quadratic terms of `d`, by steps that erase their term and leave the other terms
of `d` alone, keeps what every step keeps and leaves no term of `d`. -/
theorem foldl_touching (hp : p.Over live)
    (hframe : ∀ p' q j other, q.Joins live → q.contains d = true → other.contains d = true →
      (step p' (q, j)).strengths.get? other = if other = q then none else p'.strengths.get? other)
    {motive : Problem K → Prop} (hstart : motive p)
    (hstep : ∀ p' q j, q.Joins live → q.contains d = true → p'.strengths.get? q = some j →
      motive p' → motive (step p' (q, j))) :
    motive ((p.strengths.entries.filter fun e => e.1.contains d).foldl step p) ∧
      ∀ q, q.contains d = true →
        ((p.strengths.entries.filter fun e => e.1.contains d).foldl step p).strengths.get? q =
          none := by
  refine foldl_of_terms hframe hstep ?_ (fun e he => ?_) (fun q j => ?_) hstart
  · exact List.Nodup.sublist (List.filter_sublist.map _) p.strengths.nodup_keys
  · exact hp.strengths _ _ (Table.get?_eq_some_iff.mpr (List.mem_filter.mp he).1)
  · rw [List.mem_filter, Table.get?_eq_some_iff, and_comm]

end SpinGlass.Problem

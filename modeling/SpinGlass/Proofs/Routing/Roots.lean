import SpinGlass.Embedding.Router
import Mathlib.Data.List.Induction

/-!
# Choosing roots

The best roots of an attempt are gathered in one pass over the slots. There are none only if no
slot has a cost, and the first attempt that has any is the one that a root is drawn from.
-/

namespace SpinGlass

namespace Generator

variable {α : Type}

/-- The high half of a product with a word is below the other factor. -/
theorem drawBelow_lt {n : Nat} (hn : 0 < n) (zone tries : Nat) (g : Generator) :
    (drawBelow n zone tries g).1 < n := by
  induction tries generalizing g with
  | zero => exact hn
  | succ tries ih =>
    unfold drawBelow
    generalize g.nextWord = draw
    obtain ⟨word, g⟩ := draw
    dsimp only
    split
    · exact Nat.div_lt_of_lt_mul (Nat.mul_lt_mul_of_pos_right word.toNat_lt_size hn)
    · exact ih g

theorem nextBelow_lt {n : Nat} (hn : 0 < n) (g : Generator) : (g.nextBelow n).1 < n :=
  drawBelow_lt hn _ _ g

/-- Something is chosen from every list that is not empty, and it is one of the list. -/
theorem choose_cases (g : Generator) (xs : List α) :
    xs = [] ∧ g.choose xs = (none, g) ∨ ∃ x ∈ xs, ∃ g', g.choose xs = (some x, g') := by
  cases xs with
  | nil => exact .inl ⟨rfl, rfl⟩
  | cons x rest =>
    right
    have hlt := nextBelow_lt (Nat.zero_lt_succ rest.length) g
    refine ⟨(x :: rest)[(g.nextBelow (x :: rest).length).1], List.getElem_mem hlt,
      (g.nextBelow (x :: rest).length).2, ?_⟩
    unfold choose
    rw [← List.getElem?_eq_getElem hlt]
    rfl

end Generator

namespace Placement

variable {K : Type}

section Candidates

/-- The candidates after some slots, for what each slot costs. -/
structure Candidates.Gathered (cost : Nat → Option K) (slots : List Nat) (c : Candidates K) :
    Prop where
  best_eq_none_iff : c.best = none ↔ ∀ slot ∈ slots, cost slot = none
  roots_eq_nil_iff : c.roots = [] ↔ c.best = none
  mem_roots : ∀ slot ∈ c.roots, slot ∈ slots ∧ (cost slot).isSome = true

variable {cost : Nat → Option K} {slots : List Nat} {c : Candidates K} {slot : Nat}

/-- A slot without a cost is passed over. -/
theorem Candidates.Gathered.skip (h : c.Gathered cost slots) (hcost : cost slot = none) :
    c.Gathered cost (slots ++ [slot]) := by
  refine ⟨?_, h.roots_eq_nil_iff, fun r hr => ?_⟩
  · rw [h.best_eq_none_iff, List.forall_mem_append, List.forall_mem_singleton]
    exact (and_iff_left hcost).symm
  · exact ⟨List.mem_append_left _ (h.mem_roots r hr).1, (h.mem_roots r hr).2⟩

variable [Coefficient K]

/-- Taking a root into account leaves a best one. It stands alone, joins the others or is left
out. -/
theorem consider_cases (c : Candidates K) (slot : Nat) (x : K) :
    (consider c slot x).best ≠ none ∧ ((consider c slot x).roots = [slot] ∨
      (consider c slot x).roots = slot :: c.roots ∨
      (consider c slot x).roots = c.roots ∧ c.best ≠ none) := by
  unfold consider
  cases hbest : c.best with
  | none => simp
  | some best =>
    dsimp only
    split
    · simp
    · split <;> simp [hbest]

/-- A slot with a cost is taken into account. -/
theorem Candidates.Gathered.consider (h : c.Gathered cost slots) {x : K}
    (hcost : cost slot = some x) :
    (Placement.consider c slot x).Gathered cost (slots ++ [slot]) := by
  obtain ⟨hbest, hroots⟩ := consider_cases c slot x
  refine ⟨iff_of_false hbest fun hall => ?_, iff_of_false ?_ hbest, fun r hr => ?_⟩
  · have hnone := hall slot (List.mem_append_right _ (List.mem_singleton_self _))
    rw [hcost] at hnone
    cases hnone
  · rcases hroots with heq | heq | ⟨heq, hsome⟩ <;> rw [heq]
    · exact List.cons_ne_nil _ _
    · exact List.cons_ne_nil _ _
    · exact fun hnil => hsome (h.roots_eq_nil_iff.mp hnil)
  · have hor : r = slot ∨ r ∈ c.roots := by
      rcases hroots with heq | heq | ⟨heq, _⟩ <;> rw [heq] at hr
      · exact .inl (List.mem_singleton.mp hr)
      · exact List.mem_cons.mp hr
      · exact .inr hr
    rcases hor with rfl | hr
    · exact ⟨List.mem_append_right _ (List.mem_singleton_self _), hcost ▸ rfl⟩
    · exact ⟨List.mem_append_left _ (h.mem_roots r hr).1, (h.mem_roots r hr).2⟩

/-- A pass over slots gathers candidates. -/
theorem gathered_foldl (cost : Nat → Option K) (slots : List Nat) :
    (slots.foldl
      (fun c slot =>
        match cost slot with
        | some x => consider c slot x
        | none => c)
      (⟨none, []⟩ : Candidates K)).Gathered cost slots := by
  induction slots using List.reverseRecOn with
  | nil => exact ⟨by simp, by simp, by simp⟩
  | append_singleton slots slot ih =>
    rw [List.foldl_append, List.foldl_cons, List.foldl_nil]
    cases hcost : cost slot with
    | none => exact ih.skip hcost
    | some x => exact ih.consider hcost

end Candidates

variable [Coefficient K] {bias : RootBias K} {costs : Array K} {routes : List (Search K)}
  {v attempt slot : Nat}

/-- An attempt has no roots only if no slot has a cost. -/
theorem bestRoots_eq_nil_iff : bestRoots bias costs routes v attempt = [] ↔
    ∀ slot < costs.size, rootCost bias costs routes v attempt slot = none := by
  have hgathered := gathered_foldl (rootCost bias costs routes v attempt) (List.range costs.size)
  have hnil := hgathered.roots_eq_nil_iff.trans hgathered.best_eq_none_iff
  simp only [List.mem_range] at hnil
  exact List.reverse_eq_nil_iff.trans hnil

/-- The best roots are slots with a cost. -/
theorem lt_size_of_mem_bestRoots (h : slot ∈ bestRoots bias costs routes v attempt) :
    slot < costs.size ∧ (rootCost bias costs routes v attempt slot).isSome = true := by
  have hgathered := gathered_foldl (rootCost bias costs routes v attempt) (List.range costs.size)
  have hmem := hgathered.mem_roots slot (List.mem_reverse.mp h)
  exact ⟨List.mem_range.mp hmem.1, hmem.2⟩

/-- Either no attempt has a root, or one is chosen from the first attempt that has any. -/
theorem chooseRoot_cases (bias : RootBias K) (costs : Array K) (routes : List (Search K))
    (v left attempt : Nat) (g : Generator) :
    ((chooseRoot bias costs routes v left attempt g).1 = none ∧
      ∀ a, attempt ≤ a → a < attempt + left → bestRoots bias costs routes v a = []) ∨
    ∃ root a, (chooseRoot bias costs routes v left attempt g).1 = some root ∧
      attempt ≤ a ∧ a < attempt + left ∧ root ∈ bestRoots bias costs routes v a ∧
      ∀ a', attempt ≤ a' → a' < a → bestRoots bias costs routes v a' = [] := by
  induction left generalizing attempt g with
  | zero => exact .inl ⟨rfl, fun a hle hlt => absurd hlt (Nat.not_lt.mpr hle)⟩
  | succ left ih =>
    unfold chooseRoot
    rcases g.choose_cases (bestRoots bias costs routes v attempt) with
      ⟨hnil, hchoose⟩ | ⟨root, hroot, g', hchoose⟩
    · rw [hchoose]
      -- the attempts that follow decide
      have hfirst : ∀ a, attempt ≤ a → a < attempt + 1 → bestRoots bias costs routes v a = [] := by
        intro a hle hlt
        rwa [Nat.le_antisymm (Nat.le_of_lt_succ hlt) hle]
      rcases ih (attempt + 1) g with ⟨hnone, hall⟩ | ⟨root, a, hsome, hle, hlt, hroot, hall⟩
      · refine .inl ⟨hnone, fun a hle hlt => ?_⟩
        rcases Nat.lt_or_ge a (attempt + 1) with hless | hgreater
        · exact hfirst a hle hless
        · exact hall a hgreater (by omega)
      · refine .inr ⟨root, a, hsome, by omega, by omega, hroot, fun a' hle' hlt' => ?_⟩
        rcases Nat.lt_or_ge a' (attempt + 1) with hless | hgreater
        · exact hfirst a' hle' hless
        · exact hall a' hgreater hlt'
    · rw [hchoose]
      exact .inr ⟨root, attempt, rfl, Nat.le_refl _, by omega, hroot, fun a hle hlt => by omega⟩

/-- A root that is chosen is a slot. -/
theorem lt_size_of_chooseRoot {left root : Nat} {g g' : Generator}
    (h : chooseRoot bias costs routes v left attempt g = (some root, g')) : root < costs.size := by
  rcases chooseRoot_cases bias costs routes v left attempt g with
    ⟨hnone, _⟩ | ⟨chosen, a, hsome, _, _, hmem, _⟩
  · rw [h] at hnone
    cases hnone
  · rw [h] at hsome
    obtain rfl : root = chosen := Option.some.inj hsome
    exact (lt_size_of_mem_bestRoots hmem).1

end Placement

end SpinGlass

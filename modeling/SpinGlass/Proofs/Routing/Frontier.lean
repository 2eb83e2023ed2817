import SpinGlass.Embedding.ShortestPath
import SpinGlass.Proofs.Coefficient
import Mathlib.Data.List.Induction

/-!
# The frontier of a search

A search keeps the least known cost of every slot, and a queue of the costs at which slots were
entered, in order. This file states what a lookup answers after the start and after a slot was
entered.
-/

namespace SpinGlass

namespace Search

section Queue

/-- An entry that comes before another costs no more, and one that does not costs no less. -/
theorem le_of_comesBefore (a b : ℚ × Nat) :
    (comesBefore a b = true → a.1 ≤ b.1) ∧ (comesBefore a b = false → b.1 ≤ a.1) := by
  have hcompare : Coefficient.totalCompare a.1 b.1 =
      if a.1 < b.1 then .lt else if b.1 < a.1 then .gt else .eq := rfl
  unfold comesBefore
  rw [hcompare]
  by_cases hlt : a.1 < b.1
  · simp [hlt, hlt.le]
  · by_cases hgt : b.1 < a.1
    · simp [hlt, hgt, hgt.le]
    · exact ⟨fun _ => not_lt.mp hgt, fun _ => not_lt.mp hlt⟩

variable {K : Type} [Coefficient K]

/-- Putting an entry at its place adds it to the others. -/
theorem perm_enqueue (entry : K × Nat) (frontier : List (K × Nat)) :
    (enqueue entry frontier).Perm (entry :: frontier) := by
  induction frontier with
  | nil => exact .rfl
  | cons other rest ih =>
    unfold enqueue
    split
    · exact .rfl
    · exact (ih.cons other).trans (.swap entry other rest)

theorem mem_enqueue {entry e : K × Nat} {frontier : List (K × Nat)} :
    e ∈ enqueue entry frontier ↔ e = entry ∨ e ∈ frontier := by
  rw [(perm_enqueue entry frontier).mem_iff, List.mem_cons]

/-- The entries stay in the order of their costs. -/
theorem pairwise_enqueue {entry : ℚ × Nat} {frontier : List (ℚ × Nat)}
    (h : frontier.Pairwise fun a b => a.1 ≤ b.1) :
    (enqueue entry frontier).Pairwise fun a b => a.1 ≤ b.1 := by
  induction frontier with
  | nil => exact List.pairwise_singleton _ _
  | cons other rest ih =>
    obtain ⟨hother, hrest⟩ := List.pairwise_cons.mp h
    unfold enqueue
    cases hbefore : comesBefore entry other with
    | true =>
      have hle := (le_of_comesBefore entry other).1 hbefore
      refine List.pairwise_cons.mpr ⟨fun e he => ?_, h⟩
      rcases List.mem_cons.mp he with rfl | he
      · exact hle
      · exact hle.trans (hother e he)
    | false =>
      refine List.pairwise_cons.mpr ⟨fun e he => ?_, ih hrest⟩
      rcases mem_enqueue.mp he with rfl | he
      · exact (le_of_comesBefore _ other).2 hbefore
      · exact hother e he

end Queue

section Lookup

variable {K : Type} [Coefficient K]

/-- The search after a slot was entered from another. -/
def enter (s : Search K) (slot : Nat) (cost : K) (t : Nat) : Search K where
  distances := s.distances.setIfInBounds t (some cost)
  parents := s.parents.setIfInBounds t (some slot)
  frontier := enqueue (cost, t) s.frontier

variable {s : Search K} {slot t x : Nat} {cost : K}

theorem distance?_enter (ht : t < s.distances.size) (x : Nat) :
    (s.enter slot cost t).distance? x = if x = t then some cost else s.distance? x := by
  unfold distance? enter
  rw [Array.getElem?_setIfInBounds]
  by_cases hx : x = t
  · simp [hx, ht]
  · simp [hx, Ne.symm hx]

theorem parent?_enter (ht : t < s.parents.size) (x : Nat) :
    (s.enter slot cost t).parent? x = if x = t then some slot else s.parent? x := by
  unfold parent? enter
  rw [Array.getElem?_setIfInBounds]
  by_cases hx : x = t
  · simp [hx, ht]
  · simp [hx, Ne.symm hx]

/-- A slot is entered if that is cheaper than all that is known. -/
theorem relax_cases (costs : Array ℚ) (slot : Nat) (reached : ℚ) (s : Search ℚ) (t : Nat) :
    (relax costs slot reached s t = s ∧
      ∃ known ≤ reached + costs.getD t 0, s.distance? t = some known) ∨
    (relax costs slot reached s t = s.enter slot (reached + costs.getD t 0) t ∧
      ∀ known, s.distance? t = some known → reached + costs.getD t 0 < known) := by
  have hfinite : Coefficient.isFinite (reached + costs.getD t 0) = true := rfl
  unfold relax
  cases hknown : s.distance? t with
  | none =>
    right
    simp only [hfinite]
    exact ⟨rfl, fun known hnone => by cases hnone⟩
  | some known =>
    by_cases hlt : reached + costs.getD t 0 < known
    · right
      simp only [hlt, decide_true]
      exact ⟨rfl, fun other hother => Option.some.inj hother ▸ hlt⟩
    · left
      simp only [hlt, decide_false]
      exact ⟨rfl, known, not_lt.mp hlt, rfl⟩

end Lookup

section Start

variable {sources : List Nat} {size : Nat}

theorem size_distances_start (size : Nat) (sources : List Nat) :
    (start size sources : Search ℚ).distances.size = size :=
  List.foldlRecOn sources _ (motive := fun d : Array (Option ℚ) => d.size = size) (by simp)
    fun d hd _ _ => by simp [hd]

/-- At the start only the sources are known. -/
theorem distance?_start (hsources : ∀ x ∈ sources, x < size) (x : Nat) :
    (start size sources : Search ℚ).distance? x = if x ∈ sources then some 0 else none := by
  unfold distance? start
  induction sources using List.reverseRecOn with
  | nil =>
    simp only [List.foldl_nil, Array.getElem?_replicate, List.not_mem_nil, if_false]
    split <;> rfl
  | append_singleton sources last ih =>
    have hlast : last < size := hsources last (List.mem_append_right _ (List.mem_singleton_self _))
    have hsize := size_distances_start size sources
    unfold start at hsize
    rw [List.foldl_append, List.foldl_cons, List.foldl_nil, Array.getElem?_setIfInBounds, hsize]
    by_cases hx : x = last
    · simp [hx, hlast]
    · simpa [hx, Ne.symm hx] using ih fun y hy => hsources y (List.mem_append_left _ hy)

/-- At the start every listing of a source waits once, at no cost. -/
theorem perm_frontier_start (size : Nat) (sources : List Nat) :
    (start size sources : Search ℚ).frontier.Perm (sources.map fun x => (0, x)) := by
  change (sources.foldl (fun f s => enqueue ((0 : ℚ), s) f) []).Perm _
  induction sources using List.reverseRecOn with
  | nil => exact .rfl
  | append_singleton sources last ih =>
    rw [List.foldl_append, List.map_append]
    exact (perm_enqueue _ _).trans ((ih.cons _).trans (List.perm_append_singleton _ _).symm)

end Start

end Search

end SpinGlass

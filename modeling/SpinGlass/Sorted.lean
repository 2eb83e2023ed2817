/-!
# Sorted lists without repetition

Sorting a list and keeping each member once.
-/

namespace SpinGlass

variable {α : Type} [Ord α]

/-- Puts an element at its place in a sorted list, unless it is there already. -/
def insertDistinct (a : α) : List α → List α
  | [] => [a]
  | b :: rest =>
    match compare a b with
    | .lt => a :: b :: rest
    | .eq => b :: rest
    | .gt => b :: insertDistinct a rest

/-- The members of a list, sorted, each once. -/
def sortDistinct (xs : List α) : List α := xs.foldr insertDistinct []

theorem mem_insertDistinct [Std.LawfulEqOrd α] {x a : α} {xs : List α} :
    x ∈ insertDistinct a xs ↔ x = a ∨ x ∈ xs := by
  induction xs with
  | nil => simp [insertDistinct]
  | cons b rest ih =>
    unfold insertDistinct
    split
    · simp
    · next heq =>
      obtain rfl := Std.LawfulEqCmp.eq_of_compare heq
      simp
    · simp [ih, or_left_comm]

theorem mem_sortDistinct [Std.LawfulEqOrd α] {x : α} {xs : List α} :
    x ∈ sortDistinct xs ↔ x ∈ xs := by
  induction xs with
  | nil => rfl
  | cons a rest ih =>
    rw [List.mem_cons, ← ih]
    exact mem_insertDistinct

theorem pairwise_insertDistinct [Std.TransOrd α] [Std.LawfulEqOrd α] {a : α} {xs : List α}
    (h : xs.Pairwise fun x y => compare x y = .lt) :
    (insertDistinct a xs).Pairwise fun x y => compare x y = .lt := by
  induction xs with
  | nil => simp [insertDistinct]
  | cons b rest ih =>
    have hrest : ∀ y ∈ rest, compare b y = .lt := fun y hy => List.rel_of_pairwise_cons h hy
    unfold insertDistinct
    split
    · next hlt =>
      refine h.cons fun y hy => ?_
      rcases List.mem_cons.1 hy with rfl | hy
      · exact hlt
      · exact Std.TransCmp.lt_trans hlt (hrest y hy)
    · exact h
    · next hgt =>
      refine (ih h.of_cons).cons fun y hy => ?_
      rcases mem_insertDistinct.1 hy with rfl | hy
      · exact Std.OrientedCmp.lt_of_gt hgt
      · exact hrest y hy

/-- A sorted list is strictly increasing. -/
theorem pairwise_sortDistinct [Std.TransOrd α] [Std.LawfulEqOrd α] (xs : List α) :
    (sortDistinct xs).Pairwise fun x y => compare x y = .lt := by
  induction xs with
  | nil => exact .nil
  | cons a rest ih => exact pairwise_insertDistinct ih

theorem nodup_sortDistinct [Std.TransOrd α] [Std.LawfulEqOrd α] (xs : List α) :
    (sortDistinct xs).Nodup :=
  (pairwise_sortDistinct xs).imp fun hlt heq => by simp [heq] at hlt

end SpinGlass

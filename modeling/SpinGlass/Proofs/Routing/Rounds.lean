import SpinGlass.Proofs.Routing.Placement

/-!
# Rounds of routing

Every round places all variables anew in some order, so what holds of a sound placement holds
throughout. The chains that a routing returns are those of a placement that passed the test of
validity on the way.
-/

namespace SpinGlass

namespace Generator

variable {α : Type}

theorem perm_shuffleFrom (i : Nat) (xs : Array α) (g : Generator) :
    (shuffleFrom i xs g).1.Perm xs := by
  induction i generalizing xs g with
  | zero => exact .rfl
  | succ i ih =>
    unfold shuffleFrom
    generalize g.nextBelow (i + 2) = draw
    obtain ⟨j, g⟩ := draw
    refine (ih _ g).trans ?_
    unfold Array.swapIfInBounds
    split
    · split
      · exact Array.swap_perm _ _
      · exact .rfl
    · exact .rfl

/-- Shuffling only changes the order. -/
theorem perm_shuffle (g : Generator) (xs : List α) : (g.shuffle xs).1.Perm xs :=
  Array.perm_iff_toList_perm.mp (perm_shuffleFrom (xs.length - 1) xs.toArray g)

end Generator

/-- Chains of a sound placement that is valid. -/
def Placed (logical : LogicalGraph) (target : Target) (chains : List (List Nat)) : Prop :=
  ∃ p : Placement, p.Sound logical target ∧ p.isValid logical target = true ∧
    p.chains.toList = chains

namespace Routing

variable {logical : LogicalGraph} {target : Target}

/-- The placement is sound, and so was the one that the best chains were taken from. -/
structure Sound (r : Routing) (logical : LogicalGraph) (target : Target) : Prop where
  placement : r.placement.Sound logical target
  best : ∀ size chains, r.best = some (size, chains) → Placed logical target chains

/-- The best chains change only to those of a valid placement, and only if these are smaller. -/
theorem improve_cases (r : Routing) (logical : LogicalGraph) (target : Target) :
    (r.improve logical target).2 = r ∨ r.placement.isValid logical target = true ∧
      (∀ size chains, r.best = some (size, chains) → r.placement.totalQubits < size) ∧
      (r.improve logical target).2 =
        { r with best := some (r.placement.totalQubits, r.placement.chains.toList) } := by
  unfold improve
  cases r.placement.isValid logical target with
  | false => exact .inl rfl
  | true =>
    cases hbest : r.best with
    | none => exact .inr ⟨rfl, fun _ _ hsome => (nomatch hsome), rfl⟩
    | some best =>
      by_cases hless : r.placement.totalQubits < best.1
      · refine .inr ⟨rfl, fun size chains hsome => ?_, by simp [hless]⟩
        cases hsome
        exact hless
      · exact .inl (by simp [hless])

/-- Keeping valid chains keeps a routing sound. -/
theorem Sound.improve {r : Routing} (h : r.Sound logical target) :
    (r.improve logical target).2.Sound logical target := by
  rcases r.improve_cases logical target with heq | ⟨hvalid, _, heq⟩ <;> rw [heq]
  · exact h
  · refine ⟨h.placement, fun size chains hbest => ?_⟩
    cases hbest
    exact ⟨r.placement, h.placement, hvalid, rfl⟩

section Run

variable {K : Type} [Coefficient K] {task : RoutingTask K}

/-- Placing all variables anew keeps a routing sound. -/
theorem Sound.placeAll (htarget : task.target.Lawful) {r : Routing}
    (h : r.Sound task.logical task.target) {order : List Nat}
    (horder : ∀ v ∈ order, v < task.logical.size) (g : Generator) (penalty : K) :
    { r with placement := placeAll task penalty order { r.placement with generator := g } }.Sound
      task.logical task.target :=
  ⟨(h.placement.reseed g).placeAll htarget horder penalty, h.best⟩

/-- Rounds of placing keep a routing sound. -/
theorem Sound.rounds (htarget : task.target.Lawful) {r : Routing}
    (h : r.Sound task.logical task.target) {order : List Nat}
    (horder : ∀ v ∈ order, v < task.logical.size) (cancelled : Bool) (left round stale : Nat) :
    (rounds task cancelled left round stale order r).Sound task.logical task.target := by
  induction left generalizing round stale order r with
  | zero => exact h
  | succ left ih =>
    unfold Routing.rounds
    dsimp only
    -- the count of stale rounds only decides when to stop
    generalize (if r.placement.isValid task.logical task.target = true then
      if (r.improve task.logical task.target).1 = true then 0 else stale + 1 else stale) = stale'
    split
    · exact h.improve
    · have hperm := Generator.perm_shuffle
        (r.improve task.logical task.target).2.placement.generator order
      have horder' := fun v hv => horder v (hperm.mem_iff.mp hv)
      exact ih (h.improve.placeAll htarget horder' _ _) horder' _ _

/-- A routing returns the chains of a sound placement that is valid. -/
theorem placed_of_run (htarget : task.target.Lawful) {order : List Nat}
    (horder : ∀ v ∈ order, v < task.logical.size) {maxRounds : Nat} {seed : UInt64}
    {cancelled : Bool} {chains : List (List Nat)}
    (h : run task order maxRounds seed cancelled = some chains) :
    Placed task.logical task.target chains := by
  unfold run at h
  obtain ⟨⟨size, found⟩, hbest, rfl⟩ := Option.map_eq_some_iff.mp h
  have hstart : (Routing.mk (placeAll task initialPenalty order
      (.start task.logical task.target seed)) none).Sound task.logical task.target :=
    ⟨(Placement.sound_start task.logical task.target seed).placeAll htarget horder _,
      fun _ _ hnone => by cases hnone⟩
  exact (hstart.rounds htarget horder cancelled maxRounds 0 0).improve.best size found hbest

end Run

end Routing

end SpinGlass

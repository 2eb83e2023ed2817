import SpinGlass.Embedding.ShortestPath
import SpinGlass.Proofs.Embedding.Connected

/-!
# The way back from a root

The search notes for each slot the slot it was entered from, and it enters neighbours only. So
whatever the costs are, and wherever the way back ends, its slots are coupled one to the next.
-/

namespace SpinGlass

open Relation (ReflTransGen)

/-- A step between neighbouring slots of a chain. -/
abbrev Target.Steps (target : Target) (chain : List Nat) : Nat → Nat → Prop :=
  Embedding.Inside chain fun a b => b ∈ target.neighborSlots a

namespace Search

variable {K : Type} [Coefficient K] {target : Target} {s : Search K}

/-- Every slot with a parent is a neighbour of it. -/
def LeadsBack (target : Target) (s : Search K) : Prop :=
  ∀ slot parent, s.parent? slot = some parent → slot ∈ target.neighborSlots parent

theorem leadsBack_start (target : Target) (size : Nat) (sources : List Nat) :
    (start size sources : Search K).LeadsBack target := by
  intro slot parent h
  unfold parent? start at h
  rw [Array.getElem?_replicate] at h
  split at h <;> cases h

/-- Only the parent of the slot that is entered may change. -/
theorem parents_relax (costs : Array K) (slot : Nat) (reached : K) (s : Search K) (t : Nat) :
    (relax costs slot reached s t).parents = s.parents ∨
      (relax costs slot reached s t).parents = s.parents.setIfInBounds t (some slot) := by
  unfold relax
  cases s.distance? t <;> dsimp only <;> split <;> simp

/-- Entering a slot from a neighbour notes the neighbour. -/
theorem LeadsBack.relax (h : s.LeadsBack target) {slot t : Nat} (ht : t ∈ target.neighborSlots slot)
    (costs : Array K) (reached : K) : (relax costs slot reached s t).LeadsBack target := by
  intro x parent hparent
  unfold parent? at hparent
  rcases parents_relax costs slot reached s t with heq | heq
  · rw [heq] at hparent
    exact h x parent hparent
  · rw [heq, Array.getElem?_setIfInBounds] at hparent
    split at hparent
    · next htx =>
      subst htx
      split at hparent
      · obtain rfl : slot = parent := by simpa using hparent
        exact ht
      · cases hparent
    · exact h x parent hparent

/-- Settling a slot enters its neighbours only. -/
theorem LeadsBack.settle (h : s.LeadsBack target) (costs : Array K) (rounds : Nat) :
    (settle target costs rounds s).LeadsBack target := by
  induction rounds generalizing s with
  | zero => exact h
  | succ rounds ih =>
    unfold Search.settle
    split
    · exact h
    · next reached slot rest _ =>
      refine ih (List.foldlRecOn (motive := LeadsBack target) _ _ ?_ fun r hr t ht =>
        hr.relax ht costs reached)
      exact h

/-- The parents that a search finds lead back along couplers. -/
theorem leadsBack_run (target : Target) (costs : Array K) (sources : List Nat) :
    (run target costs sources).LeadsBack target :=
  (leadsBack_start target _ sources).settle costs _

section Walk

variable {fuel slot u : Nat}

/-- A way back is empty, or it ends with its first slot, or it goes on from the parent. -/
theorem walk_succ_cases (s : Search K) (fuel slot : Nat) :
    s.walk (fuel + 1) slot = [] ∨ s.walk (fuel + 1) slot = [slot] ∨
      ∃ parent, s.parent? slot = some parent ∧
        s.walk (fuel + 1) slot = slot :: s.walk fuel parent := by
  rw [walk]
  split
  · exact .inl rfl
  · split
    · split
      · next parent hparent => exact .inr (.inr ⟨parent, hparent, rfl⟩)
      · exact .inr (.inl rfl)
    · exact .inl rfl

/-- A way back that is not empty begins with its slot. -/
theorem mem_walk_self (h : u ∈ s.walk fuel slot) : slot ∈ s.walk fuel slot := by
  cases fuel with
  | zero => cases h
  | succ fuel =>
    rcases s.walk_succ_cases fuel slot with hwalk | hwalk | ⟨parent, _, hwalk⟩ <;>
      rw [hwalk] at h ⊢
    · cases h
    · exact List.mem_cons_self
    · exact List.mem_cons_self

/-- The slots on a way back are its first one and those on the way back from the parent. -/
theorem mem_walk_succ (h : u ∈ s.walk (fuel + 1) slot) :
    u = slot ∨ ∃ parent, s.parent? slot = some parent ∧ u ∈ s.walk fuel parent ∧
      s.walk (fuel + 1) slot = slot :: s.walk fuel parent := by
  rcases s.walk_succ_cases fuel slot with hwalk | hwalk | ⟨parent, hparent, hwalk⟩ <;>
    rw [hwalk] at h
  · cases h
  · exact .inl (List.mem_singleton.mp h)
  · exact (List.mem_cons.mp h).imp_right fun h => ⟨parent, hparent, h, hwalk⟩

/-- Steps in a chain that has the whole way back lead to each of its slots. -/
theorem LeadsBack.reaches (htarget : target.Lawful) (hs : s.LeadsBack target) {chain : List Nat}
    (hchain : ∀ u ∈ s.walk fuel slot, u ∈ chain) (h : u ∈ s.walk fuel slot) :
    ReflTransGen (target.Steps chain) slot u := by
  induction fuel generalizing slot with
  | zero => cases h
  | succ fuel ih =>
    rcases mem_walk_succ h with rfl | ⟨parent, hparent, hu, hwalk⟩
    · exact .refl
    · rw [hwalk] at hchain
      have hrest : ∀ u ∈ s.walk fuel parent, u ∈ chain := fun u hu =>
        hchain u (List.mem_cons_of_mem _ hu)
      have hstep : target.Steps chain slot parent :=
        ⟨hrest parent (mem_walk_self hu), htarget.symm parent slot (hs slot parent hparent)⟩
      exact .head hstep (ih hrest hu)

/-- The slots on a way back from a slot of the target are slots of the target. -/
theorem LeadsBack.lt_size (htarget : target.Lawful) (hs : s.LeadsBack target)
    (hslot : slot < target.size) (h : u ∈ s.walk fuel slot) : u < target.size := by
  induction fuel generalizing slot with
  | zero => cases h
  | succ fuel ih =>
    rcases mem_walk_succ h with rfl | ⟨parent, hparent, hu, _⟩
    · exact hslot
    · have hback := htarget.symm parent slot (hs slot parent hparent)
      exact ih (htarget.lt_size slot parent hback) hu

end Walk

end Search

end SpinGlass

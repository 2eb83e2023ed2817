import SpinGlass.Proofs.Routing.Totals

/-!
# Counting the uses of slots

A router keeps count of the uses of each slot: it counts down when it takes a chain away and up when
it gives one. Chains are increasing, so no slot is counted twice for one variable, and the count is
the number of variables whose chain has the slot. So there is always a use to count down from, and
counts above one are just the slots that chains share.
-/

namespace SpinGlass.Placement

/-- Counts down from a use of a slot, none where there is no use. -/
def release? (usage : Array Nat) (s : Nat) : Option (Array Nat) :=
  if 0 < usage.getD s 0 then some (usage.modify s (· - 1)) else none

/-- Takes the chain of a variable away if no count underflows. -/
def ripUp? (p : Placement) (v : Nat) : Option Placement :=
  ((p.chain v).foldlM release? p.usage).map fun usage =>
    { p with chains := p.chains.setIfInBounds v [], usage }

/-- Each chain is increasing. -/
def Increasing (p : Placement) : Prop := ∀ v, (p.chain v).Pairwise (· < ·)

/-- A placement whose counts are those of its chains. -/
structure Booked (p : Placement) (logical : LogicalGraph) (target : Target) : Prop where
  /-- The uses of a slot are the variables whose chain has it. -/
  uses : ∀ s < target.size, p.usage[s]? = some (p.users logical s).card
  increasing : p.Increasing
  /-- No count underflows when a chain is taken away. -/
  ripUp? : ∀ v, p.ripUp? v = some (p.ripUp v)
  /-- Slots overlap exactly if some chains do. -/
  overlaps_iff : p.overlaps = 0 ↔ ∀ u v, u ≠ v → (p.chain u).Disjoint (p.chain v)

section Increasing

variable {p q : Placement} {v : Nat} {chain : List Nat}

theorem increasing_start (logical : LogicalGraph) (target : Target) (seed : UInt64) :
    (start logical target seed).Increasing := by
  intro v
  simp only [start, Placement.chain, Array.getD_eq_getD_getElem?, Array.getElem?_replicate]
  split <;> exact .nil

/-- Setting one chain to an increasing one leaves all increasing. -/
theorem Increasing.set (h : p.Increasing) (hchain : chain.Pairwise (· < ·))
    (hchains : q.chains = p.chains.setIfInBounds v chain) : q.Increasing := by
  intro u
  have hu := h u
  simp only [Placement.chain, Array.getD_eq_getD_getElem?] at hu ⊢
  rw [hchains, Array.getElem?_setIfInBounds]
  split
  · split
    · exact hchain
    · exact .nil
  · exact hu

theorem Increasing.ripUp (h : p.Increasing) (v : Nat) : (p.ripUp v).Increasing := h.set .nil rfl

/-- A root and the ways back from it are put in order. -/
theorem pairwise_chainOf {K : Type} [Coefficient K] (size root : Nat) (routes : List (Search K)) :
    (chainOf size root routes).Pairwise (· < ·) :=
  (pairwise_sortDistinct _).imp Nat.compare_eq_lt.mp

/-- Placing a variable anew leaves all chains increasing, whether it gets a root or not. -/
theorem Increasing.place {K : Type} [Coefficient K] (h : p.Increasing) (task : RoutingTask K)
    (v : Nat) (penalty : K) : (p.place task v penalty).Increasing := by
  unfold Placement.place
  dsimp only
  split
  · next root g _ =>
    have hripped : { p.ripUp v with generator := g }.Increasing := h.ripUp v
    exact hripped.set (pairwise_chainOf _ root _) rfl
  · exact h.ripUp v

theorem Routed.increasing {K : Type} [Coefficient K] {task : RoutingTask K} (h : p.Routed task) :
    p.Increasing := by
  induction h with
  | start seed => exact increasing_start task.logical task.target seed
  | place _ _ penalty ih => exact ih.place task _ penalty
  | reseed _ _ ih => exact ih

end Increasing

section Counts

variable {p : Placement} {logical : LogicalGraph} {target : Target} {s v : Nat}

/-- A slot of a chain has a use. -/
theorem Sound.usage_pos (h : p.Sound logical target) (hs : s ∈ p.chain v) :
    0 < p.usage.getD s 0 := by
  have hlt := (h.isChain_chain v).lt_size s hs
  rw [Array.getD_eq_getD_getElem?, h.usage_eq_card hlt, Option.getD_some, Finset.card_pos]
  exact ⟨v, h.mem_users_iff.mpr hs⟩

/-- Counting down from different slots that are all in use does not underflow. -/
theorem foldlM_release? {chain : List Nat} (hnodup : chain.Nodup) {usage : Array Nat}
    (hpos : ∀ s ∈ chain, 0 < usage.getD s 0) :
    chain.foldlM release? usage =
      some (chain.foldl (fun usage s => usage.modify s (· - 1)) usage) := by
  induction chain generalizing usage with
  | nil => rfl
  | cons u rest ih =>
    obtain ⟨hu, hrest⟩ := List.nodup_cons.mp hnodup
    have hfirst : release? usage u = some (usage.modify u (· - 1)) :=
      if_pos (hpos u List.mem_cons_self)
    rw [List.foldlM_cons, hfirst, List.foldl_cons]
    refine ih hrest fun s hs => ?_
    -- the slots that are left have their count still
    have hne : u ≠ s := fun heq => hu (heq ▸ hs)
    have hkept : (usage.modify u (· - 1)).getD s 0 = usage.getD s 0 := by
      rw [Array.getD_eq_getD_getElem?, Array.getElem?_modify, if_neg hne,
        Array.getD_eq_getD_getElem?]
    rw [hkept]
    exact hpos s (List.mem_cons_of_mem _ hs)

theorem Sound.ripUp?_eq (h : p.Sound logical target) (v : Nat) : p.ripUp? v = some (p.ripUp v) := by
  unfold Placement.ripUp?
  rw [foldlM_release? (h.isChain_chain v).nodup fun s hs => h.usage_pos hs]
  rfl

theorem Sound.booked (h : p.Sound logical target) (hincreasing : p.Increasing) :
    p.Booked logical target where
  uses _ hs := h.usage_eq_card hs
  increasing := hincreasing
  ripUp? := h.ripUp?_eq
  overlaps_iff := h.overlaps_eq_zero_iff_disjoint

end Counts

section Routed

variable {K : Type} [Coefficient K] {task : RoutingTask K} {p : Placement}

/-- However variables are placed, the uses of a slot are the variables whose chain has it, chains are
increasing, taking a chain away underflows no count, and no slots overlap exactly if chains are
disjoint. All this holds of a placement in which the chain of a variable was just taken away. -/
theorem booked_of_routed (htarget : task.target.Lawful) (hp : p.Routed task) :
    p.Booked task.logical task.target ∧
      ∀ v < task.logical.size, (p.ripUp v).Booked task.logical task.target := by
  have hsound := hp.sound htarget
  exact ⟨hsound.booked hp.increasing, fun v hv => (hsound.ripUp hv).booked (hp.increasing.ripUp v)⟩

/-- Three variables that are joined to each other share two qubits: two of their chains are not
disjoint, and each can be taken away. -/
theorem booked_of_routed_crowded :
    let logical := (((LogicalGraph.empty 3).addEdge 0 1).addEdge 1 2).addEdge 0 2
    let task : RoutingTask ℚ := ⟨logical, .ofEdges [(0, 1)], .none⟩
    let placed := (((start logical task.target 7).place task 0 2).place task 1 2).place task 2 2
    (∃ u v, u ≠ v ∧ ¬ (placed.chain u).Disjoint (placed.chain v)) ∧
      ∀ v, placed.ripUp? v = some (placed.ripUp v) := by
  intro logical task placed
  have hrouted : placed.Routed task :=
    .place (.place (.place (.start 7) (by decide) 2) (by decide) 2) (by decide) 2
  obtain ⟨hbooked, _⟩ := booked_of_routed (Target.lawful_ofEdges _) hrouted
  have hoverlaps : placed.overlaps ≠ 0 := by decide +kernel
  rw [Ne, hbooked.overlaps_iff] at hoverlaps
  exact ⟨by simpa only [not_forall, exists_prop] using hoverlaps, hbooked.ripUp?⟩

end Routed

end SpinGlass.Placement

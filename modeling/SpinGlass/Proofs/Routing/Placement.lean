import SpinGlass.Proofs.Routing.Paths
import SpinGlass.Proofs.Routing.Roots
import Mathlib.Data.Finset.Card

/-!
# Placing variables

Placing a variable anew takes its old chain away and gives it a root with the ways back to its
neighbours. So every chain is connected, though the router never looks, and the uses of a slot are
the chains that have it. Once no slot is used twice the chains are disjoint.
-/

namespace SpinGlass

open Relation (ReflTransGen)

/-- A list of different slots of a target that are connected in it. -/
structure Target.IsChain (target : Target) (chain : List Nat) : Prop where
  nodup : chain.Nodup
  lt_size : ∀ s ∈ chain, s < target.size
  connected : chain ≠ [] → ∃ root ∈ chain, ∀ s ∈ chain, ReflTransGen (target.Steps chain) root s

namespace Placement

section Counting

/-- Changing the counts of different slots, each once. -/
theorem getD_foldl_modify (f : Nat → Nat) {chain : List Nat} (hnodup : chain.Nodup)
    {usage : Array Nat} {s : Nat} (hs : s < usage.size) :
    (chain.foldl (fun usage u => usage.modify u f) usage).getD s 0 =
      if s ∈ chain then f (usage.getD s 0) else usage.getD s 0 := by
  induction chain generalizing usage with
  | nil => rfl
  | cons u rest ih =>
    obtain ⟨hu, hrest⟩ := List.nodup_cons.mp hnodup
    have hmodify : (usage.modify u f).getD s 0 =
        if s = u then f (usage.getD s 0) else usage.getD s 0 := by
      simp only [Array.getD_eq_getD_getElem?, Array.getElem?_modify, eq_comm]
      split <;> simp [hs]
    rw [List.foldl_cons, ih hrest (by simpa using hs), hmodify]
    by_cases hsu : s = u
    · subst hsu
      simp [hu]
    · simp [hsu]

theorem size_foldl_modify (f : Nat → Nat) (chain : List Nat) (usage : Array Nat) :
    (chain.foldl (fun usage u => usage.modify u f) usage).size = usage.size :=
  List.foldlRecOn _ _ (motive := fun u : Array Nat => u.size = usage.size) rfl
    fun _ hsize _ _ => Array.size_modify.trans hsize

end Counting

/-- The variables whose chain has a slot. -/
def users (p : Placement) (logical : LogicalGraph) (s : Nat) : Finset Nat :=
  (Finset.range logical.size).filter fun v => s ∈ p.chain v

/-- Every variable has a chain of slots or none, and the uses of a slot are the chains with it. -/
structure Sound (p : Placement) (logical : LogicalGraph) (target : Target) : Prop where
  chains_size : p.chains.size = logical.size
  usage_size : p.usage.size = target.size
  isChain : ∀ chain ∈ p.chains.toList, target.IsChain chain
  usage : ∀ s < target.size, p.usage.getD s 0 = p.chains.toList.countP (·.contains s)

section Steps

variable {p : Placement} {logical : LogicalGraph} {target : Target}

theorem isChain_nil (target : Target) : target.IsChain [] :=
  ⟨.nil, fun _ hs => absurd hs List.not_mem_nil, fun h => absurd rfl h⟩

theorem sound_start (logical : LogicalGraph) (target : Target) (seed : UInt64) :
    (start logical target seed).Sound logical target where
  chains_size := by simp [start]
  usage_size := by simp [start]
  isChain chain hchain := by
    have hmem : chain ∈ List.replicate logical.size [] := by simpa [start] using hchain
    have hnil : chain = [] := (List.mem_replicate.mp hmem).2
    exact hnil ▸ isChain_nil target
  usage s hs := by simp [start, hs, List.countP_replicate]

theorem chain_eq_getElem {v : Nat} (hv : v < p.chains.toList.length) :
    p.chain v = p.chains.toList[v] := by
  simp only [Array.length_toList] at hv
  simp [Placement.chain, hv]

/-- The chain of a variable is a chain. -/
theorem Sound.isChain_chain (h : p.Sound logical target) (v : Nat) :
    target.IsChain (p.chain v) := by
  by_cases hv : v < p.chains.toList.length
  · rw [chain_eq_getElem hv]
    exact h.isChain _ (List.getElem_mem hv)
  · have hnil : p.chain v = [] := by
      simp only [Array.length_toList] at hv
      simp [Placement.chain, hv]
    exact hnil ▸ isChain_nil target

/-- The chains after one of them was set are the others and the new one. -/
theorem isChain_set (h : p.Sound logical target) {chain : List Nat} (hchain : target.IsChain chain)
    (v : Nat) : ∀ c ∈ (p.chains.setIfInBounds v chain).toList, target.IsChain c := by
  intro c hc
  rw [Array.toList_setIfInBounds] at hc
  rcases List.mem_or_eq_of_mem_set hc with hc | rfl
  · exact h.isChain c hc
  · exact hchain

/-- Taking a chain away keeps the counts. -/
theorem Sound.ripUp (h : p.Sound logical target) {v : Nat} (hv : v < logical.size) :
    (p.ripUp v).Sound logical target where
  chains_size := by simp [Placement.ripUp, h.chains_size]
  usage_size := (size_foldl_modify _ _ _).trans h.usage_size
  isChain := isChain_set h (isChain_nil target) v
  usage s hs := by
    have hlength : v < p.chains.toList.length := by simpa [h.chains_size] using hv
    unfold Placement.ripUp
    rw [getD_foldl_modify _ (h.isChain_chain v).nodup (h.usage_size ▸ hs), h.usage s hs,
      Array.toList_setIfInBounds, List.countP_set hlength, ← chain_eq_getElem hlength]
    by_cases hmem : s ∈ p.chain v <;> simp [hmem]

/-- A ripped up variable has no chain. -/
theorem chain_ripUp (h : p.Sound logical target) {v : Nat} (hv : v < logical.size) :
    (p.ripUp v).chain v = [] := by
  rw [← h.chains_size] at hv
  simp [Placement.ripUp, Placement.chain, hv]

/-- Giving a chain to a variable without one keeps the counts. -/
theorem Sound.put (h : p.Sound logical target) {v : Nat} (hv : v < logical.size)
    (hnil : p.chain v = []) {chain : List Nat} (hchain : target.IsChain chain) :
    (p.put v chain).Sound logical target where
  chains_size := by simp [Placement.put, h.chains_size]
  usage_size := (size_foldl_modify _ _ _).trans h.usage_size
  isChain := isChain_set h hchain v
  usage s hs := by
    have hlength : v < p.chains.toList.length := by simpa [h.chains_size] using hv
    unfold Placement.put
    rw [getD_foldl_modify _ hchain.nodup (h.usage_size ▸ hs), h.usage s hs,
      Array.toList_setIfInBounds, List.countP_set hlength, ← chain_eq_getElem hlength, hnil]
    by_cases hmem : s ∈ chain <;> simp [hmem]

/-- The state of the generator does not matter. -/
theorem Sound.reseed (h : p.Sound logical target) (g : Generator) :
    { p with generator := g }.Sound logical target :=
  ⟨h.chains_size, h.usage_size, h.isChain, h.usage⟩

end Steps

section Users

variable {p : Placement} {logical : LogicalGraph} {target : Target} {s v : Nat}

/-- Only the variables of the graph have chains. -/
theorem Sound.lt_size_of_mem (h : p.Sound logical target) (hs : s ∈ p.chain v) :
    v < logical.size := by
  by_contra hv
  have hsize : p.chains.size ≤ v := h.chains_size ▸ Nat.not_lt.mp hv
  simp [Placement.chain, Array.getD_eq_getD_getElem?, hsize] at hs

theorem Sound.mem_users_iff (h : p.Sound logical target) :
    v ∈ p.users logical s ↔ s ∈ p.chain v := by
  simp only [users, Finset.mem_filter, Finset.mem_range]
  exact and_iff_right_of_imp h.lt_size_of_mem

/-- To count the users of a slot is to count the chains that have it. -/
theorem Sound.card_users (h : p.Sound logical target) (s : Nat) :
    (p.users logical s).card = p.chains.toList.countP (·.contains s) := by
  have hchains : p.chains.toList = (List.range logical.size).map p.chain := by
    refine List.ext_getElem (by simp [h.chains_size]) fun v hv _ => ?_
    rw [List.getElem_map, List.getElem_range, chain_eq_getElem hv]
  rw [hchains, List.countP_map, List.countP_eq_length_filter]
  have hfilter : (List.range logical.size).filter ((·.contains s) ∘ p.chain) =
      (List.range logical.size).filter (s ∈ p.chain ·) :=
    List.filter_congr fun v _ => by simp
  rw [hfilter]
  rfl

theorem Sound.usage_eq_card (h : p.Sound logical target) (hs : s < target.size) :
    p.usage[s]? = some (p.users logical s).card := by
  have hlt : s < p.usage.size := h.usage_size.symm ▸ hs
  rw [h.card_users, ← h.usage s hs]
  simp [hlt]

/-- No slots overlap exactly if no slot has two users. -/
theorem Sound.overlaps_eq_zero_iff (h : p.Sound logical target) :
    p.overlaps = 0 ↔ ∀ s < target.size, (p.users logical s).card ≤ 1 := by
  unfold overlaps
  rw [List.length_eq_zero_iff, List.filter_eq_nil_iff]
  constructor
  · intro hnone s hs
    have hmem : (p.users logical s).card ∈ p.usage.toList :=
      Array.mem_toList_iff.mpr (Array.mem_of_getElem? (h.usage_eq_card hs))
    simpa using hnone _ hmem
  · intro hle uses huses
    obtain ⟨s, hs, rfl⟩ := Array.mem_iff_getElem.mp (Array.mem_toList_iff.mp huses)
    have hlt : s < target.size := h.usage_size ▸ hs
    have hcard : p.usage[s] = (p.users logical s).card := by
      have hget := h.usage_eq_card hlt
      rwa [Array.getElem?_eq_getElem hs, Option.some.injEq] at hget
    simpa [hcard] using hle s hlt

/-- No slots overlap exactly if no two chains have a slot in common. -/
theorem Sound.overlaps_eq_zero_iff_disjoint (h : p.Sound logical target) :
    p.overlaps = 0 ↔ ∀ u v, u ≠ v → (p.chain u).Disjoint (p.chain v) := by
  simp only [h.overlaps_eq_zero_iff, Finset.card_le_one, h.mem_users_iff]
  constructor
  · intro hone u v hne s hu hv
    exact hne (hone s ((h.isChain_chain u).lt_size s hu) u hu v hv)
  · intro hdisjoint s _ u hu v hv
    by_contra hne
    exact hdisjoint u v hne hu hv

/-- Where no slots overlap the chains are disjoint, as they stand in the list. -/
theorem Sound.disjoint (h : p.Sound logical target) (hoverlaps : p.overlaps = 0) :
    p.chains.toList.Pairwise List.Disjoint := by
  rw [List.pairwise_iff_getElem]
  intro u v hu hv hlt
  rw [← chain_eq_getElem hu, ← chain_eq_getElem hv]
  exact h.overlaps_eq_zero_iff_disjoint.mp hoverlaps u v hlt.ne

end Users

section Place

variable {K : Type} [Coefficient K]

variable {task : RoutingTask K} {p : Placement}

/-- A root and the ways back from it are a chain. -/
theorem isChain_chainOf {target : Target} (htarget : target.Lawful) {size root : Nat}
    (hroot : root < target.size) {routes : List (Search K)}
    (hroutes : ∀ route ∈ routes, route.LeadsBack target) :
    target.IsChain (chainOf size root routes) := by
  have hmem : ∀ s, s ∈ chainOf size root routes ↔
      s = root ∨ ∃ route ∈ routes, s ∈ route.walk size root := by
    intro s
    rw [chainOf, mem_sortDistinct, List.mem_cons, List.mem_flatMap]
  refine ⟨nodup_sortDistinct _, fun s hs => ?_, fun _ => ⟨root, (hmem root).mpr (.inl rfl),
    fun s hs => ?_⟩⟩
  · rcases (hmem s).mp hs with rfl | ⟨route, hroute, hs⟩
    · exact hroot
    · exact (hroutes route hroute).lt_size htarget hroot hs
  · rcases (hmem s).mp hs with rfl | ⟨route, hroute, hs⟩
    · exact .refl
    · exact (hroutes route hroute).reaches htarget
        (fun u hu => (hmem u).mpr (.inr ⟨route, hroute, hu⟩)) hs

/-- Placing a variable anew keeps a placement sound. -/
theorem Sound.place (htarget : task.target.Lawful) (h : p.Sound task.logical task.target) {v : Nat}
    (hv : v < task.logical.size) (penalty : K) :
    (p.place task v penalty).Sound task.logical task.target := by
  have hripped := h.ripUp hv
  unfold Placement.place
  dsimp only
  split
  · next root g hchoose =>
    have hroot := lt_size_of_chooseRoot hchoose
    rw [slotCosts, Array.size_map, hripped.usage_size] at hroot
    refine (hripped.reseed g).put hv (chain_ripUp h hv) (isChain_chainOf htarget hroot ?_)
    intro route hroute
    obtain ⟨u, _, rfl⟩ := List.mem_map.mp hroute
    exact Search.leadsBack_run task.target _ _
  · next g _ => exact hripped.reseed g

/-- Placing variables one after the other keeps a placement sound. -/
theorem Sound.placeAll (htarget : task.target.Lawful) (h : p.Sound task.logical task.target)
    {order : List Nat} (horder : ∀ v ∈ order, v < task.logical.size) (penalty : K) :
    (Routing.placeAll task penalty order p).Sound task.logical task.target :=
  List.foldlRecOn (motive := fun p : Placement => p.Sound task.logical task.target) order _ h
    fun _ hp v hv => hp.place htarget (horder v hv) penalty

end Place

end Placement

end SpinGlass

import SpinGlass.Proofs.Routing.Placement
import SpinGlass.Proofs.Routing.Shortest
import SpinGlass.Proofs.Embedding.Connected

/-!
# Where a variable can be placed

The total of a slot is what a chain rooted there costs. A slot has one exactly if every neighbour
that is placed reaches it, so in a connected target every slot has a total. A bias only decides in
which attempt a slot is a candidate: a variable is left without a chain exactly if no attempt has a
slot with a total within its bounds.
-/

namespace SpinGlass

open Relation (ReflTransGen)

namespace Target

/-- There is a qubit, and couplers lead from each qubit to all others. -/
def Connected (t : Target) : Prop := (Embedding.chainGraph t t.qubits.toList).Connected

theorem mem_toList_qubits {t : Target} {s : Nat} (hs : s < t.size) :
    t.qubit s ∈ t.qubits.toList := by
  have hs : s < t.qubits.size := hs
  simp [qubit, hs]

/-- Where the qubits are connected so are the slots. -/
theorem Lawful.reachable_slotGraph {t : Target} (h : t.Lawful) (hconnected : t.Connected)
    {s u : Nat} (hs : s < t.size) (hu : u < t.size) : t.slotGraph.Reachable s u := by
  have hslot : ∀ x < t.size, (t.slot? (t.qubit x)).getD 0 = x := fun x hx => by
    rw [h.slot?_eq_some_iff.mpr ⟨hx, rfl⟩, Option.getD_some]
  have hstep : ∀ a b : {q // q ∈ t.qubits.toList},
      (Embedding.chainGraph t t.qubits.toList).Adj a b →
        t.slotGraph.Adj ((t.slot? a.1).getD 0) ((t.slot? b.1).getD 0) := by
    rintro ⟨a, _⟩ ⟨b, _⟩ hadj
    obtain ⟨x, y, rfl, rfl, hxy⟩ := h.hasEdge_iff.mp (h.graph_adj.mp hadj)
    rw [hslot x (h.lt_size y x (h.symm x y hxy)), hslot y (h.lt_size x y hxy)]
    exact h.slotGraph_adj.mpr hxy
  have hreach := hconnected.preconnected ⟨t.qubit s, mem_toList_qubits hs⟩
    ⟨t.qubit u, mem_toList_qubits hu⟩
  have hsteps : ReflTransGen t.slotGraph.Adj ((t.slot? (t.qubit s)).getD 0)
      ((t.slot? (t.qubit u)).getD 0) :=
    ((SimpleGraph.reachable_iff_reflTransGen _ _).mp hreach).lift _ hstep
  rw [hslot s hs, hslot u hu] at hsteps
  exact (SimpleGraph.reachable_iff_reflTransGen _ _).mpr hsteps

/-- A connected target has a slot. -/
theorem Connected.size_pos {t : Target} (h : t.Connected) : 0 < t.size := by
  obtain ⟨q, hq⟩ := h.nonempty
  exact Array.size_pos_of_mem (Array.mem_toList_iff.mp hq)

end Target

namespace Placement

section Totals

variable {K : Type} [Coefficient K]

/-- The paths from the chains of the neighbours that are placed. -/
def routes (task : RoutingTask K) (p : Placement) (v : Nat) (costs : Array K) : List (Search K) :=
  ((task.logical.neighbors v).filter fun u => !(p.chain u).isEmpty).map fun u =>
    Search.run task.target costs (p.chain u)

/-- What a chain for a variable costs in all if it is rooted at a slot. -/
def total (task : RoutingTask K) (p : Placement) (v : Nat) (penalty : K) (slot : Nat) : Option K :=
  let p := p.ripUp v
  rootTotal (p.slotCosts penalty) (p.routes task v (p.slotCosts penalty)) slot

/-- The root that a variable gets if it is placed anew. -/
def root? (task : RoutingTask K) (p : Placement) (v : Nat) (penalty : K) : Option Nat :=
  let p := p.ripUp v
  (chooseRoot task.bias (p.slotCosts penalty) (p.routes task v (p.slotCosts penalty)) v
    task.bias.attempts 0 p.generator).1

/-- The placements that a router goes through. -/
inductive Routed (task : RoutingTask K) : Placement → Prop
  | start (seed : UInt64) : Routed task (start task.logical task.target seed)
  | place {p : Placement} (h : Routed task p) {v : Nat} (hv : v < task.logical.size) (penalty : K) :
    Routed task (p.place task v penalty)
  | reseed {p : Placement} (h : Routed task p) (g : Generator) :
    Routed task { p with generator := g }

variable {task : RoutingTask K} {p : Placement} {v slot : Nat} {penalty : K}

theorem Routed.sound (htarget : task.target.Lawful) (h : Routed task p) :
    p.Sound task.logical task.target := by
  induction h with
  | start seed => exact sound_start task.logical task.target seed
  | place _ hv penalty ih => exact ih.place htarget hv penalty
  | reseed _ g ih => exact ih.reseed g

theorem chain_put (hv : v < p.chains.size) (chain : List Nat) :
    (p.put v chain).chain v = chain := by
  simp [put, Placement.chain, hv]

/-- A variable is left without a chain if it gets no root. Else its chain has the root. -/
theorem chain_place_cases (task : RoutingTask K) (hsound : p.Sound task.logical task.target)
    (hv : v < task.logical.size) (penalty : K) :
    p.root? task v penalty = none ∧ (p.place task v penalty).chain v = [] ∨
      ∃ root, p.root? task v penalty = some root ∧ root ∈ (p.place task v penalty).chain v := by
  unfold root? Placement.place routes
  dsimp only
  split
  · next root g hchoose =>
    have hsize : v < (p.ripUp v).chains.size := (hsound.ripUp hv).chains_size.symm ▸ hv
    refine .inr ⟨root, congrArg Prod.fst hchoose, ?_⟩
    rw [chain_put (p := { p.ripUp v with generator := g }) hsize, chainOf, mem_sortDistinct]
    exact List.mem_cons_self
  · next g hchoose =>
    exact .inl ⟨congrArg Prod.fst hchoose, chain_ripUp hsound hv⟩

theorem chain_place_eq_nil_iff (hsound : p.Sound task.logical task.target)
    (hv : v < task.logical.size) :
    (p.place task v penalty).chain v = [] ↔ p.root? task v penalty = none := by
  rcases chain_place_cases task hsound hv penalty with ⟨hnone, hnil⟩ | ⟨root, hsome, hmem⟩
  · exact iff_of_true hnil hnone
  · exact iff_of_false (List.ne_nil_of_mem hmem) (hsome ▸ Option.some_ne_none root)

/-- A root has a total if all paths lead to it. -/
theorem isSome_rootTotal_iff {costs : Array K} {routes : List (Search K)} :
    (rootTotal costs routes slot).isSome = true ↔
      ∀ route ∈ routes, (route.distance? slot).isSome = true := by
  unfold rootTotal
  induction routes using List.reverseRecOn with
  | nil => simp
  | append_singleton routes route ih =>
    rw [List.foldl_append, List.foldl_cons, List.foldl_nil, List.forall_mem_append,
      List.forall_mem_singleton, ← ih]
    split
    · next total d htotal hd =>
      rw [htotal, hd]
      split <;> simp
    · next hmissing =>
      refine iff_of_false (by simp) ?_
      rintro ⟨htotal, hd⟩
      obtain ⟨total, htotal⟩ := Option.isSome_iff_exists.mp htotal
      obtain ⟨d, hd⟩ := Option.isSome_iff_exists.mp hd
      exact hmissing total d htotal hd

end Totals

section Exact

variable {task : RoutingTask ℚ} {p : Placement} {v slot : Nat} {penalty : ℚ}

theorem slotCosts_pos (hpenalty : 0 < penalty) (hslot : slot < p.usage.size) :
    0 < (p.slotCosts penalty).getD slot 0 := by
  have hcost : (p.slotCosts penalty).getD slot 0 =
      if p.usage[slot] = 0 then 1 else penalty ^ p.usage[slot] := by
    simp [slotCosts, hslot, Coefficient.power_eq_pow]
  rw [hcost]
  split
  · exact one_pos
  · exact pow_pos hpenalty _

/-- In a connected target every slot has a total. -/
theorem isSome_total_of_connected (htarget : task.target.Lawful)
    (hconnected : task.target.Connected) (hsound : p.Sound task.logical task.target)
    (hv : v < task.logical.size) (hpenalty : 0 < penalty) (hslot : slot < task.target.size) :
    (p.total task v penalty slot).isSome = true := by
  have hripped := hsound.ripUp hv
  have hsize : ((p.ripUp v).slotCosts penalty).size = task.target.size :=
    Array.size_map.trans hripped.usage_size
  refine isSome_rootTotal_iff.mpr fun route hroute => ?_
  obtain ⟨u, hu, rfl⟩ := List.mem_map.mp hroute
  obtain ⟨source, hsource⟩ := List.exists_mem_of_ne_nil ((p.ripUp v).chain u)
    (by simpa using (List.mem_filter.mp hu).2)
  have hsources := (hripped.isChain_chain u).lt_size
  obtain ⟨_, _, hnone, _⟩ := Search.run_isLeast htarget hsize
    (fun x hx => slotCosts_pos hpenalty (hripped.usage_size.symm ▸ hx)) hsources
  rw [← Option.ne_none_iff_isSome, Ne, hnone, ← Ne, ← Set.nonempty_iff_ne_empty]
  obtain ⟨walk⟩ := htarget.reachable_slotGraph hconnected (hsources source hsource) hslot
  exact ⟨_, source, hsource, walk, rfl⟩

/-- In an attempt a slot has a cost if it has a total and is within bounds. -/
theorem isSome_rootCost_iff {bias : RootBias ℚ} {costs : Array ℚ} {routes : List (Search ℚ)}
    {attempt : Nat} : (rootCost bias costs routes v attempt slot).isSome = true ↔
      (rootTotal costs routes slot).isSome = true ∧ (bias.cost v slot attempt).isSome = true := by
  have hfinite : ∀ x : ℚ, Coefficient.isFinite x = true := fun _ => rfl
  unfold rootCost
  cases rootTotal costs routes slot <;> simp [hfinite]

/-- The slots with a total that are within the bounds of an attempt. -/
def candidates (task : RoutingTask ℚ) (p : Placement) (v : Nat) (penalty : ℚ) (attempt : Nat) :
    Set Nat :=
  {slot | slot < task.target.size ∧ (p.total task v penalty slot).isSome = true ∧
    (task.bias.cost v slot attempt).isSome = true}

/-- Either no attempt has a candidate, or the root is one of the first attempt that has any. -/
theorem root?_cases (task : RoutingTask ℚ) (hsound : p.Sound task.logical task.target)
    (hv : v < task.logical.size) (penalty : ℚ) :
    (p.root? task v penalty = none ∧
      ∀ a < task.bias.attempts, p.candidates task v penalty a = ∅) ∨
    ∃ root a, p.root? task v penalty = some root ∧ a < task.bias.attempts ∧
      root ∈ p.candidates task v penalty a ∧ ∀ a' < a, p.candidates task v penalty a' = ∅ := by
  have hsize : ((p.ripUp v).slotCosts penalty).size = task.target.size :=
    Array.size_map.trans (hsound.ripUp hv).usage_size
  have hnil : ∀ a, bestRoots task.bias ((p.ripUp v).slotCosts penalty)
      ((p.ripUp v).routes task v ((p.ripUp v).slotCosts penalty)) v a = [] →
        p.candidates task v penalty a = ∅ := by
    intro a h
    rw [bestRoots_eq_nil_iff, hsize] at h
    refine Set.eq_empty_iff_forall_notMem.mpr fun slot hslot => ?_
    have hcost := isSome_rootCost_iff.mpr hslot.2
    rw [h slot hslot.1] at hcost
    cases hcost
  rcases chooseRoot_cases task.bias ((p.ripUp v).slotCosts penalty)
      ((p.ripUp v).routes task v ((p.ripUp v).slotCosts penalty)) v task.bias.attempts 0
      (p.ripUp v).generator with ⟨hnone, hall⟩ | ⟨root, a, hsome, _, hlt, hmem, hall⟩
  · exact .inl ⟨hnone, fun a ha => hnil a (hall a (Nat.zero_le a) (by omega))⟩
  · obtain ⟨hroot, hcost⟩ := lt_size_of_mem_bestRoots hmem
    refine .inr ⟨root, a, hsome, by omega, ⟨hsize ▸ hroot, isSome_rootCost_iff.mp hcost⟩,
      fun a' ha' => hnil a' (hall a' (Nat.zero_le a') ha')⟩

/-- If every slot is within the bounds of some attempt, there is no root only if no slot has a
total. -/
theorem root?_eq_none_iff (hsound : p.Sound task.logical task.target) (hv : v < task.logical.size)
    (hbias : ∀ slot < task.target.size,
      ∃ a < task.bias.attempts, (task.bias.cost v slot a).isSome = true) :
    p.root? task v penalty = none ↔
      ∀ slot < task.target.size, p.total task v penalty slot = none := by
  rcases root?_cases task hsound hv penalty with
    ⟨hnone, hempty⟩ | ⟨root, a, hroot, _, hmem, _⟩
  · refine iff_of_true hnone fun slot hslot => ?_
    obtain ⟨a, ha, hcost⟩ := hbias slot hslot
    by_contra htotal
    have hmem : slot ∈ p.candidates task v penalty a :=
      ⟨hslot, Option.isSome_iff_ne_none.mpr htotal, hcost⟩
    rw [hempty a ha] at hmem
    exact hmem
  · refine iff_of_false (hroot ▸ Option.some_ne_none root) fun hall => ?_
    have htotal := hmem.2.1
    rw [hall root hmem.1] at htotal
    cases htotal

end Exact

end Placement

end SpinGlass

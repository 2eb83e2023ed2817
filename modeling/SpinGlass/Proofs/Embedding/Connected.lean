import SpinGlass.Embedding.Basic
import SpinGlass.Proofs.Hardware.Target
import Mathlib.Combinatorics.SimpleGraph.Connectivity.Connected

/-!
# Connected chains

A chain is searched from its first qubit. The search keeps a stack of qubits whose neighbours are
still to be visited; the qubits seen are closed off the stack. When the stack is empty they are all
the qubits of the chain that can be reached, so they are as many as the chain has exactly if the
chain is a connected part of the target.
-/

namespace SpinGlass

namespace Embedding

open Relation (ReflTransGen)

/-- A step to a neighbour inside a chain. -/
def Inside (chain : List Nat) (adjacent : Nat → Nat → Prop) (a b : Nat) : Prop :=
  b ∈ chain ∧ adjacent a b

/-- The qubits of a chain and the couplers between them. -/
abbrev chainGraph (target : Target) (chain : List Nat) : SimpleGraph {q // q ∈ chain} :=
  target.graph.induce {q | q ∈ chain}

section Inside

variable {chain : List Nat} {adjacent : Nat → Nat → Prop} {root q : Nat}

/-- Steps inside a chain do not leave it. -/
theorem mem_of_inside (hroot : root ∈ chain) (h : ReflTransGen (Inside chain adjacent) root q) :
    q ∈ chain := by
  cases h with
  | refl => exact hroot
  | tail _ hstep => exact hstep.1

/-- A set of qubits that no step leaves has every qubit that steps lead to. -/
theorem mem_of_closed {seen : List Nat} (hroot : root ∈ seen)
    (hclosed : ∀ a ∈ seen, ∀ b, Inside chain adjacent a b → b ∈ seen)
    (h : ReflTransGen (Inside chain adjacent) root q) : q ∈ seen := by
  induction h with
  | refl => exact hroot
  | tail _ hstep ih => exact hclosed _ ih _ hstep

end Inside

section Search

variable {target : Target} {chain : List Nat} {root : Nat}

/-- A step between coupled qubits of a chain. -/
abbrev Coupled (target : Target) (chain : List Nat) : Nat → Nat → Prop :=
  Inside chain fun a b => target.hasEdge a b = true

/-- A chain is connected if steps from one of its qubits lead to all. -/
theorem connected_iff (htarget : target.Lawful) (hroot : root ∈ chain) :
    (chainGraph target chain).Connected ↔
      ∀ q ∈ chain, ReflTransGen (Coupled target chain) root q := by
  constructor
  · intro hconnected q hq
    have hreach := hconnected.preconnected ⟨root, hroot⟩ ⟨q, hq⟩
    have hsteps := (SimpleGraph.reachable_iff_reflTransGen _ _).mp hreach
    exact hsteps.lift Subtype.val fun a b hadj => ⟨b.2, htarget.graph_adj.mp hadj⟩
  · intro hsteps
    have hreach : ∀ q, ReflTransGen (Coupled target chain) root q →
        ∀ hq : q ∈ chain, (chainGraph target chain).Reachable ⟨root, hroot⟩ ⟨q, hq⟩ := by
      intro q h
      induction h with
      | refl => exact fun _ => .refl _
      | @tail a b hpath hstep ih =>
        intro hb
        have ha := mem_of_inside hroot hpath
        have hadj : (chainGraph target chain).Adj ⟨a, ha⟩ ⟨b, hb⟩ := htarget.graph_adj.mpr hstep.2
        exact (ih ha).trans hadj.reachable
    exact (SimpleGraph.connected_iff_exists_forall_reachable _).mpr
      ⟨⟨root, hroot⟩, fun q => hreach q (hsteps q q.2) q.2⟩

/-- The state of the search of a chain: what was seen can be reached, and only the qubits on the
stack may have neighbours that were not seen. -/
structure Searching (target : Target) (chain : List Nat) (root : Nat) (stack seen : List Nat) :
    Prop where
  nodup : seen.Nodup
  root_mem : root ∈ seen
  mem_of_mem_stack : ∀ q ∈ stack, q ∈ seen
  subset : ∀ q ∈ seen, q ∈ chain
  reached : ∀ q ∈ seen, ReflTransGen (Coupled target chain) root q
  closed : ∀ q ∈ seen, q ∉ stack → ∀ r, Coupled target chain q r → r ∈ seen

/-- Visiting the neighbours of the qubit on top of the stack. -/
theorem Searching.visit (htarget : target.Lawful) {q : Nat} {stack seen found : List Nat}
    (h : Searching target chain root (q :: stack) seen)
    (hfound : found =
      (target.neighbors q).filter fun r => chain.contains r && !seen.contains r) :
    Searching target chain root (found ++ stack) (found ++ seen) := by
  have hmem : ∀ r, r ∈ found ↔ Coupled target chain q r ∧ r ∉ seen := by
    intro r
    rw [hfound]
    simp [htarget.mem_neighbors_iff, Coupled, Inside]
    tauto
  have hq : q ∈ seen := h.mem_of_mem_stack q List.mem_cons_self
  refine ⟨?_, List.mem_append_right _ h.root_mem, fun r hr => ?_, fun r hr => ?_, fun r hr => ?_,
    fun r hr hstack s hs => ?_⟩
  · refine List.Nodup.append ?_ h.nodup fun r hr hseen => ((hmem r).mp hr).2 hseen
    rw [hfound]
    exact (htarget.nodup_neighbors q).filter _
  · refine (List.mem_append.mp hr).elim (List.mem_append_left _) fun hr => ?_
    exact List.mem_append_right _ (h.mem_of_mem_stack r (List.mem_cons_of_mem _ hr))
  · exact (List.mem_append.mp hr).elim (fun hr => ((hmem r).mp hr).1.1) (h.subset r)
  · exact (List.mem_append.mp hr).elim (fun hr => (h.reached q hq).tail ((hmem r).mp hr).1)
      (h.reached r)
  · rw [List.mem_append] at hr hstack ⊢
    push Not at hstack
    have hseen : r ∈ seen := hr.resolve_left hstack.1
    by_cases hrq : r = q
    · rw [hmem]
      by_cases hsseen : s ∈ seen
      · exact .inr hsseen
      · exact .inl ⟨hrq ▸ hs, hsseen⟩
    · exact .inr (h.closed r hseen (by simp [hrq, hstack.2]) s hs)

/-- With fuel for every qubit that is still to come to the stack, the search empties it. -/
theorem Searching.reach (htarget : target.Lawful) {fuel : Nat} {stack seen : List Nat}
    (h : Searching target chain root stack seen)
    (hfuel : stack.length + chain.length ≤ fuel + seen.length) :
    Searching target chain root [] (reach target chain fuel stack seen) := by
  induction fuel generalizing stack seen with
  | zero =>
    have hlength : seen.length ≤ chain.length := (h.nodup.subperm h.subset).length_le
    have hempty : stack = [] := List.length_eq_zero_iff.mp (by omega)
    exact hempty ▸ h
  | succ fuel ih =>
    match stack with
    | [] => exact h
    | q :: stack =>
      refine ih (h.visit htarget rfl) ?_
      simp only [List.length_append, List.length_cons] at hfuel ⊢
      omega

/-- The search from a qubit of the chain ends with an empty stack. -/
theorem searching_reach (htarget : target.Lawful) (hroot : root ∈ chain) :
    Searching target chain root [] (reach target chain chain.length [root] [root]) := by
  have hstart : Searching target chain root [root] [root] := by
    refine ⟨List.nodup_singleton _, List.mem_singleton_self _, fun _ => id, ?_, ?_, ?_⟩
    · simpa using hroot
    · simp [ReflTransGen.refl]
    · simp
  exact hstart.reach htarget (by simp [Nat.add_comm])

/-- The search counts as many qubits as the chain has exactly if the chain is connected. -/
theorem isConnected_iff (htarget : target.Lawful) (hne : chain ≠ []) (hnodup : chain.Nodup) :
    isConnected target chain = true ↔ (chainGraph target chain).Connected := by
  match chain with
  | [] => exact absurd rfl hne
  | first :: rest =>
    have hfirst : first ∈ first :: rest := List.mem_cons_self
    have hsearch := searching_reach htarget hfirst
    have hseen := hsearch.nodup.subperm hsearch.subset
    rw [connected_iff htarget hfirst]
    unfold isConnected
    rw [beq_iff_eq]
    constructor
    · intro hlength q hq
      exact hsearch.reached q ((hseen.perm_of_length_le hlength.ge).mem_iff.mpr hq)
    · intro hsteps
      have hall : first :: rest ⊆ reach target (first :: rest) _ [first] [first] := fun q hq =>
        mem_of_closed hsearch.root_mem
          (fun a ha => hsearch.closed a ha List.not_mem_nil) (hsteps q hq)
      exact Nat.le_antisymm hseen.length_le (hnodup.subperm hall).length_le

end Search

end Embedding

end SpinGlass

import SpinGlass.Embedding.Layout
import SpinGlass.Proofs.Hardware.Chimera
import SpinGlass.Proofs.Routing.Totals
import Mathlib.Order.Bounds.Basic

/-!
# Widening around a hint

The bias of a layout lets a root stray from its hint by a number of cells that grows with every
attempt. The last attempt reaches the whole grid. So a layout leaves a variable without a chain
exactly where unbiased routing does, and the root of a chain is no further from the hint than the
first attempt that reaches any slot with a total.
-/

namespace SpinGlass

namespace Layout

/-- The routing of a layout with given hints. -/
abbrev task (logical : LogicalGraph) (target : Target) (shape : Chimera) (hints : List (Nat × Nat))
    (radius : Nat) : RoutingTask ℚ :=
  ⟨logical, target, bias target shape hints radius⟩

/-- How far a slot is from the hint of a variable, in cells. -/
def hintDistance (target : Target) (shape : Chimera) (hints : List (Nat × Nat)) (v slot : Nat) :
    Nat :=
  Chimera.distance (shape.cellOf (target.qubit slot)).1 (hints.getD v (0, 0)).1 +
    Chimera.distance (shape.cellOf (target.qubit slot)).2 (hints.getD v (0, 0)).2

/-- How far an attempt reaches. -/
def reach (radius attempt : Nat) : Nat := radius + attempt * max radius 1

/-- The qubits are in the grid, and so is the hint for each variable. -/
structure OnGrid (logical : LogicalGraph) (target : Target) (shape : Chimera)
    (hints : List (Nat × Nat)) : Prop where
  lt_size : ∀ q, target.contains q = true → q < shape.size
  length_hints : hints.length = logical.size
  hint_lt : ∀ hint ∈ hints, hint.1 < shape.rows ∧ hint.2 < shape.cols

variable {logical : LogicalGraph} {target : Target} {shape : Chimera} {hints : List (Nat × Nat)}
  {radius v slot attempt : Nat}

/-- An attempt admits the slots within its reach. -/
theorem isSome_cost_iff :
    ((bias target shape hints radius : RootBias ℚ).cost v slot attempt).isSome = true ↔
      hintDistance target shape hints v slot ≤ reach radius attempt := by
  unfold bias hintDistance reach
  dsimp only
  split
  · next hle => exact iff_of_true rfl hle
  · next hgt => exact iff_of_false Bool.false_ne_true hgt

theorem distance_lt {m n k : Nat} (hm : m < k) (hn : n < k) : Chimera.distance m n < k := by
  unfold Chimera.distance
  omega

/-- Nothing in the grid is as far from a hint as there are rows and columns. -/
theorem OnGrid.hintDistance_le (h : OnGrid logical target shape hints) (hv : v < logical.size)
    (hslot : slot < target.size) :
    hintDistance target shape hints v slot ≤ shape.rows + shape.cols := by
  have hcell := Chimera.within_coordinates
    (h.lt_size _ (Target.contains_iff.mpr ⟨slot, hslot, rfl⟩))
  have hv : v < hints.length := h.length_hints.symm ▸ hv
  have hgetD : hints.getD v (0, 0) = hints[v] := by simp [hv]
  have hhint := h.hint_lt _ (List.getElem_mem hv)
  rw [← hgetD] at hhint
  exact Nat.add_le_add (distance_lt hcell.row_lt hhint.1).le (distance_lt hcell.col_lt hhint.2).le

/-- The last attempt reaches as far as there are rows and columns. -/
theorem le_reach (rows cols radius : Nat) :
    rows + cols ≤ reach radius ((rows + cols) / max radius 1 + 1) := by
  have hpos : 0 < max radius 1 := Nat.lt_of_lt_of_le Nat.one_pos (Nat.le_max_right radius 1)
  have hlt := Nat.lt_mul_div_succ (rows + cols) hpos
  rw [Nat.mul_comm] at hlt
  exact hlt.le.trans (Nat.le_add_left _ radius)

section Place

variable {p : Placement} {penalty : ℚ}

/-- A layout leaves a variable without a chain exactly if no slot has a total. -/
theorem chain_place_eq_nil_iff (hgrid : OnGrid logical target shape hints)
    (hsound : p.Sound logical target) (hv : v < logical.size) :
    (p.place (task logical target shape hints radius) v penalty).chain v = [] ↔
      ∀ slot < target.size,
        p.total (task logical target shape hints radius) v penalty slot = none := by
  refine (Placement.chain_place_eq_nil_iff hsound hv).trans
    (Placement.root?_eq_none_iff hsound hv fun slot hslot => ?_)
  exact ⟨_, Nat.lt_succ_self _, isSome_cost_iff.mpr
    ((hgrid.hintDistance_le hv hslot).trans (le_reach shape.rows shape.cols radius))⟩

/-- So does unbiased routing: totals do not depend on the bias. -/
theorem chain_place_none_eq_nil_iff (hsound : p.Sound logical target) (hv : v < logical.size) :
    (p.place ⟨logical, target, .none⟩ v penalty).chain v = [] ↔
      ∀ slot < target.size,
        p.total (task logical target shape hints radius) v penalty slot = none := by
  have hroot : (p.place ⟨logical, target, .none⟩ v penalty).chain v = [] ↔
      p.root? ⟨logical, target, .none⟩ v penalty = none :=
    Placement.chain_place_eq_nil_iff hsound hv
  exact hroot.trans (Placement.root?_eq_none_iff hsound hv fun slot _ => ⟨0, Nat.one_pos, rfl⟩)

/-- The root of a chain is within the first reach that any slot with a total is in. -/
theorem exists_root_isLeast (hsound : p.Sound logical target) (hv : v < logical.size)
    (hne : (p.place (task logical target shape hints radius) v penalty).chain v ≠ []) :
    ∃ root ∈ (p.place (task logical target shape hints radius) v penalty).chain v,
      p.root? (task logical target shape hints radius) v penalty = some root ∧
      (p.total (task logical target shape hints radius) v penalty root).isSome = true ∧
      ∃ attempt, hintDistance target shape hints v root ≤ reach radius attempt ∧
        IsLeast {a | ∃ slot < target.size,
          (p.total (task logical target shape hints radius) v penalty slot).isSome = true ∧
          hintDistance target shape hints v slot ≤ reach radius a} attempt := by
  rcases Placement.chain_place_cases (task logical target shape hints radius) hsound hv penalty with
    ⟨_, hnil⟩ | ⟨root, hroot, hmem⟩
  · exact absurd hnil hne
  · rcases Placement.root?_cases (task logical target shape hints radius) hsound hv penalty with
      ⟨hnone, _⟩ | ⟨root', attempt, hroot', _, ⟨hlt, htotal, hcost⟩, hfirst⟩
    · exact absurd (hnone.symm.trans hroot) (Option.some_ne_none root).symm
    · obtain rfl := Option.some.inj (hroot.symm.trans hroot')
      have hreach := isSome_cost_iff.mp hcost
      refine ⟨root, hmem, hroot, htotal, attempt, hreach, ⟨root, hlt, htotal, hreach⟩, ?_⟩
      rintro a ⟨slot, hslot, htotal, hreach⟩
      by_contra hless
      have hcandidate :
          slot ∈ p.candidates (task logical target shape hints radius) v penalty a :=
        ⟨hslot, htotal, isSome_cost_iff.mpr hreach⟩
      rw [hfirst a (not_le.mp hless)] at hcandidate
      exact hcandidate

end Place

/-- A layout leaves a variable without a chain exactly if no slot has a total, which is where
unbiased routing does so, and never in a connected target. Otherwise the root of the chain has a
total, and it is within the first reach that any slot with a total is in. -/
theorem place_widens (htarget : target.Lawful) (hgrid : OnGrid logical target shape hints)
    (radius : Nat) {p : Placement} (hp : p.Routed (task logical target shape hints radius))
    (hv : v < logical.size) {penalty : ℚ} (hpenalty : 2 ≤ penalty) :
    ((p.place (task logical target shape hints radius) v penalty).chain v = [] ↔
      ∀ slot < target.size,
        p.total (task logical target shape hints radius) v penalty slot = none) ∧
    ((p.place (task logical target shape hints radius) v penalty).chain v = [] ↔
      (p.place ⟨logical, target, .none⟩ v penalty).chain v = []) ∧
    ((p.place (task logical target shape hints radius) v penalty).chain v ≠ [] →
      ∃ root ∈ (p.place (task logical target shape hints radius) v penalty).chain v,
        p.root? (task logical target shape hints radius) v penalty = some root ∧
        (p.total (task logical target shape hints radius) v penalty root).isSome = true ∧
        ∃ attempt, hintDistance target shape hints v root ≤ reach radius attempt ∧
          IsLeast {a | ∃ slot < target.size,
            (p.total (task logical target shape hints radius) v penalty slot).isSome = true ∧
            hintDistance target shape hints v slot ≤ reach radius a} attempt) ∧
    (target.Connected →
      (p.place (task logical target shape hints radius) v penalty).chain v ≠ []) := by
  have hsound : p.Sound logical target := hp.sound htarget
  have hlayout : (p.place (task logical target shape hints radius) v penalty).chain v = [] ↔
      ∀ slot < target.size,
        p.total (task logical target shape hints radius) v penalty slot = none :=
    chain_place_eq_nil_iff hgrid hsound hv
  refine ⟨hlayout, hlayout.trans (chain_place_none_eq_nil_iff hsound hv).symm,
    exists_root_isLeast hsound hv, fun hconnected hnil => ?_⟩
  have htotal : (p.total (task logical target shape hints radius) v penalty 0).isSome = true :=
    Placement.isSome_total_of_connected htarget hconnected hsound hv
      (two_pos.trans_le hpenalty) hconnected.size_pos
  rw [hlayout.mp hnil 0 hconnected.size_pos] at htotal
  cases htotal

/-- Of a grid of two by two cells the one that two joined variables are to be near is gone. The
rest is connected, so with radius zero the second variable is placed next to the first, and its
root is in a cell beside the hint, not across from it. -/
theorem place_widens_hole :
    let logical := (LogicalGraph.empty 2).addEdge 0 1
    let target := (Target.chimera ⟨2, 2, 1⟩).withoutQubits [0, 1]
    let hints := [(0, 0), (0, 0)]
    let routing := task logical target ⟨2, 2, 1⟩ hints 0
    let first := (Placement.start logical target 5).place routing 0 2
    ∃ root ∈ (first.place routing 1 2).chain 1,
      hintDistance target ⟨2, 2, 1⟩ hints 1 root ≤ 1 := by
  intro logical target hints routing first
  have htarget : target.Lawful := Target.lawful_withoutQubits (.chimera ⟨2, 2, 1⟩) [0, 1]
  have hgrid : OnGrid logical target ⟨2, 2, 1⟩ hints := by
    refine ⟨fun q hq => ?_, by decide, by decide⟩
    obtain ⟨s, hs, rfl⟩ := Target.contains_iff.mp hq
    have hsize : ∀ s < target.size, target.qubit s < (⟨2, 2, 1⟩ : Chimera).size := by
      decide +kernel
    exact hsize s hs
  have hconnected : target.Connected :=
    (Embedding.isConnected_iff htarget (by decide +kernel) (by decide +kernel)).mp
      (by decide +kernel)
  have hrouted : first.Routed routing := .place (.start 5) (by decide) 2
  obtain ⟨_, _, hroot, hplaced⟩ := place_widens htarget hgrid 0 hrouted (v := 1) (by decide)
    (le_refl 2)
  obtain ⟨root, hmem, _, _, attempt, hreach, _, hleast⟩ := hroot (hplaced hconnected)
  refine ⟨root, hmem, hreach.trans ?_⟩
  -- the first attempt after the one at the hint itself reaches a slot
  have hattempt : attempt ≤ 1 := hleast ⟨0, by decide +kernel, by decide +kernel, by decide +kernel⟩
  simpa [reach] using hattempt

end Layout

end SpinGlass

import SpinGlass.Proofs.Routing.Frontier
import SpinGlass.Proofs.Hardware.Target
import Mathlib.Combinatorics.SimpleGraph.Walk.Operations
import Mathlib.Data.List.TakeWhile

/-!
# Settling slots in order

Where entering a slot costs something, slots are settled in the order of their distance: a slot
that is not in the queue with its distance is settled, its neighbours were all tried, and no later
entry costs less. A round settles a slot or takes away a repeated source, so the rounds run out.
-/

namespace SpinGlass

namespace Target

/-- The slots of a target and the couplers between them. -/
def slotGraph (t : Target) : SimpleGraph Nat := .fromRel fun a b => b ∈ t.neighborSlots a

theorem Lawful.slotGraph_adj {t : Target} (h : t.Lawful) {a b : Nat} :
    t.slotGraph.Adj a b ↔ b ∈ t.neighborSlots a := by
  rw [slotGraph, SimpleGraph.fromRel_adj]
  constructor
  · rintro ⟨_, hb | ha⟩
    · exact hb
    · exact h.symm b a ha
  · intro hb
    refine ⟨?_, .inl hb⟩
    rintro rfl
    exact h.irrefl a hb

variable {t : Target} {costs : Array ℚ}

/-- The cost of a walk: entering each of its slots but the first. -/
def entryCost (costs : Array ℚ) {a b : Nat} (walk : t.slotGraph.Walk a b) : ℚ :=
  (walk.support.tail.map fun u => costs.getD u 0).sum

/-- The costs of the walks from one of some slots to a slot. -/
def walkCosts (t : Target) (costs : Array ℚ) (sources : List Nat) (x : Nat) : Set ℚ :=
  {c | ∃ source ∈ sources, ∃ walk : t.slotGraph.Walk source x, entryCost costs walk = c}

@[simp] theorem entryCost_nil {a : Nat} :
    entryCost costs (.nil : t.slotGraph.Walk a a) = 0 := rfl

theorem entryCost_cons {a b c : Nat} (hadj : t.slotGraph.Adj a b) (walk : t.slotGraph.Walk b c) :
    entryCost costs (.cons hadj walk) = costs.getD b 0 + entryCost costs walk := by
  unfold entryCost
  rw [SimpleGraph.Walk.support_cons, List.tail_cons, ← SimpleGraph.Walk.cons_tail_support walk,
    List.map_cons, List.sum_cons, List.tail_cons]

theorem entryCost_concat {a b c : Nat} (walk : t.slotGraph.Walk a b) (hadj : t.slotGraph.Adj b c) :
    entryCost costs (walk.concat hadj) = entryCost costs walk + costs.getD c 0 := by
  unfold entryCost
  rw [SimpleGraph.Walk.support_concat, ← SimpleGraph.Walk.cons_tail_support walk]
  simp

/-- Going on to a neighbour costs what entering it costs. -/
theorem add_mem_walkCosts {sources : List Nat} {x y : Nat} {d : ℚ}
    (h : d ∈ t.walkCosts costs sources x) (hadj : t.slotGraph.Adj x y) :
    d + costs.getD y 0 ∈ t.walkCosts costs sources y := by
  obtain ⟨source, hsource, walk, rfl⟩ := h
  exact ⟨source, hsource, walk.concat hadj, entryCost_concat walk hadj⟩

/-- Where entering costs something, only staying at a slot is free. -/
theorem entryCost_pos_or_eq (htarget : t.Lawful) (hcosts : ∀ u < t.size, 0 < costs.getD u 0)
    {a b : Nat} (walk : t.slotGraph.Walk a b) :
    0 < entryCost costs walk ∨ a = b ∧ entryCost costs walk = 0 := by
  induction walk with
  | nil => exact .inr ⟨rfl, entryCost_nil⟩
  | cons hadj walk ih =>
    have hcost := hcosts _ (htarget.lt_size _ _ (htarget.slotGraph_adj.mp hadj))
    rw [entryCost_cons]
    rcases ih with hpos | ⟨_, hzero⟩ <;> left <;> linarith

theorem entryCost_nonneg (htarget : t.Lawful) (hcosts : ∀ u < t.size, 0 < costs.getD u 0)
    {a b : Nat} (walk : t.slotGraph.Walk a b) : 0 ≤ entryCost costs walk :=
  (entryCost_pos_or_eq htarget hcosts walk).elim le_of_lt fun h => h.2.ge

end Target

namespace Search

/-- What holds of a search between two of its steps, if nothing that still waits costs less than
`level`. Of the couplers in `pending`, those that lead from a settled slot were not tried yet. -/
structure Sound (target : Target) (costs : Array ℚ) (sources : List Nat) (level : ℚ)
    (pending : Nat → Nat → Prop) (s : Search ℚ) : Prop where
  distances_size : s.distances.size = costs.size
  parents_size : s.parents.size = costs.size
  source : ∀ x ∈ sources, s.distance? x = some 0
  attained : ∀ x d, s.distance? x = some d → d ∈ target.walkCosts costs sources x
  /-- An entry was the distance of its slot when it was made. -/
  known : ∀ e ∈ s.frontier, ∃ d ≤ e.1, s.distance? e.2 = some d
  sorted : s.frontier.Pairwise fun a b => a.1 ≤ b.1
  level_le : ∀ e ∈ s.frontier, level ≤ e.1
  /-- A slot that does not wait with its distance is settled. -/
  settled : ∀ x d, s.distance? x = some d → (d, x) ∈ s.frontier ∨
    d ≤ level ∧ ∀ t ∈ target.neighborSlots x, pending x t ∨
      ∃ d' ≤ d + costs.getD t 0, s.distance? t = some d'
  /-- The parent of a slot is nearer by what entering the slot costs. -/
  parent : ∀ x d, s.distance? x = some d → 0 < d → ∃ p, s.parent? x = some p ∧
    x ∈ target.neighborSlots p ∧ ∃ d', s.distance? p = some d' ∧ d' + costs.getD x 0 ≤ d

/-- No coupler is pending. -/
abbrev noneLeft : Nat → Nat → Prop := fun _ _ => False

/-- The number of slots that are not known and of entries that were not overtaken: no more rounds
than these can follow. -/
def remaining (s : Search ℚ) : Nat :=
  (List.range s.distances.size).countP (fun x => s.distance? x = none) +
    s.frontier.countP fun e => s.distance? e.2 = some e.1

section Rounds

variable {target : Target} {costs : Array ℚ} {sources : List Nat} {level : ℚ}
  {pending : Nat → Nat → Prop} {s : Search ℚ}

theorem sound_start (target : Target) (hsources : ∀ x ∈ sources, x < costs.size) :
    (start costs.size sources : Search ℚ).Sound target costs sources 0 noneLeft := by
  have hdistance : ∀ x d, (start costs.size sources : Search ℚ).distance? x = some d →
      x ∈ sources ∧ d = 0 := by
    intro x d hd
    rw [distance?_start hsources] at hd
    split at hd
    · next hx => exact ⟨hx, (Option.some.inj hd).symm⟩
    · cases hd
  have hsource : ∀ x ∈ sources,
      (start costs.size sources : Search ℚ).distance? x = some 0 := fun x hx => by
    rw [distance?_start hsources, if_pos hx]
  have hmem : ∀ e, e ∈ (start costs.size sources : Search ℚ).frontier ↔
      e.2 ∈ sources ∧ e.1 = 0 := by
    rintro ⟨d, x⟩
    rw [(perm_frontier_start costs.size sources).mem_iff]
    simp [eq_comm (a := d)]
  refine {
    distances_size := size_distances_start _ _
    parents_size := Array.size_replicate
    source := hsource
    attained := fun x d hd => ?attained
    known := fun e he => ?known
    sorted := List.foldlRecOn sources _ .nil fun f hf _ _ => pairwise_enqueue hf
    level_le := fun e he => ((hmem e).mp he).2.ge
    settled := fun x d hd => .inl ((hmem (d, x)).mpr (hdistance x d hd))
    parent := fun x d hd hpos => absurd (hdistance x d hd).2 hpos.ne' }
  case attained =>
    obtain ⟨hx, rfl⟩ := hdistance x d hd
    exact ⟨x, hx, .nil, Target.entryCost_nil⟩
  case known =>
    obtain ⟨hx, hzero⟩ := (hmem e).mp he
    exact ⟨0, hzero.ge, hsource _ hx⟩

/-- An entry that was not overtaken is not taken away with those that were. -/
theorem mem_dropStale {e : ℚ × Nat} (he : e ∈ s.frontier) (hfresh : s.distance? e.2 = some e.1) :
    e ∈ s.frontier.dropWhile s.isStale := by
  rw [← List.takeWhile_append_dropWhile (p := s.isStale) (l := s.frontier)] at he
  rcases List.mem_append.mp he with he | he
  · have hstale := List.mem_takeWhile_imp he
    simp [isStale, hfresh] at hstale
  · exact he

/-- Entries that were overtaken do not matter. -/
theorem Sound.dropStale (h : s.Sound target costs sources level pending) :
    { s with frontier := s.frontier.dropWhile s.isStale }.Sound target costs sources level
      pending where
  distances_size := h.distances_size
  parents_size := h.parents_size
  source := h.source
  attained := h.attained
  known e he := h.known e ((List.dropWhile_sublist _).subset he)
  sorted := h.sorted.sublist (List.dropWhile_sublist _)
  level_le e he := h.level_le e ((List.dropWhile_sublist _).subset he)
  settled x d hd := (h.settled x d hd).imp_left fun he => mem_dropStale he hd
  parent := h.parent

theorem remaining_dropStale_le (s : Search ℚ) :
    { s with frontier := s.frontier.dropWhile s.isStale }.remaining ≤ s.remaining :=
  Nat.add_le_add_left ((List.dropWhile_sublist _).countP_le) _

/-- The first entry becomes the level, and its slot is settled except for its couplers. -/
theorem Sound.pop (h : s.Sound target costs sources level noneLeft) {reached : ℚ} {slot : Nat}
    {rest : List (ℚ × Nat)} (hfrontier : s.frontier = (reached, slot) :: rest) :
    { s with frontier := rest }.Sound target costs sources reached fun x t =>
      x = slot ∧ t ∈ target.neighborSlots slot where
  distances_size := h.distances_size
  parents_size := h.parents_size
  source := h.source
  attained := h.attained
  known e he := h.known e (hfrontier ▸ List.mem_cons_of_mem _ he)
  sorted := (List.pairwise_cons.mp (hfrontier ▸ h.sorted)).2
  level_le := (List.pairwise_cons.mp (hfrontier ▸ h.sorted)).1
  settled x d hd := by
    have hlevel : level ≤ reached := h.level_le _ (hfrontier ▸ List.mem_cons_self)
    rcases h.settled x d hd with he | ⟨hle, hneighbors⟩
    · rw [hfrontier] at he
      rcases List.mem_cons.mp he with heq | he
      · obtain ⟨rfl, rfl⟩ := Prod.mk.inj heq
        exact .inr ⟨le_rfl, fun t ht => .inl ⟨rfl, ht⟩⟩
      · exact .inl he
    · exact .inr ⟨hle.trans hlevel, fun t ht => .inr ((hneighbors t ht).resolve_left id)⟩
  parent := h.parent

theorem Sound.mono (h : s.Sound target costs sources level pending) {pending' : Nat → Nat → Prop}
    (himp : ∀ x t, pending x t → pending' x t) : s.Sound target costs sources level pending' where
  __ := h
  settled x d hd := (h.settled x d hd).imp_right fun ⟨hle, hneighbors⟩ =>
    ⟨hle, fun t ht => (hneighbors t ht).imp_left (himp x t)⟩

end Rounds

section Enter

variable {target : Target} {costs : Array ℚ} {sources : List Nat} {level : ℚ}
  {pending : Nat → Nat → Prop} {s : Search ℚ} {slot t x : Nat} {cost d : ℚ}

/-- What is known does not get worse if a slot is entered that is not known to be nearer. -/
theorem exists_le_enter (ht : t < s.distances.size)
    (hbetter : ∀ known, s.distance? t = some known → cost < known) (hx : s.distance? x = some d) :
    ∃ d' ≤ d, (s.enter slot cost t).distance? x = some d' := by
  rw [distance?_enter ht]
  by_cases hxt : x = t
  · exact ⟨cost, (hbetter d (hxt ▸ hx)).le, if_pos hxt⟩
  · exact ⟨d, le_rfl, by rw [if_neg hxt, hx]⟩

/-- Only entries of other slots stay as good as they were. -/
theorem fresh_enter (h : s.Sound target costs sources level pending) (ht : t < costs.size)
    (hbetter : ∀ known, s.distance? t = some known → cost < known) {e : ℚ × Nat}
    (he : e ∈ s.frontier) (hfresh : (s.enter slot cost t).distance? e.2 = some e.1) :
    s.distance? e.2 = some e.1 ∧ e.2 ≠ t := by
  rw [distance?_enter (h.distances_size.symm ▸ ht)] at hfresh
  by_cases het : e.2 = t
  · -- The entry is newer than its cost.
    rw [if_pos het] at hfresh
    obtain ⟨known, hle, hknown⟩ := h.known e he
    have hlt := hbetter known (het ▸ hknown)
    exact absurd (Option.some.inj hfresh) (hlt.trans_le hle).ne
  · rw [if_neg het] at hfresh
    exact ⟨hfresh, het⟩

/-- A predicate that implies another and fails where the other holds is true less often. -/
theorem countP_lt_countP {α : Type} {l : List α} {p q : α → Bool}
    (himp : ∀ a ∈ l, p a = true → q a = true) {a : α} (ha : a ∈ l) (hq : q a = true)
    (hp : p a = false) : l.countP p < l.countP q := by
  obtain ⟨before, after, rfl⟩ := List.append_of_mem ha
  have hbefore : before.countP p ≤ before.countP q :=
    List.countP_mono_left fun b hb => himp b (List.mem_append_left _ hb)
  have hafter : after.countP p ≤ after.countP q :=
    List.countP_mono_left fun b hb => himp b (List.mem_append_right _ (List.mem_cons_of_mem a hb))
  simp only [List.countP_append, List.countP_cons, hp, hq]
  simp only [Bool.false_eq_true, if_false, if_true]
  omega

/-- The entry that is made takes the place of an unknown slot or of an entry that it overtakes. -/
theorem remaining_enter_le (h : s.Sound target costs sources level pending) (ht : t < costs.size)
    (hlevel : level < cost) (hbetter : ∀ known, s.distance? t = some known → cost < known) :
    (s.enter slot cost t).remaining ≤ s.remaining := by
  have hsize : t < s.distances.size := h.distances_size.symm ▸ ht
  have hcount : (s.enter slot cost t).remaining =
      (List.range s.distances.size).countP (fun x => (s.enter slot cost t).distance? x = none) +
        (s.frontier.countP (fun e => (s.enter slot cost t).distance? e.2 = some e.1) + 1) := by
    unfold remaining
    rw [show (s.enter slot cost t).frontier = enqueue (cost, t) s.frontier from rfl,
      (perm_enqueue _ _).countP_eq, List.countP_cons_of_pos (by simp [distance?_enter hsize])]
    simp [enter]
  have hunknown : ∀ x ∈ List.range s.distances.size,
      decide ((s.enter slot cost t).distance? x = none) = true →
        decide (s.distance? x = none) = true := by
    intro x _ hx
    rw [decide_eq_true_eq, distance?_enter hsize] at hx
    split at hx
    · cases hx
    · exact decide_eq_true hx
  have hfresh : ∀ e ∈ s.frontier,
      decide ((s.enter slot cost t).distance? e.2 = some e.1) = true →
        decide (s.distance? e.2 = some e.1) = true := fun e he hnew =>
    decide_eq_true (fresh_enter h ht hbetter he (of_decide_eq_true hnew)).1
  have hentered : (s.enter slot cost t).distance? t = some cost := by simp [distance?_enter hsize]
  rw [hcount, remaining]
  cases hknown : s.distance? t with
  | none =>
    have hless := countP_lt_countP hunknown (List.mem_range.mpr hsize) (by simp [hknown])
      (by simp [hentered])
    have hle := List.countP_mono_left hfresh
    omega
  | some known =>
    have hlt := hbetter known hknown
    have hmem : (known, t) ∈ s.frontier :=
      (h.settled t known hknown).resolve_right fun hsettled =>
        absurd (hlevel.trans hlt) (not_lt.mpr hsettled.1)
    have hless := countP_lt_countP hfresh hmem (by simp [hknown]) (by simp [hentered, hlt.ne])
    have hle := List.countP_mono_left hunknown
    omega

end Enter

section Round

variable {target : Target} {costs : Array ℚ} {sources : List Nat} {level : ℚ}
  {pending : Nat → Nat → Prop} {s : Search ℚ}

theorem Sound.distance_nonneg (htarget : target.Lawful)
    (hcosts : ∀ u < target.size, 0 < costs.getD u 0)
    (h : s.Sound target costs sources level pending) {x : Nat} {d : ℚ}
    (hx : s.distance? x = some d) : 0 ≤ d := by
  obtain ⟨_, _, walk, rfl⟩ := h.attained x d hx
  exact Target.entryCost_nonneg htarget hcosts walk

/-- Entering a neighbour of the slot that is settled keeps what holds between two steps. -/
theorem Sound.enter (htarget : target.Lawful) (hcosts : ∀ u < target.size, 0 < costs.getD u 0)
    {slot t : Nat} {todo : List Nat} {reached : ℚ}
    (h : s.Sound target costs sources reached fun x u => x = slot ∧ u ∈ t :: todo)
    (hslot : s.distance? slot = some reached) (ht : t ∈ target.neighborSlots slot)
    (hsize : t < costs.size)
    (hbetter : ∀ known, s.distance? t = some known → reached + costs.getD t 0 < known) :
    (s.enter slot (reached + costs.getD t 0) t).Sound target costs sources reached
      fun x u => x = slot ∧ u ∈ todo := by
  have hreached : 0 ≤ reached := h.distance_nonneg htarget hcosts hslot
  have hcost : 0 < costs.getD t 0 := hcosts t (htarget.lt_size slot t ht)
  have hne : slot ≠ t := by
    rintro rfl
    exact htarget.irrefl slot ht
  have hdistance : ∀ x, (s.enter slot (reached + costs.getD t 0) t).distance? x =
      if x = t then some (reached + costs.getD t 0) else s.distance? x :=
    distance?_enter (h.distances_size.symm ▸ hsize)
  have hfall : ∀ {x d}, s.distance? x = some d →
      ∃ d' ≤ d, (s.enter slot (reached + costs.getD t 0) t).distance? x = some d' :=
    exists_le_enter (h.distances_size.symm ▸ hsize) hbetter
  refine {
    distances_size := Array.size_setIfInBounds.trans h.distances_size
    parents_size := Array.size_setIfInBounds.trans h.parents_size
    source := fun x hx => ?source
    attained := fun x d hd => ?attained
    known := fun e he => ?known
    sorted := pairwise_enqueue h.sorted
    level_le := fun e he => ?level_le
    settled := fun x d hd => ?settled
    parent := fun x d hd hpos => ?parent }
  case source =>
    have hzero := h.source x hx
    have hxt : x ≠ t := by
      rintro rfl
      have hlt := hbetter 0 hzero
      linarith
    rw [hdistance, if_neg hxt, hzero]
  case attained =>
    rw [hdistance] at hd
    by_cases hxt : x = t
    · rw [if_pos hxt] at hd
      obtain rfl := Option.some.inj hd
      rw [hxt]
      exact Target.add_mem_walkCosts (h.attained slot reached hslot) (htarget.slotGraph_adj.mpr ht)
    · rw [if_neg hxt] at hd
      exact h.attained x d hd
  case known =>
    rcases mem_enqueue.mp he with rfl | he
    · exact ⟨_, le_rfl, by rw [hdistance, if_pos rfl]⟩
    · obtain ⟨d, hle, hd⟩ := h.known e he
      obtain ⟨d', hle', hd'⟩ := hfall hd
      exact ⟨d', hle'.trans hle, hd'⟩
  case level_le =>
    rcases mem_enqueue.mp he with rfl | he
    · exact le_add_of_nonneg_right hcost.le
    · exact h.level_le e he
  case settled =>
    rw [hdistance] at hd
    by_cases hxt : x = t
    · rw [if_pos hxt] at hd
      obtain rfl := Option.some.inj hd
      exact .inl (mem_enqueue.mpr (.inl (by rw [hxt])))
    · rw [if_neg hxt] at hd
      rcases h.settled x d hd with he | ⟨hle, hneighbors⟩
      · exact .inl (mem_enqueue.mpr (.inr he))
      · refine .inr ⟨hle, fun u hu => ?_⟩
        rcases hneighbors u hu with ⟨rfl, hmem⟩ | ⟨d', hle', hd'⟩
        · rcases List.mem_cons.mp hmem with rfl | htodo
          · obtain rfl := Option.some.inj (hslot.symm.trans hd)
            exact .inr ⟨_, le_rfl, by rw [hdistance, if_pos rfl]⟩
          · exact .inl ⟨rfl, htodo⟩
        · obtain ⟨d'', hle'', hd''⟩ := hfall hd'
          exact .inr ⟨d'', hle''.trans hle', hd''⟩
  case parent =>
    rw [hdistance] at hd
    rw [parent?_enter (h.parents_size.symm ▸ hsize)]
    by_cases hxt : x = t
    · rw [if_pos hxt] at hd
      obtain rfl := Option.some.inj hd
      rw [if_pos hxt, hxt]
      exact ⟨slot, rfl, ht, reached, by rw [hdistance, if_neg hne, hslot], le_rfl⟩
    · rw [if_neg hxt] at hd
      obtain ⟨p, hp, hx, d', hd', hle⟩ := h.parent x d hd hpos
      obtain ⟨d'', hle'', hd''⟩ := hfall hd'
      exact ⟨p, by rw [if_neg hxt, hp], hx, d'', hd'', by linarith⟩

/-- Trying a coupler of the slot that is settled. -/
theorem Sound.relax (htarget : target.Lawful) (hcosts : ∀ u < target.size, 0 < costs.getD u 0)
    {slot t : Nat} {todo : List Nat} {reached : ℚ}
    (h : s.Sound target costs sources reached fun x u => x = slot ∧ u ∈ t :: todo)
    (hslot : s.distance? slot = some reached) (ht : t ∈ target.neighborSlots slot)
    (hsize : t < costs.size) :
    (relax costs slot reached s t).Sound target costs sources reached
        (fun x u => x = slot ∧ u ∈ todo) ∧
      (relax costs slot reached s t).distance? slot = some reached ∧
      (relax costs slot reached s t).remaining ≤ s.remaining := by
  rcases relax_cases costs slot reached s t with ⟨heq, known, hle, hknown⟩ | ⟨heq, hbetter⟩
  · rw [heq]
    refine ⟨{ h with settled := fun x d hd => ?_ }, hslot, le_rfl⟩
    refine (h.settled x d hd).imp_right fun ⟨hlevel, hneighbors⟩ => ⟨hlevel, fun u hu => ?_⟩
    rcases hneighbors u hu with ⟨rfl, hmem⟩ | hcheap
    · rcases List.mem_cons.mp hmem with rfl | htodo
      · obtain rfl := Option.some.inj (hslot.symm.trans hd)
        exact .inr ⟨known, hle, hknown⟩
      · exact .inl ⟨rfl, htodo⟩
    · exact .inr hcheap
  · rw [heq]
    have hne : slot ≠ t := by
      rintro rfl
      exact htarget.irrefl slot ht
    have hcost : 0 < costs.getD t 0 := hcosts t (htarget.lt_size slot t ht)
    refine ⟨h.enter htarget hcosts hslot ht hsize hbetter, ?_, ?_⟩
    · rw [distance?_enter (h.distances_size.symm ▸ hsize), if_neg hne, hslot]
    · exact remaining_enter_le h hsize (lt_add_of_pos_right reached hcost) hbetter

/-- Trying all couplers of the slot that is settled. -/
theorem Sound.foldl_relax (htarget : target.Lawful) (hsize : costs.size = target.size)
    (hcosts : ∀ u < target.size, 0 < costs.getD u 0) {slot : Nat} {reached : ℚ} {todo : List Nat}
    (htodo : ∀ t ∈ todo, t ∈ target.neighborSlots slot)
    (h : s.Sound target costs sources reached fun x u => x = slot ∧ u ∈ todo)
    (hslot : s.distance? slot = some reached) :
    (todo.foldl (Search.relax costs slot reached) s).Sound target costs sources reached noneLeft ∧
      (todo.foldl (Search.relax costs slot reached) s).remaining ≤ s.remaining := by
  induction todo generalizing s with
  | nil => exact ⟨h.mono fun x t hpending => List.not_mem_nil hpending.2, le_rfl⟩
  | cons t todo ih =>
    have ht : t ∈ target.neighborSlots slot := htodo t List.mem_cons_self
    have hlt : t < costs.size := hsize ▸ htarget.lt_size slot t ht
    obtain ⟨hsound, hslot', hle⟩ := h.relax htarget hcosts hslot ht hlt
    obtain ⟨hrest, hle'⟩ := ih (fun u hu => htodo u (List.mem_cons_of_mem t hu)) hsound hslot'
    exact ⟨hrest, hle'.trans hle⟩

/-- A round settles a slot at its distance, and fewer rounds remain. -/
theorem Sound.round (htarget : target.Lawful) (hsize : costs.size = target.size)
    (hcosts : ∀ u < target.size, 0 < costs.getD u 0)
    (h : s.Sound target costs sources level noneLeft) {reached : ℚ} {slot : Nat}
    {rest : List (ℚ × Nat)} (hfrontier : s.frontier.dropWhile s.isStale = (reached, slot) :: rest) :
    ((target.neighborSlots slot).foldl (Search.relax costs slot reached)
        { s with frontier := rest }).Sound target costs sources reached noneLeft ∧
      ((target.neighborSlots slot).foldl (Search.relax costs slot reached)
        { s with frontier := rest }).remaining < s.remaining := by
  have hslot : s.distance? slot = some reached := by
    have hmem : (reached, slot) ∈ s.frontier :=
      (List.dropWhile_sublist s.isStale).subset (hfrontier ▸ List.mem_cons_self)
    obtain ⟨d, hle, hd⟩ := h.known _ hmem
    have hfresh : s.isStale (reached, slot) = false := by
      have hhead := List.head?_dropWhile_not s.isStale s.frontier
      rwa [hfrontier] at hhead
    have hnlt : ¬ d < reached := by simpa [isStale, hd] using hfresh
    rw [hd, le_antisymm hle (not_lt.mp hnlt)]
  obtain ⟨hsound, hle⟩ := (h.dropStale.pop hfrontier).foldl_relax htarget hsize hcosts
    (fun t ht => ht) hslot
  refine ⟨hsound, ?_⟩
  have hdrop := remaining_dropStale_le s
  have hpop : { s with frontier := rest }.remaining <
      { s with frontier := s.frontier.dropWhile s.isStale }.remaining := by
    rw [hfrontier]
    refine Nat.add_lt_add_left ?_ _
    change rest.countP _ < ((reached, slot) :: rest).countP _
    rw [List.countP_cons_of_pos (by exact decide_eq_true hslot)]
    exact Nat.lt_succ_self _
  exact hle.trans_lt (hpop.trans_le hdrop)

end Round

end Search

end SpinGlass

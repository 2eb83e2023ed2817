import SpinGlass.Proofs.Routing.Settling

/-!
# Shortest paths

The rounds of a search are enough to empty its queue. Then every slot is settled, so what is known
of a slot is the least cost of a walk to it from a source, and the parents lead along couplers from
every slot to a source, nearer with each step.
-/

namespace SpinGlass

namespace Search

section Settle

variable {K : Type} [Coefficient K] {target : Target} {costs : Array K} {s : Search K}

/-- With no entry left a round changes nothing. -/
theorem settle_of_frontier_nil (h : s.frontier = []) (rounds : Nat) :
    settle target costs rounds s = s := by
  cases rounds with
  | zero => rfl
  | succ rounds =>
    obtain ⟨distances, parents, frontier⟩ := s
    obtain rfl : frontier = [] := h
    rfl

/-- Rounds can be made in two goes. -/
theorem settle_add (rounds more : Nat) (s : Search K) :
    settle target costs (rounds + more) s =
      settle target costs more (settle target costs rounds s) := by
  induction rounds generalizing s with
  | zero => rw [Nat.zero_add, settle]
  | succ rounds ih =>
    rw [Nat.add_right_comm, settle, settle]
    cases s.frontier.dropWhile s.isStale with
    | nil => exact (settle_of_frontier_nil rfl more).symm
    | cons entry rest => exact ih _

end Settle

/-- The way from a slot back to a source along parents: each is coupled to the slot before and
nearer by what entering that slot costs. -/
inductive WayBack (target : Target) (costs : Array ℚ) (sources : List Nat) (s : Search ℚ) :
    Nat → List Nat → Prop
  | source {x : Nat} (hx : x ∈ sources) : WayBack target costs sources s x []
  | step {x p : Nat} {d d' : ℚ} {rest : List Nat} (hx : s.distance? x = some d)
      (hparent : s.parent? x = some p) (hcoupler : x ∈ target.neighborSlots p)
      (hp : s.distance? p = some d') (hcost : d = d' + costs.getD x 0) (hnearer : d' < d)
      (hrest : WayBack target costs sources s p rest) : WayBack target costs sources s x (x :: rest)

/-- The number of slots that are known to be nearer. -/
def nearer (s : Search ℚ) (d : ℚ) : Nat :=
  (List.range s.distances.size).countP fun y => (s.distance? y).any fun d' => decide (d' < d)

theorem nearer_le (s : Search ℚ) (d : ℚ) : s.nearer d ≤ s.distances.size :=
  List.countP_le_length.trans_eq List.length_range

theorem nearer_lt_nearer {s : Search ℚ} {p : Nat} {d d' : ℚ} (hp : s.distance? p = some d')
    (hlt : d' < d) : s.nearer d' < s.nearer d := by
  have hmem : p ∈ List.range s.distances.size := by
    rw [List.mem_range]
    by_contra hge
    rw [distance?, Array.getElem?_eq_none (not_lt.mp hge)] at hp
    cases hp
  refine countP_lt_countP (fun y _ hy => ?_) hmem (by simp [hp, hlt]) (by simp [hp])
  cases hdist : s.distance? y with
  | none => simp [hdist] at hy
  | some e =>
    have hed : e < d' := by simpa [hdist] using hy
    simpa using hed.trans hlt

section Sound

variable {target : Target} {costs : Array ℚ} {sources : List Nat} {level : ℚ} {s : Search ℚ}

/-- A run of rounds keeps what holds between two steps, and empties the frontier if it is long
enough. -/
theorem Sound.settle (htarget : target.Lawful) (hsize : costs.size = target.size)
    (hcosts : ∀ u < target.size, 0 < costs.getD u 0)
    (h : s.Sound target costs sources level noneLeft) (rounds : Nat) :
    (∃ level', (settle target costs rounds s).Sound target costs sources level' noneLeft) ∧
      (s.remaining < rounds → (Search.settle target costs rounds s).frontier = []) := by
  induction rounds generalizing s level with
  | zero => exact ⟨⟨level, h⟩, fun hlt => absurd hlt (Nat.not_lt_zero _)⟩
  | succ rounds ih =>
    rw [Search.settle]
    cases hfrontier : s.frontier.dropWhile s.isStale with
    | nil =>
      have hsound := h.dropStale
      rw [hfrontier] at hsound
      exact ⟨⟨level, hsound⟩, fun _ => rfl⟩
    | cons entry rest =>
      obtain ⟨hround, hless⟩ := h.round htarget hsize hcosts hfrontier
      obtain ⟨hsound, hempty⟩ := ih hround
      exact ⟨hsound, fun hlt => hempty (by omega)⟩

/-- At the start fewer rounds remain than there are slots and sources. -/
theorem remaining_start_lt {source : Nat} (hsource : source ∈ sources)
    (hsources : ∀ x ∈ sources, x < costs.size) :
    (start costs.size sources : Search ℚ).remaining < costs.size + sources.length := by
  have hsize := size_distances_start costs.size sources
  have hunknown : (List.range (start costs.size sources : Search ℚ).distances.size).countP
      (fun x => (start costs.size sources : Search ℚ).distance? x = none) < costs.size := by
    rw [hsize]
    refine lt_of_lt_of_eq ?_ List.length_range
    refine List.countP_lt_length_iff.mpr ⟨source, List.mem_range.mpr (hsources _ hsource), ?_⟩
    simp [distance?_start hsources, hsource]
  have hwaiting : (start costs.size sources : Search ℚ).frontier.length = sources.length := by
    rw [(perm_frontier_start _ _).length_eq, List.length_map]
  have hfresh := List.countP_le_length (l := (start costs.size sources : Search ℚ).frontier)
    (p := fun e => decide ((start costs.size sources : Search ℚ).distance? e.2 = some e.1))
  unfold remaining
  omega

/-- A search settles all that it reaches. -/
theorem sound_run (htarget : target.Lawful) (hsize : costs.size = target.size)
    (hcosts : ∀ u < target.size, 0 < costs.getD u 0) (hsources : ∀ x ∈ sources, x < target.size) :
    (∃ level, (run target costs sources).Sound target costs sources level noneLeft) ∧
      (run target costs sources).frontier = [] := by
  rw [← hsize] at hsources
  obtain ⟨hsound, hempty⟩ := (sound_start target hsources).settle htarget hsize hcosts
    (costs.size + sources.length)
  refine ⟨hsound, ?_⟩
  cases sources with
  | nil => exact congrArg Search.frontier (settle_of_frontier_nil rfl _)
  | cons source rest => exact hempty (remaining_start_lt List.mem_cons_self hsources)

/-- Once all is settled, going on along a walk shows its end to be as near as the walk is cheap. -/
theorem Sound.exists_le_of_walk (htarget : target.Lawful)
    (h : s.Sound target costs sources level noneLeft) (hempty : s.frontier = []) {a x : Nat} {d : ℚ}
    (ha : s.distance? a = some d) (walk : target.slotGraph.Walk a x) :
    ∃ d' ≤ d + Target.entryCost costs walk, s.distance? x = some d' := by
  induction walk generalizing d with
  | nil => exact ⟨d, by simp, ha⟩
  | @cons a b x hadj walk ih =>
    have hneighbors := ((h.settled a d ha).resolve_left (by simp [hempty])).2
    obtain ⟨d', hle, hb⟩ := (hneighbors b (htarget.slotGraph_adj.mp hadj)).resolve_left id
    obtain ⟨d'', hle', hx⟩ := ih hb
    rw [Target.entryCost_cons]
    exact ⟨d'', by linarith, hx⟩

/-- Once all is settled, the end of every walk from a source is known. -/
theorem Sound.exists_le (htarget : target.Lawful)
    (h : s.Sound target costs sources level noneLeft) (hempty : s.frontier = []) {x : Nat} {c : ℚ}
    (hc : c ∈ target.walkCosts costs sources x) : ∃ d ≤ c, s.distance? x = some d := by
  obtain ⟨source, hsource, walk, rfl⟩ := hc
  simpa using h.exists_le_of_walk htarget hempty (h.source source hsource) walk

/-- Once all is settled, what is known is least. -/
theorem Sound.distance?_eq_some_iff (htarget : target.Lawful)
    (h : s.Sound target costs sources level noneLeft) (hempty : s.frontier = []) {x : Nat} {d : ℚ} :
    s.distance? x = some d ↔ IsLeast (target.walkCosts costs sources x) d := by
  constructor
  · intro hd
    refine ⟨h.attained x d hd, fun c hc => ?_⟩
    obtain ⟨d', hle, hd'⟩ := h.exists_le htarget hempty hc
    exact (Option.some.inj (hd.symm.trans hd')).trans_le hle
  · rintro ⟨hmem, hleast⟩
    obtain ⟨d', hle, hd'⟩ := h.exists_le htarget hempty hmem
    rw [hd', le_antisymm hle (hleast (h.attained x d' hd'))]

/-- A slot is unknown if no walk leads to it. -/
theorem Sound.distance?_eq_none_iff (htarget : target.Lawful)
    (h : s.Sound target costs sources level noneLeft) (hempty : s.frontier = []) {x : Nat} :
    s.distance? x = none ↔ target.walkCosts costs sources x = ∅ := by
  rw [Set.eq_empty_iff_forall_notMem, Option.eq_none_iff_forall_ne_some]
  constructor
  · intro hnone c hc
    obtain ⟨d, _, hd⟩ := h.exists_le htarget hempty hc
    exact hnone d hd
  · intro hnone d hd
    exact hnone d (h.attained x d hd)

/-- The sources are the slots that cost nothing. -/
theorem Sound.distance?_eq_zero_iff (htarget : target.Lawful)
    (hcosts : ∀ u < target.size, 0 < costs.getD u 0)
    (h : s.Sound target costs sources level noneLeft) {x : Nat} :
    s.distance? x = some 0 ↔ x ∈ sources := by
  refine ⟨fun hzero => ?_, h.source x⟩
  obtain ⟨source, hsource, walk, hwalk⟩ := h.attained x 0 hzero
  rcases Target.entryCost_pos_or_eq htarget hcosts walk with hpos | ⟨rfl, _⟩
  · exact absurd hwalk hpos.ne'
  · exact hsource

/-- Once all is settled, a slot that is not a source has a parent that is nearer by the cost of the
slot. -/
theorem Sound.exists_parent (htarget : target.Lawful)
    (hcosts : ∀ u < target.size, 0 < costs.getD u 0)
    (h : s.Sound target costs sources level noneLeft) (hempty : s.frontier = []) {x : Nat} {d : ℚ}
    (hx : s.distance? x = some d) (hpos : 0 < d) :
    ∃ p d', s.parent? x = some p ∧ x ∈ target.neighborSlots p ∧ s.distance? p = some d' ∧
      d = d' + costs.getD x 0 ∧ d' < d := by
  obtain ⟨p, hparent, hcoupler, d', hp, hle⟩ := h.parent x d hx hpos
  have hneighbors := ((h.settled p d' hp).resolve_left (by simp [hempty])).2
  obtain ⟨d'', hle', hx'⟩ := (hneighbors x hcoupler).resolve_left id
  obtain rfl := Option.some.inj (hx.symm.trans hx')
  have hcost : 0 < costs.getD x 0 := hcosts x (htarget.lt_size p x hcoupler)
  exact ⟨p, d', hparent, hcoupler, hp, by linarith, by linarith⟩

/-- The way back from a source is empty. -/
theorem Sound.wayBack_source (htarget : target.Lawful)
    (hcosts : ∀ u < target.size, 0 < costs.getD u 0)
    (h : s.Sound target costs sources level noneLeft) {x : Nat} (hx : s.distance? x = some 0)
    (fuel : Nat) : WayBack target costs sources s x (s.walk fuel x) := by
  have hwalk : s.walk fuel x = [] := by cases fuel <;> simp [walk, hx]
  rw [hwalk]
  exact .source ((h.distance?_eq_zero_iff htarget hcosts).mp hx)

/-- Once all is settled, the parents lead back to a source. -/
theorem Sound.wayBack (htarget : target.Lawful) (hcosts : ∀ u < target.size, 0 < costs.getD u 0)
    (h : s.Sound target costs sources level noneLeft) (hempty : s.frontier = []) {x fuel : Nat}
    {d : ℚ} (hx : s.distance? x = some d) (hfuel : s.nearer d ≤ fuel) :
    WayBack target costs sources s x (s.walk fuel x) := by
  induction fuel generalizing x d with
  | zero =>
    rcases (h.distance_nonneg htarget hcosts hx).eq_or_lt with rfl | hpos
    · exact h.wayBack_source htarget hcosts hx 0
    · obtain ⟨_, _, _, _, hp, _, hlt⟩ := h.exists_parent htarget hcosts hempty hx hpos
      have hnearer := nearer_lt_nearer hp hlt
      omega
  | succ fuel ih =>
    rcases (h.distance_nonneg htarget hcosts hx).eq_or_lt with rfl | hpos
    · exact h.wayBack_source htarget hcosts hx (fuel + 1)
    · obtain ⟨p, d', hparent, hcoupler, hp, hcost, hlt⟩ :=
        h.exists_parent htarget hcosts hempty hx hpos
      have hnearer := nearer_lt_nearer hp hlt
      have hwalk : s.walk (fuel + 1) x = x :: s.walk fuel p := by simp [walk, hx, hpos, hparent]
      rw [hwalk]
      exact .step hx hparent hcoupler hp hcost hlt (ih hp (by omega))

/-- A search ends with its queue empty, and more rounds would change nothing. It then knows the
least cost of a walk from a source to each slot, zero at the sources and nothing where no walk
leads, and from every slot it knows the parents lead back to a source. -/
theorem run_isLeast (htarget : target.Lawful) (hsize : costs.size = target.size)
    (hcosts : ∀ u < target.size, 0 < costs.getD u 0) (hsources : ∀ x ∈ sources, x < target.size) :
    ((run target costs sources).frontier = [] ∧
      ∀ more, Search.settle target costs (costs.size + sources.length + more)
        (start costs.size sources) = run target costs sources) ∧
    (∀ x d, (run target costs sources).distance? x = some d ↔
      IsLeast (target.walkCosts costs sources x) d) ∧
    (∀ x, (run target costs sources).distance? x = none ↔
      target.walkCosts costs sources x = ∅) ∧
    (∀ x, (run target costs sources).distance? x = some 0 ↔ x ∈ sources) ∧
    ∀ x d, (run target costs sources).distance? x = some d → ∀ fuel, target.size ≤ fuel →
      WayBack target costs sources (run target costs sources) x
        ((run target costs sources).walk fuel x) := by
  obtain ⟨⟨level, hsound⟩, hempty⟩ := sound_run htarget hsize hcosts hsources
  refine ⟨⟨hempty, fun more => ?_⟩, fun x d => ?_, fun x => ?_, fun x => ?_,
    fun x d hx fuel hfuel => ?_⟩
  · exact (settle_add _ _ _).trans (settle_of_frontier_nil hempty more)
  · exact hsound.distance?_eq_some_iff htarget hempty
  · exact hsound.distance?_eq_none_iff htarget hempty
  · exact hsound.distance?_eq_zero_iff htarget hcosts
  · have hnearer := nearer_le (run target costs sources) d
    rw [hsound.distances_size, hsize] at hnearer
    exact hsound.wayBack htarget hcosts hempty hx (hnearer.trans hfuel)

/-- In a ring of four the opposite slot is reached past the cheaper of its neighbours, though the
source is listed twice, and no walk leads to the coupler apart. -/
theorem run_isLeast_ring :
    IsLeast (Target.walkCosts (.ofEdges [(0, 1), (1, 2), (2, 3), (0, 3), (4, 5)])
      #[1, 5, 1, 1 / 2, 1, 1] [0, 0] 2) (3 / 2) ∧
    Target.walkCosts (.ofEdges [(0, 1), (1, 2), (2, 3), (0, 3), (4, 5)])
      #[1, 5, 1, 1 / 2, 1, 1] [0, 0] 4 = ∅ ∧
    WayBack (.ofEdges [(0, 1), (1, 2), (2, 3), (0, 3), (4, 5)]) #[1, 5, 1, 1 / 2, 1, 1] [0, 0]
      (run (.ofEdges [(0, 1), (1, 2), (2, 3), (0, 3), (4, 5)]) #[1, 5, 1, 1 / 2, 1, 1] [0, 0])
      2 [2, 3] := by
  have hcosts : ∀ u < (Target.ofEdges [(0, 1), (1, 2), (2, 3), (0, 3), (4, 5)]).size,
      0 < (#[1, 5, 1, 1 / 2, 1, 1] : Array ℚ).getD u 0 := by
    decide +kernel
  have hsources : ∀ x ∈ [0, 0],
      x < (Target.ofEdges [(0, 1), (1, 2), (2, 3), (0, 3), (4, 5)]).size := by
    decide +kernel
  obtain ⟨_, hleast, hnone, _, hback⟩ :=
    run_isLeast (Target.lawful_ofEdges [(0, 1), (1, 2), (2, 3), (0, 3), (4, 5)])
      (by decide +kernel) hcosts hsources
  have hopposite : (run (.ofEdges [(0, 1), (1, 2), (2, 3), (0, 3), (4, 5)])
      #[1, 5, 1, 1 / 2, 1, 1] [0, 0] : Search ℚ).distance? 2 = some (3 / 2) := by
    decide +kernel
  refine ⟨(hleast 2 (3 / 2)).mp hopposite, (hnone 4).mp (by decide +kernel), ?_⟩
  have hwalk : (run (.ofEdges [(0, 1), (1, 2), (2, 3), (0, 3), (4, 5)])
      #[1, 5, 1, 1 / 2, 1, 1] [0, 0] : Search ℚ).walk 6 2 = [2, 3] := by
    decide +kernel
  have hway := hback 2 (3 / 2) hopposite 6 (by decide +kernel)
  rwa [hwalk] at hway

end Sound

end Search

end SpinGlass

import SpinGlass.Proofs.Embedding.Found

/-!
# Larger budgets

A routing keeps the best chains that it found, and the rounds that it makes do not depend on how
many more are allowed. So more rounds only find chains that are at least as small. More trials only
add results, and of equally small ones the first is returned.
-/

namespace SpinGlass

namespace Routing

variable {logical : LogicalGraph} {target : Target} {r : Routing}

/-- The best chains are there if they were before, with no more slots. -/
def NoWorse (new old : Option (Nat × List (List Nat))) : Prop :=
  ∀ size chains, old = some (size, chains) →
    ∃ size' ≤ size, ∃ chains', new = some (size', chains')

theorem NoWorse.refl (best : Option (Nat × List (List Nat))) : NoWorse best best :=
  fun size chains h => ⟨size, le_rfl, chains, h⟩

theorem NoWorse.trans {a b c : Option (Nat × List (List Nat))} (hab : NoWorse a b)
    (hbc : NoWorse b c) : NoWorse a c := by
  intro size chains h
  obtain ⟨size', hle, chains', h'⟩ := hbc size chains h
  obtain ⟨size'', hle', found⟩ := hab size' chains' h'
  exact ⟨size'', hle'.trans hle, found⟩

/-- The best chains are noted with their number of slots. -/
def Counted (r : Routing) : Prop :=
  ∀ size chains, r.best = some (size, chains) → Dense.slotCount chains = size

theorem noWorse_improve (r : Routing) (logical : LogicalGraph) (target : Target) :
    NoWorse (r.improve logical target).2.best r.best := by
  rcases r.improve_cases logical target with heq | ⟨_, hless, heq⟩ <;> rw [heq]
  · exact .refl _
  · intro size chains h
    exact ⟨_, (hless size chains h).le, _, rfl⟩

theorem Counted.improve (h : r.Counted) : (r.improve logical target).2.Counted := by
  rcases r.improve_cases logical target with heq | ⟨_, _, heq⟩ <;> rw [heq]
  · exact h
  · intro size chains hbest
    cases hbest
    rfl

/-- The chains of a placement are kept once. -/
theorem improve_improve (r : Routing) (logical : LogicalGraph) (target : Target) :
    ((r.improve logical target).2.improve logical target).2 = (r.improve logical target).2 := by
  rcases r.improve_cases logical target with heq | ⟨_, _, heq⟩
  · rw [heq, heq]
  · rw [heq]
    rcases improve_cases _ logical target with heq' | ⟨_, hless, _⟩
    · exact heq'
    · exact absurd (hless _ _ rfl) (lt_irrefl _)

section Run

variable {K : Type} [Coefficient K] {task : RoutingTask K}

/-- Whether rounds go on after a placement, and with which one, does not depend on how many more
are allowed. -/
theorem rounds_succ_cases (task : RoutingTask K) (cancelled : Bool) (round stale : Nat)
    (order : List Nat) (r : Routing) :
    (∀ left, rounds task cancelled (left + 1) round stale order r =
      (r.improve task.logical task.target).2) ∨
    ∃ stale' order' placement, ∀ left, rounds task cancelled (left + 1) round stale order r =
      rounds task cancelled left (round + 1) stale' order'
        { (r.improve task.logical task.target).2 with placement } := by
  simp only [rounds]
  generalize (if r.placement.isValid task.logical task.target = true then
    if (r.improve task.logical task.target).1 = true then 0 else stale + 1 else stale) = stale'
  split
  · exact .inl fun _ => rfl
  · exact .inr ⟨_, _, _, fun _ => rfl⟩

theorem noWorse_rounds (task : RoutingTask K) (cancelled : Bool) (left round stale : Nat)
    (order : List Nat) (r : Routing) :
    NoWorse (rounds task cancelled left round stale order r).best r.best := by
  induction left generalizing round stale order r with
  | zero => exact .refl _
  | succ left ih =>
    have himprove := r.noWorse_improve task.logical task.target
    rcases rounds_succ_cases task cancelled round stale order r with hstop | ⟨_, _, _, hgo⟩
    · rw [hstop]
      exact himprove
    · rw [hgo]
      exact (ih _ _ _ _).trans himprove

theorem Counted.rounds (h : r.Counted) (cancelled : Bool) (left round stale : Nat)
    (order : List Nat) : (rounds task cancelled left round stale order r).Counted := by
  induction left generalizing round stale order r with
  | zero => exact h
  | succ left ih =>
    rcases rounds_succ_cases task cancelled round stale order r with hstop | ⟨_, _, placement, hgo⟩
    · rw [hstop]
      exact h.improve
    · have hnext : Counted { (r.improve task.logical task.target).2 with placement } := h.improve
      rw [hgo]
      exact ih hnext _ _ _

/-- More rounds after the same placement are no loss. -/
theorem noWorse_rounds_add (task : RoutingTask K) (cancelled : Bool)
    (left more round stale : Nat) (order : List Nat) (r : Routing) :
    NoWorse
      ((rounds task cancelled (left + more) round stale order r).improve
        task.logical task.target).2.best
      ((rounds task cancelled left round stale order r).improve
        task.logical task.target).2.best := by
  induction left generalizing round stale order r with
  | zero =>
    cases more with
    | zero => exact .refl _
    | succ more =>
      rw [Nat.zero_add]
      rcases rounds_succ_cases task cancelled round stale order r with hstop | ⟨_, _, _, hgo⟩
      · rw [hstop, improve_improve]
        exact .refl _
      · rw [hgo]
        exact (noWorse_improve _ _ _).trans (noWorse_rounds task cancelled more _ _ _ _)
  | succ left ih =>
    rw [Nat.add_right_comm]
    rcases rounds_succ_cases task cancelled round stale order r with hstop | ⟨_, _, _, hgo⟩
    · rw [hstop, hstop]
      exact .refl _
    · rw [hgo, hgo]
      exact ih _ _ _ _

/-- With more rounds a routing still finds chains, with no more slots. -/
theorem exists_run_le {order : List Nat} {seed : UInt64} {cancelled : Bool} {m m' : Nat}
    (hm : m ≤ m') {chains : List (List Nat)}
    (h : run task order m seed cancelled = some chains) :
    ∃ chains', run task order m' seed cancelled = some chains' ∧
      Dense.slotCount chains' ≤ Dense.slotCount chains := by
  obtain ⟨more, rfl⟩ := Nat.exists_eq_add_of_le hm
  unfold run at h ⊢
  dsimp only at h ⊢
  obtain ⟨⟨size, found⟩, hbest, rfl⟩ := Option.map_eq_some_iff.mp h
  have hstart : (Routing.mk (placeAll task initialPenalty order
      (.start task.logical task.target seed)) none).Counted := fun _ _ hnone => nomatch hnone
  obtain ⟨size', hle, chains', hbest'⟩ :=
    noWorse_rounds_add task cancelled m more 0 0 order _ size found hbest
  refine ⟨chains', by rw [hbest']; rfl, ?_⟩
  rw [(hstart.rounds cancelled _ 0 0 order).improve _ _ hbest',
    (hstart.rounds cancelled _ 0 0 order).improve _ _ hbest]
  exact hle

/-- A routing that is cancelled makes no rounds. -/
theorem run_cancelled (task : RoutingTask K) (order : List Nat) (maxRounds : Nat) (seed : UInt64) :
    run task order maxRounds seed true = run task order 0 seed false := by
  cases maxRounds with
  | zero => rfl
  | succ left =>
    have hstop : ∀ r : Routing, rounds task true (left + 1) 0 0 order r =
        (r.improve task.logical task.target).2 := by
      intro r
      unfold rounds
      dsimp only
      rw [Bool.or_true, if_pos rfl]
    unfold run
    dsimp only
    rw [hstop, improve_improve]
    rfl

end Run

end Routing

namespace Dense

section Smallest

variable {results : List (List (List Nat))} {chains : List (List Nat)}

theorem smallest?_append_singleton (results : List (List (List Nat))) (chains : List (List Nat)) :
    smallest? (results ++ [chains]) =
      match smallest? results with
      | some known => if slotCount chains < slotCount known then some chains else some known
      | none => some chains := by
  unfold smallest?
  rw [List.foldl_append, List.foldl_cons, List.foldl_nil]
  generalize List.foldl _ none results = best
  cases best <;> rfl

/-- Further results replace the smallest one only if they are smaller. -/
theorem smallest?_append (h : smallest? results = some chains) (more : List (List (List Nat))) :
    smallest? (results ++ more) = some chains ∨
      ∃ chains', smallest? (results ++ more) = some chains' ∧
        slotCount chains' < slotCount chains := by
  induction more using List.reverseRecOn with
  | nil => exact .inl (by rwa [List.append_nil])
  | append_singleton more last ih =>
    rw [← List.append_assoc, smallest?_append_singleton]
    rcases ih with heq | ⟨chains', heq, hless⟩ <;> simp only [heq]
    · by_cases hlast : slotCount last < slotCount chains
      · exact .inr ⟨last, if_pos hlast, hlast⟩
      · exact .inl (if_neg hlast)
    · by_cases hlast : slotCount last < slotCount chains'
      · exact .inr ⟨last, if_pos hlast, hlast.trans hless⟩
      · exact .inr ⟨chains', if_neg hlast, hless⟩

/-- The smallest result is no larger than any. -/
theorem exists_smallest?_le (h : chains ∈ results) :
    ∃ least, smallest? results = some least ∧ slotCount least ≤ slotCount chains := by
  obtain ⟨before, after, rfl⟩ := List.append_of_mem h
  have hfirst : ∃ least, smallest? (before ++ [chains]) = some least ∧
      slotCount least ≤ slotCount chains := by
    rw [smallest?_append_singleton]
    cases smallest? before with
    | none => exact ⟨chains, rfl, le_rfl⟩
    | some known =>
      by_cases hless : slotCount chains < slotCount known
      · exact ⟨chains, if_pos hless, le_rfl⟩
      · exact ⟨known, if_neg hless, not_lt.mp hless⟩
  obtain ⟨least, hleast, hle⟩ := hfirst
  rw [List.append_cons]
  rcases smallest?_append hleast after with heq | ⟨chains', heq, hless⟩
  · exact ⟨least, heq, hle⟩
  · exact ⟨chains', heq, hless.le.trans hle⟩

end Smallest

section Embed

variable {K : Type} [Coefficient K] {logical : LogicalGraph} {target : Target} {seed : UInt64}

/-- The chains that the trials find, in order. -/
def results (K : Type) [Coefficient K] (trials maxRounds : Nat) (seed : UInt64)
    (logical : LogicalGraph) (target : Target) (cancelled : Bool) : List (List (List Nat)) :=
  (List.range (max trials 1)).filterMap fun t =>
    trial K logical target maxRounds cancelled (seed + UInt64.ofNat t)

theorem embed_eq (K : Type) [Coefficient K] (trials maxRounds : Nat) (seed : UInt64)
    (logical : LogicalGraph) (target : Target) (cancelled : Bool) :
    embed K trials maxRounds seed logical target cancelled =
      match smallest? (results K trials maxRounds seed logical target cancelled) with
      | some chains => .ok (.ofSlots target chains)
      | none => .error (if cancelled then .cancelled else .noEmbedding (max trials 1)) := rfl

theorem embed_eq_ok_iff {trials maxRounds : Nat} {cancelled : Bool} {e : Embedding} :
    embed K trials maxRounds seed logical target cancelled = .ok e ↔
      ∃ chains, smallest? (results K trials maxRounds seed logical target cancelled) = some chains ∧
        Embedding.ofSlots target chains = e := by
  rw [embed_eq]
  cases smallest? (results K trials maxRounds seed logical target cancelled) <;> simp

/-- More trials add their results to those before. -/
theorem exists_results_append (K : Type) [Coefficient K] (seed : UInt64) (logical : LogicalGraph)
    (target : Target) {t t' : Nat} (ht : t ≤ t') (maxRounds : Nat) (cancelled : Bool) :
    ∃ more, results K t' maxRounds seed logical target cancelled =
      results K t maxRounds seed logical target cancelled ++ more := by
  obtain ⟨more, hmore⟩ := Nat.exists_eq_add_of_le (max_le_max_right 1 ht)
  unfold results
  rw [hmore, List.range_add, List.filterMap_append]
  exact ⟨_, rfl⟩

/-- With more rounds there is a result for each of before, with no more slots. -/
theorem exists_mem_results_le {t m m' : Nat} (hm : m ≤ m') {cancelled : Bool}
    {chains : List (List Nat)} (h : chains ∈ results K t m seed logical target cancelled) :
    ∃ chains' ∈ results K t m' seed logical target cancelled,
      slotCount chains' ≤ slotCount chains := by
  obtain ⟨s, hs, htrial⟩ := List.mem_filterMap.mp h
  obtain ⟨chains', htrial', hle⟩ := Routing.exists_run_le hm htrial
  exact ⟨chains', List.mem_filterMap.mpr ⟨s, hs, htrial'⟩, hle⟩

/-- What cancelled trials find is what trials without rounds find. -/
theorem results_cancelled (t m : Nat) :
    results K t m seed logical target true = results K t 0 seed logical target false := by
  unfold results
  refine List.filterMap_congr fun s _ => ?_
  exact Routing.run_cancelled _ _ m _

/-- The qubits of an embedding are the slots of its chains. -/
theorem totalQubits_ofSlots (htarget : target.Lawful) {chains : List (List Nat)}
    (h : Placed logical target chains) :
    (Embedding.ofSlots target chains).totalQubits = slotCount chains := by
  obtain ⟨p, hsound, _, rfl⟩ := h
  have hlength : ∀ chain ∈ p.chains.toList,
      (sortDistinct (chain.map target.qubit)).length = chain.length := by
    intro chain hchain
    have hslots := hsound.isChain chain hchain
    have hnodup : (chain.map target.qubit).Nodup :=
      hslots.nodup.map_on fun a ha b hb heq =>
        htarget.qubit_inj (hslots.lt_size a ha) (hslots.lt_size b hb) heq
    have hperm : (sortDistinct (chain.map target.qubit)).Perm (chain.map target.qubit) :=
      (List.perm_ext_iff_of_nodup (nodup_sortDistinct _) hnodup).mpr fun _ => mem_sortDistinct
    rw [hperm.length_eq, List.length_map]
  unfold Embedding.totalQubits Embedding.ofSlots Embedding.ofChains slotCount
  simp only [List.length_flatten, List.map_map]
  congr 1
  exact List.map_congr_left fun chain hchain => hlength chain hchain

/-- An embedding that is found is that of the smallest result, with the qubits of its slots. -/
theorem exists_of_embed (htarget : target.Lawful) {t m : Nat} {cancelled : Bool} {e : Embedding}
    (h : embed K t m seed logical target cancelled = .ok e) :
    ∃ chains, smallest? (results K t m seed logical target cancelled) = some chains ∧
      Embedding.ofSlots target chains = e ∧ e.totalQubits = slotCount chains := by
  obtain ⟨chains, hsmallest, rfl⟩ := embed_eq_ok_iff.mp h
  obtain ⟨s, _, htrial⟩ := List.mem_filterMap.mp (mem_of_smallest? hsmallest)
  exact ⟨chains, hsmallest, rfl, totalQubits_ofSlots htarget (placed_of_trial htarget htrial)⟩

/-- More trials and more rounds find an embedding if fewer do, with no more qubits, and more trials
alone find the same one if they do not find fewer qubits. Cancelled from the start, the search does
what it does without rounds, and only names its failure differently. -/
theorem embed_budget (K : Type) [Coefficient K] (logical : LogicalGraph) (htarget : target.Lawful)
    (seed : UInt64) {t t' m m' : Nat} (ht : t ≤ t') (hm : m ≤ m') :
    (∀ e, embed K t m seed logical target false = .ok e →
      (∃ e', embed K t' m' seed logical target false = .ok e' ∧
        e'.totalQubits ≤ e.totalQubits) ∧
      ∀ e', embed K t' m seed logical target false = .ok e' →
        e'.totalQubits = e.totalQubits → e' = e) ∧
    embed K t m seed logical target true =
      (embed K t 0 seed logical target false).mapError (fun _ => .cancelled) ∧
    ∀ error, embed K t 0 seed logical target false = .error error →
      error = .noEmbedding (max t 1) := by
  refine ⟨fun e he => ⟨?smaller, fun e' he' hequal => ?same⟩, ?cancelled, ?error⟩
  case smaller =>
    obtain ⟨chains, hsmallest, _, hcount⟩ := exists_of_embed htarget he
    obtain ⟨chains', hmem, hle⟩ := exists_mem_results_le hm (mem_of_smallest? hsmallest)
    obtain ⟨more, hmore⟩ := exists_results_append K seed logical target ht m' false
    obtain ⟨least, hleast, hle'⟩ := exists_smallest?_le (List.mem_append_left more hmem)
    rw [← hmore] at hleast
    have hfound := embed_eq_ok_iff.mpr ⟨least, hleast, rfl⟩
    obtain ⟨least', hleast', _, hcount'⟩ := exists_of_embed htarget hfound
    obtain rfl := Option.some.inj (hleast.symm.trans hleast')
    exact ⟨_, hfound, by omega⟩
  case same =>
    obtain ⟨chains, hsmallest, rfl, hcount⟩ := exists_of_embed htarget he
    obtain ⟨chains', hsmallest', rfl, hcount'⟩ := exists_of_embed htarget he'
    obtain ⟨more, hmore⟩ := exists_results_append K seed logical target ht m false
    rw [hmore] at hsmallest'
    rcases smallest?_append hsmallest more with hkept | ⟨found, hfound, hless⟩
    · rw [Option.some.inj (hsmallest'.symm.trans hkept)]
    · obtain rfl := Option.some.inj (hsmallest'.symm.trans hfound)
      omega
  case cancelled =>
    rw [embed_eq, embed_eq, results_cancelled]
    cases smallest? (results K t 0 seed logical target false) <;> rfl
  case error =>
    intro error herror
    rw [embed_eq] at herror
    cases hsmallest : smallest? (results K t 0 seed logical target false) with
    | none =>
      rw [hsmallest] at herror
      exact (Except.error.inj herror).symm
    | some chains =>
      rw [hsmallest] at herror
      cases herror

/-- For a triangle on a ring of five with a chord, the first trial finds four qubits without
rounds. With rounds and a second trial it takes no more. -/
theorem embed_budget_chord :
    ∃ e, embed ℚ 1 0 10 ((((LogicalGraph.empty 3).addEdge 0 1).addEdge 1 2).addEdge 0 2)
        (.ofEdges [(0, 1), (1, 2), (2, 3), (3, 4), (4, 0), (0, 2)]) false = .ok e ∧
      e.totalQubits = 4 ∧
      ∃ e', embed ℚ 2 3 10 ((((LogicalGraph.empty 3).addEdge 0 1).addEdge 1 2).addEdge 0 2)
          (.ofEdges [(0, 1), (1, 2), (2, 3), (3, 4), (4, 0), (0, 2)]) false = .ok e' ∧
        e'.totalQubits ≤ 4 := by
  have hfour : ((embed ℚ 1 0 10
      ((((LogicalGraph.empty 3).addEdge 0 1).addEdge 1 2).addEdge 0 2)
      (.ofEdges [(0, 1), (1, 2), (2, 3), (3, 4), (4, 0), (0, 2)]) false).map
        (·.totalQubits)).toOption = some 4 := by
    decide +kernel
  have hbudget := (embed_budget ℚ ((((LogicalGraph.empty 3).addEdge 0 1).addEdge 1 2).addEdge 0 2)
    (Target.lawful_ofEdges [(0, 1), (1, 2), (2, 3), (3, 4), (4, 0), (0, 2)]) 10
    (show 1 ≤ 2 by decide) (show 0 ≤ 3 by decide)).1
  cases hfound : embed ℚ 1 0 10
      ((((LogicalGraph.empty 3).addEdge 0 1).addEdge 1 2).addEdge 0 2)
      (.ofEdges [(0, 1), (1, 2), (2, 3), (3, 4), (4, 0), (0, 2)]) false with
  | error err =>
    rw [hfound] at hfour
    cases hfour
  | ok e =>
    rw [hfound] at hfour
    have htotal : e.totalQubits = 4 := Option.some.inj hfour
    obtain ⟨⟨e', he', hle⟩, _⟩ := hbudget e hfound
    exact ⟨e, rfl, htotal, e', he', htotal ▸ hle⟩

end Embed

end Dense

end SpinGlass

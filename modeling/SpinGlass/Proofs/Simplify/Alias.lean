import SpinGlass.Proofs.Simplify.Merge
import SpinGlass.Proofs.Success

/-!
# Aliasing chains

Merging the ends of a chain takes the higher end out of use: the problem mentions roots only, as
before, and the feasible assignments are those that were feasible with the chain. Going on until no
chain is left turns every chain into a link, without a change to the energy of an assignment that
respects the links.
-/

namespace SpinGlass.Model

section Pins

variable {K : Type} {live : Nat → Prop} {m : Model K} {keep drop : Nat} {p : Problem K}

/-- A pin that is moved takes the place of an equal one, or of none. -/
theorem mergePin_eq_ok (h : m.mergePin keep drop = .ok p) :
    (m.problem.pinned.get? drop = none ∧ p = m.problem) ∨
      ∃ dropped, m.problem.pinned.get? drop = some dropped ∧
        (∀ kept, m.problem.pinned.get? keep = some kept → kept = dropped) ∧
        p = { m.problem with pinned := (m.problem.pinned.erase drop).insert keep dropped } := by
  unfold mergePin at h
  simp only at h
  cases hdrop : m.problem.pinned.get? drop with
  | none =>
    simp only [hdrop] at h
    exact .inl ⟨rfl, (Except.ok.inj h).symm⟩
  | some dropped =>
    simp only [hdrop] at h
    refine .inr ⟨dropped, rfl, ?_⟩
    cases hpin : m.problem.pinned.get? keep with
    | none =>
      simp only [hpin] at h
      exact ⟨by simp, (Except.ok.inj h).symm⟩
    | some kept =>
      simp only [hpin] at h
      split at h
      · next heq =>
        exact ⟨fun other hother => (Option.some.inj hother).symm.trans heq, (Except.ok.inj h).symm⟩
      · cases h

/-- A moved pin leaves the dropped variable, and asks for the same of an assignment with one spin
for both. Nothing else changes. -/
theorem mergePin_spec (h : m.mergePin keep drop = .ok p) (hm : m.problem.Over live)
    (hkeep : live keep) (hne : keep ≠ drop) :
    p = { m.problem with pinned := p.pinned } ∧ p.Over live ∧ p.pinned.get? drop = none ∧
      ∀ s : Assignment, s drop = s keep → (p.MeetsPins s ↔ m.problem.MeetsPins s) := by
  rcases mergePin_eq_ok h with ⟨hdrop, rfl⟩ | ⟨dropped, hdrop, hagree, rfl⟩
  · exact ⟨rfl, hm, hdrop, fun _ _ => Iff.rfl⟩
  have hget : ∀ i, ((m.problem.pinned.erase drop).insert keep dropped).get? i =
      if i = keep then some dropped else if i = drop then none else m.problem.pinned.get? i := by
    intro i
    rw [Table.get?_insert, Table.get?_erase]
  refine ⟨rfl, ⟨hm.weights, hm.strengths, hm.chains, fun i spin hi => ?_, hm.helpers⟩,
    by simp [hget, hne.symm], fun s hs => ⟨fun hpins i spin hi => ?_, fun hpins i spin hi => ?_⟩⟩
  · simp only [hget] at hi
    split at hi
    · next heq => exact heq ▸ hkeep
    · split at hi
      · cases hi
      · exact hm.pinned i spin hi
  · have hkept : s keep = some dropped := hpins keep dropped (by simp [hget])
    by_cases hik : i = keep
    · rw [hik, hkept, hagree spin (hik ▸ hi)]
    · by_cases hid : i = drop
      · rw [hid, hs, hkept, ← hdrop, ← hi, hid]
      · exact hpins i spin (by simp [hget, hik, hid, hi])
  · have hdropped : s drop = some dropped := hpins drop dropped hdrop
    simp only [hget] at hi
    split at hi
    · next hik => rw [hik, ← hs, hdropped, hi]
    · split at hi
      · cases hi
      · exact hpins i spin hi

end Pins

/-- The links of a model lead downwards, and its problem mentions roots only. -/
structure WellLinked {K : Type} (m : Model K) : Prop where
  links : m.symbols.LinksDown
  isOver : m.problem.Over m.symbols.IsRoot

/-- The assignments that give linked indices and the ends of chains one spin. -/
def Joins {K : Type} (m : Model K) (s : Assignment) : Prop :=
  m.symbols.Respects s ∧ m.problem.MeetsChains s

/-- The assignments that give linked indices one spin and meet the pins and the chains. -/
structure Feasible {K : Type} (m : Model K) (s : Assignment) : Prop where
  respects : m.symbols.Respects s
  pins : m.problem.MeetsPins s
  chains : m.problem.MeetsChains s

/-- Pins are all that a feasible assignment meets beyond links and chains. -/
theorem feasible_iff_joins {K : Type} {m : Model K} {s : Assignment} :
    m.Feasible s ↔ m.Joins s ∧ m.problem.MeetsPins s :=
  ⟨fun h => ⟨⟨h.respects, h.chains⟩, h.pins⟩, fun h => ⟨h.1.1, h.2, h.1.2⟩⟩

section Merge

variable {K : Type} [Coefficient K] {m m' : Model K} {keep drop : Nat}

/-- A merge that succeeds moves the pin and then everything else, and records a link. -/
theorem mergeInto_eq_ok (h : m.mergeInto keep drop = .ok m') (hkeep : m.symbols.IsRoot keep)
    (hdrop : m.symbols.IsRoot drop) (hlt : keep < drop) :
    ∃ p, m.mergePin keep drop = .ok p ∧
      m' = ⟨p.merge keep drop, m.symbols.link drop (.merged keep)⟩ := by
  unfold mergeInto at h
  obtain ⟨p, hpin, h⟩ := bind_eq_ok.mp h
  simp only [Symbols.merge_eq_link hkeep hdrop hlt] at h
  cases h
  exact ⟨p, hpin, rfl⟩

/-- What a merge does to a model. -/
structure Merged (m : Model K) (keep drop : Nat) (m' : Model K) : Prop where
  symbols : m'.symbols = m.symbols.link drop (.merged keep)
  wellLinked : m'.WellLinked
  mode : m'.problem.mode = m.problem.mode
  assertions : m'.problem.assertions = m.problem.assertions
  knownValues : m'.problem.knownValues = m.problem.knownValues
  chains_le : m'.problem.chains.size ≤ m.problem.chains.size
  joins_iff : ∀ s : Assignment, m'.Joins s ↔ m.Joins s ∧ s drop = s keep
  meetsPins_iff : ∀ s : Assignment, s drop = s keep →
    (m'.problem.MeetsPins s ↔ m.problem.MeetsPins s)

omit [Coefficient K] in
/-- After a merge, feasible are the assignments that were so and give both variables one spin. -/
theorem Merged.feasible_iff (h : m.Merged keep drop m') (s : Assignment) :
    m'.Feasible s ↔ m.Feasible s ∧ s drop = s keep := by
  rw [feasible_iff_joins, feasible_iff_joins, h.joins_iff]
  constructor
  · rintro ⟨⟨hjoins, heq⟩, hpins⟩
    exact ⟨⟨hjoins, (h.meetsPins_iff s heq).mp hpins⟩, heq⟩
  · rintro ⟨⟨hjoins, hpins⟩, heq⟩
    exact ⟨⟨hjoins, heq⟩, (h.meetsPins_iff s heq).mpr hpins⟩

omit [Coefficient K] in
/-- A merge leads no index astray. -/
theorem Merged.rooted (h : m.Merged keep drop m') (hlinks : m.symbols.LinksDown)
    (hkeep : m.symbols.IsRoot keep) (hdrop : m.symbols.IsRoot drop) (hlt : keep < drop)
    (hrooted : ∀ i, ∃ r, m.symbols.root? i = some r) : ∀ i, ∃ r, m'.symbols.root? i = some r := by
  intro i
  obtain ⟨r, hr⟩ := hrooted i
  rw [h.symbols, hlinks.root?_merged hkeep hdrop hlt, hr]
  exact ⟨_, rfl⟩

/-- A merge of two roots keeps the problem on roots and asks one spin of both. -/
theorem merged_of_ok (h : m.mergeInto keep drop = .ok m') (hm : m.WellLinked)
    (hkeep : m.symbols.IsRoot keep) (hdrop : m.symbols.IsRoot drop) (hlt : keep < drop) :
    m.Merged keep drop m' := by
  obtain ⟨p, hpin, rfl⟩ := mergeInto_eq_ok h hkeep hdrop hlt
  have hne : keep ≠ drop := hlt.ne
  obtain ⟨hp, hover, hnoPin, hpins⟩ := mergePin_spec hpin hm.isOver hkeep hne
  obtain ⟨hmode, hsamePins, hassertions, hknown⟩ := p.merge_eq keep drop hover hkeep hne
  obtain ⟨hle, hchains⟩ := Problem.chains_merge hover hkeep hne
  have hmeets : ∀ s : Assignment, s drop = s keep →
      ((p.merge keep drop).MeetsChains s ↔ m.problem.MeetsChains s) := by
    intro s hs
    refine (hchains s hs).trans ?_
    rw [hp]
    rfl
  refine ⟨rfl, ⟨hm.links.link hdrop.1 fun target ht => ?_, ?_⟩, hmode.trans (by rw [hp]),
    hassertions.trans (by rw [hp]), hknown.trans (by rw [hp]), hle.trans (by rw [hp]), fun s => ?_,
    fun s hs => ?_⟩
  · cases ht
    exact hlt
  · exact (hover.merge hkeep hne hnoPin).mono fun i hi => Symbols.isRoot_link.mpr hi
  · constructor
    · rintro ⟨hrespects, hmeetsChains⟩
      obtain ⟨hrespects, heq⟩ := (Symbols.respects_link_merged hdrop).mp hrespects
      exact ⟨⟨hrespects, (hmeets s heq).mp hmeetsChains⟩, heq⟩
    · rintro ⟨⟨hrespects, hmeetsChains⟩, heq⟩
      exact ⟨(Symbols.respects_link_merged hdrop).mpr ⟨hrespects, heq⟩,
        (hmeets s heq).mpr hmeetsChains⟩
  · rw [← hpins s hs]
    unfold Problem.MeetsPins
    rw [hsamePins]

end Merge

/-- A merge keeps the energy of an assignment with one spin for both variables. -/
theorem energy_mergeInto {m m' : Model ℚ} {keep drop : Nat} (h : m.mergeInto keep drop = .ok m')
    (hm : m.WellLinked) (hkeep : m.symbols.IsRoot keep) (hdrop : m.symbols.IsRoot drop)
    (hlt : keep < drop) {s : Assignment} (hs : s drop = s keep)
    (hcovers : ∃ spin, s keep = some spin) :
    m'.problem.energy s = m.problem.energy s := by
  have hmode := (merged_of_ok h hm hkeep hdrop hlt).mode
  obtain ⟨p, hpin, rfl⟩ := mergeInto_eq_ok h hkeep hdrop hlt
  obtain ⟨hp, hover, _, _⟩ := mergePin_spec hpin hm.isOver hkeep hlt.ne
  have hobjective : ∀ x, p.objective x = m.problem.objective x := by
    intro x
    rw [hp]
    rfl
  rw [Problem.energy_eq_objective, Problem.energy_eq_objective]
  simp only at hmode ⊢
  rw [Problem.objective_merge hover hkeep hlt.ne, hobjective, hmode]
  · exact Problem.value_congr _ hs
  · rw [hmode, show p.mode = m.problem.mode by rw [hp]]
    exact Problem.isValue_value _ hcovers

/-- The model with one chain less. -/
def withoutChain {K : Type} (m : Model K) (q : Pair) : Model K :=
  { m with problem := { m.problem with chains := Table.erase m.problem.chains q } }

/-- A run of merges, each of the ends of a chain, that goes on until no chain is left. -/
inductive Aliases {K : Type} [Coefficient K] : Model K → Model K → Prop where
  | done {m : Model K} (hchains : m.problem.chains = .empty) : Aliases m m
  | merge {m m' m'' : Model K} {q : Pair} (hq : m.problem.chains.contains q = true)
      (hmerge : (m.withoutChain q).mergeInto q.lo q.hi = .ok m') (hrest : Aliases m' m'') :
      Aliases m m''

section Rounds

variable {K : Type} {m m' m'' : Model K} {q : Pair}

theorem WellLinked.withoutChain (hm : m.WellLinked) (q : Pair) : (m.withoutChain q).WellLinked where
  links := hm.links
  isOver := by
    refine ⟨hm.isOver.weights, hm.isOver.strengths, fun r hr => ?_, hm.isOver.pinned,
      hm.isOver.helpers⟩
    exact hm.isOver.chains r (Table.contains_erase_iff.mp hr).2

/-- A chain asks one spin of its ends, beyond what the model without it asks. -/
theorem joins_iff_withoutChain (hq : m.problem.chains.contains q = true) (s : Assignment) :
    m.Joins s ↔ (m.withoutChain q).Joins s ∧ s q.hi = s q.lo := by
  constructor
  · rintro ⟨hrespects, hchains⟩
    exact ⟨⟨hrespects, fun r hr => hchains r (Table.contains_erase_iff.mp hr).2⟩,
      (hchains q hq).symm⟩
  · rintro ⟨⟨hrespects, hchains⟩, heq⟩
    refine ⟨hrespects, fun r hr => ?_⟩
    by_cases hrq : r = q
    · rw [hrq, heq]
    · exact hchains r (Table.contains_erase_iff.mpr ⟨hrq, hr⟩)

/-- What is feasible after a step was feasible before. -/
theorem feasible_iff_withoutChain (hq : m.problem.chains.contains q = true) (s : Assignment) :
    m.Feasible s ↔ (m.withoutChain q).Feasible s ∧ s q.hi = s q.lo := by
  rw [feasible_iff_joins, feasible_iff_joins, joins_iff_withoutChain hq]
  exact and_right_comm

variable [Coefficient K]

/-- A step of a run merges two roots. -/
theorem WellLinked.merged (hm : m.WellLinked) (hq : m.problem.chains.contains q = true)
    (h : (m.withoutChain q).mergeInto q.lo q.hi = .ok m') :
    (m.withoutChain q).Merged q.lo q.hi m' := by
  obtain ⟨hlt, hlo, hhi⟩ := hm.isOver.chains q hq
  exact merged_of_ok h (hm.withoutChain q) hlo hhi hlt

/-- A round merges the ends of a chain, if there is one. -/
theorem aliasRounds_succ (m : Model K) (rounds merged : Nat) :
    (m.problem.chains = .empty ∧ m.aliasRounds (rounds + 1) merged = .ok (merged, m)) ∨
      ∃ q, m.problem.chains.contains q = true ∧ m.aliasRounds (rounds + 1) merged =
        (m.withoutChain q).mergeInto q.lo q.hi >>= aliasRounds rounds (merged + 1) := by
  unfold aliasRounds
  cases hfirst : KeySet.takeFirst? m.problem.chains with
  | none => exact .inl ⟨Table.takeFirst?_eq_none (Option.map_eq_none_iff.mp hfirst), rfl⟩
  | some first =>
    obtain ⟨q, rest⟩ := first
    obtain ⟨hq, rfl⟩ := KeySet.takeFirst?_eq_some hfirst
    exact .inr ⟨q, hq, rfl⟩

/-- A merge of the ends of a chain is a round, and there are as many rounds as chains. -/
theorem aliases_of_aliasRounds {rounds merged count : Nat} (hm : m.WellLinked)
    (hrounds : m.problem.chains.size ≤ rounds) (h : m.aliasRounds rounds merged = .ok (count, m')) :
    m.Aliases m' := by
  induction rounds generalizing merged m with
  | zero =>
    cases h
    exact .done (Table.eq_empty_of_size (Nat.le_zero.mp hrounds))
  | succ rounds ih =>
    rcases m.aliasRounds_succ rounds merged with ⟨hempty, hdone⟩ | ⟨q, hq, hround⟩
    · rw [hdone] at h
      cases h
      exact .done hempty
    · obtain ⟨next, hmerge, h⟩ := bind_eq_ok.mp (hround ▸ h)
      have hmerged := hm.merged hq hmerge
      have hlt : (Table.erase m.problem.chains q).size < m.problem.chains.size :=
        Table.size_erase_lt hq
      have hle : next.problem.chains.size ≤ (Table.erase m.problem.chains q).size :=
        hmerged.chains_le
      exact .merge hq hmerge (ih hmerged.wellLinked (by omega) h)

/-- What aliasing does to a model: no chain is left, and the same assignments are feasible. -/
structure Aliased (m m' : Model K) : Prop where
  wellLinked : m'.WellLinked
  size : m'.symbols.size = m.symbols.size
  byName : m'.symbols.byName = m.symbols.byName
  rooted : (∀ i, ∃ r, m.symbols.root? i = some r) → ∀ i, ∃ r, m'.symbols.root? i = some r
  mode : m'.problem.mode = m.problem.mode
  assertions : m'.problem.assertions = m.problem.assertions
  knownValues : m'.problem.knownValues = m.problem.knownValues
  chains : m'.problem.chains = .empty
  joins_iff : ∀ s : Assignment, m'.Joins s ↔ m.Joins s
  feasible_iff : ∀ s : Assignment, m'.Feasible s ↔ m.Feasible s
  respects : ∀ s : Assignment, m'.symbols.Respects s → m.symbols.Respects s

/-- A run of merges turns all chains into links. -/
theorem Aliases.aliased (h : m.Aliases m') (hm : m.WellLinked) : m.Aliased m' := by
  induction h with
  | done hchains =>
    exact ⟨hm, rfl, rfl, id, rfl, rfl, rfl, hchains, fun _ => Iff.rfl, fun _ => Iff.rfl,
      fun _ => id⟩
  | @merge m m' m'' q hq hmerge _ ih =>
    obtain ⟨hlt, hlo, hhi⟩ := hm.isOver.chains q hq
    have hmerged := hm.merged hq hmerge
    have hrest := ih hmerged.wellLinked
    have hsymbols : m'.symbols = m.symbols.link q.hi (.merged q.lo) := hmerged.symbols
    refine ⟨hrest.wellLinked, hrest.size.trans (by rw [hsymbols]; rfl),
      hrest.byName.trans (by rw [hsymbols]; rfl),
      fun hrooted => hrest.rooted (hmerged.rooted hm.links hlo hhi hlt hrooted),
      hrest.mode.trans hmerged.mode, hrest.assertions.trans hmerged.assertions,
      hrest.knownValues.trans hmerged.knownValues, hrest.chains, fun s => ?_, fun s => ?_,
      fun s hs => ?_⟩
    · rw [hrest.joins_iff, hmerged.joins_iff, joins_iff_withoutChain hq]
    · rw [hrest.feasible_iff, hmerged.feasible_iff, feasible_iff_withoutChain hq]
    · have hnext := hrest.respects s hs
      rw [hsymbols, Symbols.respects_link_merged hhi] at hnext
      exact hnext.1

/-- Pins that one assignment meets do not stop a merge of roots to which it gives one spin. -/
theorem exists_mergeInto_eq_ok {keep drop : Nat} (hkeep : m.symbols.IsRoot keep)
    (hdrop : m.symbols.IsRoot drop) (hlt : keep < drop) {s : Assignment}
    (hpins : m.problem.MeetsPins s) (hs : s drop = s keep) :
    ∃ next, m.mergeInto keep drop = .ok next := by
  have hpin : ∃ p, m.mergePin keep drop = .ok p := by
    unfold mergePin
    dsimp only
    split
    · exact ⟨_, rfl⟩
    · next dropped hdropped =>
      split
      · exact ⟨_, rfl⟩
      · next kept hkept =>
        have heq : kept = dropped := by
          have hspins := hs.symm
          rw [hpins _ _ hkept, hpins _ _ hdropped, Option.some.injEq] at hspins
          exact hspins
        rw [if_pos heq]
        exact ⟨_, rfl⟩
  obtain ⟨p, hp⟩ := hpin
  unfold mergeInto
  rw [hp]
  simp only [Bind.bind, Except.bind, Symbols.merge_eq_link hkeep hdrop hlt]
  exact ⟨_, rfl⟩

/-- If an assignment is feasible, no merge fails. -/
theorem exists_aliasRounds_eq_ok {s : Assignment} (hm : m.WellLinked) (hs : m.Feasible s)
    (rounds merged : Nat) : ∃ count a, m.aliasRounds rounds merged = .ok (count, a) := by
  induction rounds generalizing merged m with
  | zero => exact ⟨_, _, rfl⟩
  | succ rounds ih =>
    rcases m.aliasRounds_succ rounds merged with ⟨_, hdone⟩ | ⟨q, hq, hround⟩
    · exact ⟨_, _, hdone⟩
    · obtain ⟨hlt, hlo, hhi⟩ := hm.isOver.chains q hq
      obtain ⟨hwithout, heq⟩ := (feasible_iff_withoutChain hq s).mp hs
      obtain ⟨next, hnext⟩ :=
        exists_mergeInto_eq_ok (m := m.withoutChain q) hlo hhi hlt hwithout.pins heq
      have hmerged := hm.merged hq hnext
      obtain ⟨count, a, hrest⟩ :=
        ih hmerged.wellLinked ((hmerged.feasible_iff s).mpr ⟨hwithout, heq⟩) (merged + 1)
      rw [hround]
      exact ⟨count, a, bind_eq_ok.mpr ⟨next, hnext, hrest⟩⟩

end Rounds

/-- A run of merges keeps the energy of an assignment that respects the links it makes. -/
theorem Aliases.energy_eq {m m' : Model ℚ} (h : m.Aliases m') (hm : m.WellLinked) {s : Assignment}
    (hcovers : s.Covers m.symbols.size) (hs : m'.symbols.Respects s) :
    m'.problem.energy s = m.problem.energy s := by
  induction h with
  | done hchains => rfl
  | @merge m m' m'' q hq hmerge hrun ih =>
    obtain ⟨hlt, hlo, hhi⟩ := hm.isOver.chains q hq
    have hmerged := hm.merged hq hmerge
    have hsymbols : m'.symbols = m.symbols.link q.hi (.merged q.lo) := hmerged.symbols
    have hrespects := (hrun.aliased hmerged.wellLinked).respects s hs
    rw [hsymbols, Symbols.respects_link_merged hhi] at hrespects
    rw [ih hmerged.wellLinked (by rw [hsymbols]; exact hcovers) hs]
    exact energy_mergeInto hmerge (hm.withoutChain q) hlo hhi hlt hrespects.2 (hcovers q.lo hlo.1)

end SpinGlass.Model

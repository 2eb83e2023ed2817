import SpinGlass.Proofs.Simplify.Names

/-!
# Helpers through a simplification

Helpers get their indices last, so those from some index on are theirs. Through all passes a helper
is coupled to its user alone and reached by no chain. A helper whose user is fixed is coupled to
nothing, so its pin fixes it too before a propagation ends; the helpers that are left still have
their users.
-/

namespace SpinGlass

namespace Problem

variable {K : Type} {n : Nat} {p : Problem K}

/-- The indices from `n` on are left to helpers: their quadratic terms join them to their users, and
no chain reaches them. Helpers stand by pinned variables below `n`. -/
structure Tethered (n : Nat) (p : Problem K) : Prop where
  chains : ∀ q, p.chains.contains q = true → q.hi < n
  strengths : ∀ q j, p.strengths.get? q = some j →
    q.hi < n ∨ p.pinHelpers.get? q.hi = some q.lo
  helpers : ∀ helper user, p.pinHelpers.get? helper = some user →
    n ≤ helper ∧ user < n ∧ ∃ spin, p.pinned.get? user = some spin

/-- Without helpers no index is theirs. -/
theorem tethered_of_over (h : p.Over (· < n)) (hhelpers : p.pinHelpers = .empty) :
    p.Tethered n where
  chains q hq := (h.chains q hq).2.2
  strengths q j hq := .inl (h.strengths q j hq).2.2
  helpers helper user hget := by simp [hhelpers] at hget

/-- The variables below `n` are no helpers. -/
theorem Tethered.pinHelpers_eq_none (h : p.Tethered n) {i : Nat} (hi : i < n) :
    p.pinHelpers.get? i = none :=
  Option.eq_none_iff_forall_ne_some.mpr fun user huser =>
    absurd (h.helpers i user huser).1 (Nat.not_le.mpr hi)

/-- A quadratic term of a helper joins it to its user. -/
theorem Tethered.lo_of_le (h : p.Tethered n) {q : Pair} {j : K} (hq : p.strengths.get? q = some j)
    (hhi : n ≤ q.hi) : q.lo < n ∧ p.pinHelpers.get? q.hi = some q.lo := by
  have huser := (h.strengths q j hq).resolve_left (Nat.not_lt.mpr hhi)
  exact ⟨(h.helpers _ _ huser).2.1, huser⟩

variable [Coefficient K]

/-- Zero terms are no tether. -/
theorem Tethered.pruneZeros (h : p.Tethered n) : p.pruneZeros.Tethered n where
  chains := h.chains
  strengths q j hq := by
    simp only [Problem.pruneZeros, Table.nonzero, Table.get?_filter,
      Option.filter_eq_some_iff] at hq
    exact h.strengths q j hq.1
  helpers := h.helpers

section Merge

variable {live : Nat → Prop} {keep drop : Nat}

theorem strengths_mergeWeight (p : Problem K) (keep drop : Nat) :
    (p.mergeWeight keep drop).strengths = p.strengths := by
  unfold mergeWeight
  split <;> rfl

theorem strengths_merge (p : Problem K) (keep drop : Nat) :
    (p.merge keep drop).strengths =
      ((p.mergeWeight keep drop).mergeStrengths keep drop).strengths := by
  unfold merge
  rw [mergeHelpers_eq]
  rfl

/-- The helpers of a merged user get the user that is kept. -/
theorem pinHelpers_merge (hp : p.Over live) (hkeep : live keep) (hne : keep ≠ drop)
    (hdrop : p.pinHelpers.get? drop = none) : (p.merge keep drop).pinHelpers =
      p.pinHelpers.mapValues fun user => if user = drop then keep else user := by
  obtain ⟨_, hsame, _, _⟩ := mergeStrengths_spec (hp.mergeWeight hkeep drop) hkeep hne
  have hhelpers := ((sameConstraints_mergeWeight p keep drop).trans hsame).pinHelpers
  unfold merge
  generalize (p.mergeWeight keep drop).mergeStrengths keep drop = q at *
  have hmoved : ((q.mergeChains keep drop).pinHelpers.mapValues
      fun user => if user = drop then keep else user).get? drop = none := by
    rw [Table.get?_mapValues, show (q.mergeChains keep drop).pinHelpers = q.pinHelpers from rfl,
      hhelpers, hdrop]
    rfl
  unfold mergeHelpers
  simp only [hmoved]
  rw [← hhelpers]
  rfl

theorem hi_of_lt {a b : Nat} (ha : a < n) (hb : b < n) : (Pair.of a b).hi < n := by
  unfold Pair.of
  split
  · exact hb
  · exact ha

theorem other_lt {q : Pair} (hq : q.lo < q.hi) (hhi : q.hi < n) (i : Nat) : q.other i < n := by
  unfold Pair.other
  split <;> omega

/-- A chain that is moved ends where one ended before. -/
theorem hi_lt_of_chains_merge (hp : p.Over live) (hlive : live keep) (hkeep : keep < n)
    (hne : keep ≠ drop) (h : ∀ q, p.chains.contains q = true → q.hi < n) {q : Pair}
    (hq : (p.merge keep drop).chains.contains q = true) : q.hi < n := by
  obtain ⟨hover, hsame, _, _⟩ := mergeStrengths_spec (hp.mergeWeight hlive drop) hlive hne
  have hchains := ((sameConstraints_mergeWeight p keep drop).trans hsame).chains
  unfold merge at hq
  rw [mergeHelpers_eq] at hq
  rcases (contains_mergeChains hover hne).mp hq with ⟨hold, _⟩ | ⟨r, hold, _, _, rfl⟩
  · exact h q (hchains ▸ hold)
  · exact hi_of_lt hkeep (other_lt (hover.chains r hold).1 (h r (hchains ▸ hold)) drop)

/-- A quadratic term of a dropped user that is moved is one of the user that is kept. -/
theorem hi_lt_or_of_other {users : Nat → Option Nat} (hkeep : keep < n) (hdrop : drop < n)
    (hne : keep ≠ drop) {q : Pair} (hlt : q.lo < q.hi) (hq : q.contains drop = true)
    (h : q.hi < n ∨ users q.hi = some q.lo ∨
      (users q.hi).map (fun user => if user = drop then keep else user) = some q.lo) :
    (Pair.of keep (q.other drop)).hi < n ∨
      (users (Pair.of keep (q.other drop)).hi).map
          (fun user => if user = drop then keep else user) =
        some (Pair.of keep (q.other drop)).lo := by
  by_cases hhi : q.hi < n
  · exact .inl (hi_of_lt hkeep (other_lt hlt hhi drop))
  · have hlo : q.lo = drop := by
      simp only [Pair.contains, Bool.or_eq_true, beq_iff_eq] at hq
      exact hq.resolve_right (by omega)
    have huser : users q.hi = some q.lo := by
      rcases h with hlt | huser | huser
      · exact absurd hlt hhi
      · exact huser
      · obtain ⟨user, _, hmoved⟩ := Option.map_eq_some_iff.mp huser
        split at hmoved
        · exact absurd (hmoved.trans hlo) hne
        · next hother => exact absurd (hmoved.trans hlo) hother
    have hpair : Pair.of keep (q.other drop) = ⟨keep, q.hi⟩ := by
      rw [Pair.other, if_pos hlo, Pair.of_of_lt (by omega)]
    rw [hpair, huser, hlo]
    simp

/-- Merging users moves the quadratic terms of their helpers along. -/
theorem hi_lt_or_of_merge (hp : p.Over live) (hlive : live keep) (hkeep : keep < n)
    (hdrop : drop < n) (hne : keep ≠ drop)
    (h : ∀ q j, p.strengths.get? q = some j → q.hi < n ∨ p.pinHelpers.get? q.hi = some q.lo)
    {q : Pair} {j : K} (hq : (p.merge keep drop).strengths.get? q = some j) :
    q.hi < n ∨ (p.pinHelpers.get? q.hi).map (fun user => if user = drop then keep else user) =
      some q.lo := by
  have hstart : ∀ q j, (p.mergeWeight keep drop).strengths.get? q = some j →
      q.hi < n ∨ p.pinHelpers.get? q.hi = some q.lo ∨
        (p.pinHelpers.get? q.hi).map (fun user => if user = drop then keep else user) =
          some q.lo := by
    intro q j hq
    rw [strengths_mergeWeight] at hq
    exact (h q j hq).imp_right .inl
  -- on the way a term is old and waits to be moved, or it has the user that is kept already
  have hrun := foldl_touching (hp.mergeWeight hlive drop) (strengths_moveStrength hne)
    (motive := fun p' => ∀ q j, p'.strengths.get? q = some j →
      q.hi < n ∨ p.pinHelpers.get? q.hi = some q.lo ∨
        (p.pinHelpers.get? q.hi).map (fun user => if user = drop then keep else user) =
          some q.lo) hstart fun p' q j hjoins hcontains hj hmotive r v hr => by
    by_cases hmoved : r = .of keep (q.other drop)
    · rw [hmoved]
      exact (hi_lt_or_of_other hkeep hdrop hne hjoins.1 hcontains (hmotive q j hj)).imp_right .inr
    · rw [moveStrength, strengths_addStrength hmoved, Table.get?_erase] at hr
      split at hr
      · cases hr
      · exact hmotive r v hr
  rw [strengths_merge] at hq
  rcases hrun.1 q j hq with hlt | huser | huser
  · exact .inl hlt
  · have hlo : q.lo ≠ drop := by
      rintro rfl
      exact Option.some_ne_none j (hq.symm.trans (hrun.2 q (by simp [Pair.contains])))
    rw [huser, Option.map_some, if_neg hlo]
    exact .inr rfl
  · exact .inr huser

end Merge

/-- A substitution forgets a variable among the helpers and their users. -/
theorem get?_pinHelpers_substitute {live : Nat → Prop} (hp : p.Over live) (i : Nat) (spin : Spin)
    (helper user : Nat) : (p.substitute i spin).pinHelpers.get? helper = some user ↔
      p.pinHelpers.get? helper = some user ∧ helper ≠ i ∧ user ≠ i := by
  have hsame : (p.substitute i spin).pinHelpers =
      (p.pinHelpers.erase i).filter fun _ user => user != i := by
    rw [substitute_eq]
    simp only
    rw [(absorbStrengths_spec (hp.absorbWeight (i := i) _) _).2.1.pinHelpers]
    rfl
  rw [hsame, Table.get?_filter, Option.filter_eq_some_iff, Table.get?_erase]
  by_cases hne : helper = i
  · simp [hne]
  · simp [hne]

/-- A variable that is fixed takes its helpers' terms and users along. -/
theorem Tethered.substitute {live : Nat → Prop} {i : Nat} (h : p.Tethered n) (hp : p.Over live)
    (hchain : p.inChain i = false) (spin : Spin) : (p.substitute i spin).Tethered n := by
  obtain ⟨_, hchains, hpinned, _, _⟩ := substitute_constraints (i := i) hp spin
  have hover := hp.substitute hchain spin
  have hhelpers := get?_pinHelpers_substitute hp i spin
  refine ⟨fun q hq => h.chains q (hchains ▸ hq), fun q j hq => ?_, fun helper user hget => ?_⟩
  · have hjoins := hover.strengths q j hq
    refine (h.strengths q j ((substitute_terms hp spin).2 q j hq)).imp_right fun huser => ?_
    exact (hhelpers _ _).mpr ⟨huser, hjoins.2.2.2, hjoins.2.1.2⟩
  · obtain ⟨hold, _, huser⟩ := (hhelpers _ _).mp hget
    obtain ⟨hle, hlt, pin, hpin⟩ := h.helpers helper user hold
    exact ⟨hle, hlt, pin, by rw [hpinned, Table.get?_erase, if_neg huser, hpin]⟩

end Problem

namespace Model

variable {K : Type} {n : Nat} {m m' : Model K}

/-- The indices from `n` on are left to helpers, which are pinned and never merged. -/
structure Tethered (n : Nat) (m : Model K) : Prop where
  problem : m.problem.Tethered n
  pinned : ∀ i, n ≤ i → m.symbols.IsRoot i → ∃ spin, m.problem.pinned.get? i = some spin
  merged : ∀ i target, m.symbols.pending.get? i = some (.merged target) → i < n

theorem Tethered.withoutChain (h : m.Tethered n) (q : Pair) : (m.withoutChain q).Tethered n :=
  ⟨⟨fun r hr => h.problem.chains r (Table.contains_erase_iff.mp hr).2, h.problem.strengths,
    h.problem.helpers⟩, h.pinned, h.merged⟩

/-- A helper leads to itself. -/
theorem Tethered.root_eq (h : m.Tethered n) {i root : Nat}
    (hroot : m.symbols.root? i = some root) (hi : n ≤ i) : root = i := by
  cases hpending : m.symbols.pending.get? i with
  | none =>
    rw [Symbols.root?_of_none hpending] at hroot
    exact (Option.some.inj hroot).symm
  | some rebind =>
    cases rebind with
    | retired =>
      rw [Symbols.root?_of_retired hpending] at hroot
      cases hroot
    | merged target =>
      have hlt := h.merged i target hpending
      omega

/-- Only helpers lead to helpers. -/
theorem Tethered.root_lt_iff (h : m.Tethered n) (hlinks : m.symbols.LinksDown) {i root : Nat}
    (hroot : m.symbols.root? i = some root) : root < n ↔ i < n := by
  have hle := (hlinks.pending_root? hroot).2
  constructor
  · intro hlt
    by_contra hi
    have heq := h.root_eq hroot (Nat.not_lt.mp hi)
    omega
  · intro hi
    omega

variable [Coefficient K]

/-- Zero terms are no tether. -/
theorem Tethered.pruneZeros (h : m.Tethered n) : (m.mapProblem (·.pruneZeros)).Tethered n :=
  ⟨h.problem.pruneZeros, h.pinned, h.merged⟩

/-- Merging variables that are no helpers keeps the helpers where they are. -/
theorem Tethered.mergeInto {keep drop : Nat} (h : m.Tethered n) (hm : m.WellLinked)
    (hkeep : m.symbols.IsRoot keep) (hdrop : m.symbols.IsRoot drop) (hlt : keep < drop)
    (hdropn : drop < n) (hok : m.mergeInto keep drop = .ok m') : m'.Tethered n := by
  obtain ⟨p, hpin, rfl⟩ := mergeInto_eq_ok hok hkeep hdrop hlt
  have hne : keep ≠ drop := hlt.ne
  have hkeepn : keep < n := hlt.trans hdropn
  obtain ⟨hp, hover, _, _⟩ := mergePin_spec hpin hm.isOver hkeep hne
  have hhelpers : p.pinHelpers = m.problem.pinHelpers := by rw [hp]
  have hnone : p.pinHelpers.get? drop = none := by
    rw [hhelpers, h.problem.pinHelpers_eq_none hdropn]
  -- a pin moves with its variable, so whoever was pinned is pinned as what it is merged into
  have hpinned : ∀ i spin, m.problem.pinned.get? i = some spin →
      ∃ pin, p.pinned.get? (if i = drop then keep else i) = some pin := by
    intro i spin hi
    rcases mergePin_eq_ok hpin with ⟨hdropPin, rfl⟩ | ⟨dropped, hdropPin, _, rfl⟩
    · have hid : i ≠ drop := by
        rintro rfl
        exact Option.some_ne_none spin (hi.symm.trans hdropPin)
      exact ⟨spin, by rw [if_neg hid, hi]⟩
    · simp only [Table.get?_insert, Table.get?_erase]
      by_cases hid : i = drop
      · exact ⟨dropped, by simp [hid]⟩
      · by_cases hik : i = keep
        · exact ⟨dropped, by simp [hik]⟩
        · exact ⟨spin, by simp [hid, hik, hi]⟩
  have hpinnedMerge := (p.merge_eq keep drop hover hkeep hne).2.1
  have hstrengths : ∀ q j, p.strengths.get? q = some j →
      q.hi < n ∨ p.pinHelpers.get? q.hi = some q.lo := by
    rw [hp]
    exact h.problem.strengths
  have hget : ∀ helper user, (p.merge keep drop).pinHelpers.get? helper = some user ↔
      (p.pinHelpers.get? helper).map (fun user => if user = drop then keep else user) =
        some user := by
    intro helper user
    rw [Problem.pinHelpers_merge hover hkeep hne hnone, Table.get?_mapValues]
  refine ⟨⟨fun q hq => ?_, fun q j hq => ?_, fun helper user hhelper => ?_⟩, fun i hi hroot => ?_,
    fun i target hi => ?_⟩
  · refine Problem.hi_lt_of_chains_merge hover hkeep hkeepn hne (fun r hr => ?_) hq
    rw [hp] at hr
    exact h.problem.chains r hr
  · rw [hget]
    exact Problem.hi_lt_or_of_merge hover hkeep hkeepn hdropn hne hstrengths hq
  · obtain ⟨old, hold, rfl⟩ := Option.map_eq_some_iff.mp ((hget _ _).mp hhelper)
    rw [hhelpers] at hold
    obtain ⟨hle, hltn, spin, hspin⟩ := h.problem.helpers helper old hold
    refine ⟨hle, ?_, ?_⟩
    · split
      · exact hkeepn
      · exact hltn
    · rw [hpinnedMerge]
      exact hpinned old spin hspin
  · obtain ⟨hroot, hid⟩ := Symbols.isRoot_link.mp hroot
    obtain ⟨spin, hspin⟩ := h.pinned i hi hroot
    have hpin := hpinned i spin hspin
    rw [if_neg hid] at hpin
    rwa [hpinnedMerge]
  · rw [Symbols.pending_link] at hi
    split at hi
    · next heq => exact heq ▸ hdropn
    · exact h.merged i target hi

/-- Aliasing keeps the helpers where they are. -/
theorem Tethered.aliases (h : m.Tethered n) (hm : m.WellLinked) (hrun : m.Aliases m') :
    m'.Tethered n := by
  induction hrun with
  | done => exact h
  | @merge m m' m'' q hq hmerge _ ih =>
    obtain ⟨hlt, hlo, hhi⟩ := hm.isOver.chains q hq
    exact ih ((h.withoutChain q).mergeInto (hm.withoutChain q) hlo hhi hlt (h.problem.chains q hq)
      hmerge) (hm.merged hq hmerge).wellLinked

/-- Fixing a variable keeps the helpers that are left where they are. -/
theorem Tethered.fix {i : Nat} {spin : Spin} (h : m.Tethered n) (hm : m.WellLinked)
    (hi : m.symbols.IsRoot i) (hchain : m.problem.inChain i = false)
    (hfix : m.fix i spin = .ok m') : m'.Tethered n := by
  have hfixed := fixed_of_ok hfix hm hi hchain
  have hproblem := h.problem.substitute hm.isOver hchain spin
  refine ⟨?_, fun k hk hroot => ?_, fun k target hk => ?_⟩
  · obtain rfl := fix_eq_ok hfix hi
    exact ⟨hproblem.chains, hproblem.strengths, hproblem.helpers⟩
  · obtain ⟨hold, hne⟩ := (hfixed.isRoot k).mp hroot
    rw [hfixed.pinned, Table.get?_erase, if_neg hne]
    exact h.pinned k hk hold
  · obtain rfl := fix_eq_ok hfix hi
    rw [Symbols.pending_link] at hk
    split at hk
    · cases hk
    · exact h.merged k target hk

theorem Tethered.fixes {foldDominated : Bool} {log : Fixings} (h : m.Tethered n)
    (hm : m.WellLinked) (hrun : Fixes foldDominated m log m') : m'.Tethered n := by
  induction hrun with
  | done => exact h
  | fix hroot hchain _ _ hfix _ ih =>
    exact ih (h.fix hm hroot hchain hfix) (fixed_of_ok hfix hm hroot hchain).wellLinked

/-- When no variable is forced any more, a helper that is left has its user: without it the helper
would be coupled to nothing, and its pin would force it. -/
theorem Tethered.exists_user {foldDominated : Bool} (h : m.Tethered n) (hm : m.WellLinked)
    (hsettled : m.Settled foldDominated) (hchains : m.problem.chains = .empty) {i : Nat}
    (hi : n ≤ i) (hroot : m.symbols.IsRoot i) :
    ∃ user, m.problem.pinHelpers.get? i = some user := by
  by_contra hnone
  obtain ⟨spin, hpin⟩ := h.pinned i hi hroot
  have hincident : m.problem.incident i = [] := by
    unfold Problem.incident
    rw [List.map_eq_nil_iff, List.filter_eq_nil_iff]
    intro e he hcontains
    have hget := Table.get?_eq_some_iff.mpr he
    have hlt := (hm.isOver.strengths e.1 e.2 hget).1
    simp only [Pair.contains, Bool.or_eq_true, beq_iff_eq] at hcontains
    rcases hcontains with rfl | rfl
    · have hlo := (h.problem.lo_of_le hget (hi.trans hlt.le)).1
      omega
    · exact hnone ⟨_, (h.problem.lo_of_le hget hi).2⟩
  have hactive := Problem.mem_activeIndices_iff.mpr (.inr (.inr ⟨spin, hpin⟩))
  have hchain : m.problem.inChain i = false := by
    unfold Problem.inChain
    rw [hchains]
    rfl
  have hforced : m.problem.forcedSpin foldDominated i = some spin := by
    simp [Problem.forcedSpin, Problem.releasedPin, hincident, hpin]
  rw [hsettled i hactive hchain] at hforced
  cases hforced

/-- The indices from `n` on are those of helpers, pinned and with a user each. -/
structure HelpersFrom (n : Nat) (m : Model K) : Prop where
  problem : m.problem.Tethered n
  pinned : ∀ i, n ≤ i → i < m.symbols.size → ∃ spin, m.problem.pinned.get? i = some spin
  user : ∀ i, n ≤ i → i < m.symbols.size → ∃ user, m.problem.pinHelpers.get? i = some user

omit [Coefficient K] in
/-- An index is that of a helper exactly from `n` on. -/
theorem HelpersFrom.pinHelpers_eq_none_iff (h : m.HelpersFrom n) {i : Nat}
    (hi : i < m.symbols.size) : m.problem.pinHelpers.get? i = none ↔ i < n := by
  refine ⟨fun hnone => ?_, h.problem.pinHelpers_eq_none⟩
  by_contra hle
  obtain ⟨user, huser⟩ := h.user i (Nat.not_lt.mp hle) hi
  exact Option.some_ne_none user (huser.symm.trans hnone)

omit [Coefficient K] in
/-- Without links, helpers that come last are pinned and never merged. -/
theorem HelpersFrom.tethered (h : m.HelpersFrom n) (hpending : m.symbols.pending = .empty) :
    m.Tethered n where
  problem := h.problem
  pinned i hi hroot := h.pinned i hi hroot.1
  merged i target hi := by simp [hpending] at hi

end Model

end SpinGlass

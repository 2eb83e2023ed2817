import SpinGlass.Proofs.Simplify.Components
import SpinGlass.Proofs.Simplify.Tethered

/-!
# Where the parts of a simplified problem come from

After aliasing, a root is pinned if one of its indices was, two roots share a quadratic term if two
of their indices did, and a helper stands by the root of its user. After a run of fixings the same
holds of what is left. So what a propagation looks at can be read off the problem it started from.
-/

namespace SpinGlass

namespace Problem

variable {K : Type} [Coefficient K] {live : Nat → Prop} {p : Problem K} {keep drop : Nat}

section Merge

/-- What is stored after a quadratic term is moved. -/
theorem contains_moveStrength (p : Problem K) (q : Pair) (j : K) (r : Pair) :
    (moveStrength keep drop p (q, j)).strengths.contains r = true ↔
      r ≠ q ∧ p.strengths.contains r = true ∨
        q.other drop ≠ keep ∧ r = .of keep (q.other drop) := by
  simp only [Table.contains_iff]
  by_cases hother : keep = q.other drop
  · have hsame : (moveStrength keep drop p (q, j)).strengths = p.strengths.erase q := by
      unfold moveStrength addStrength
      rw [if_pos hother]
      split <;> rfl
    rw [hsame, Table.get?_erase]
    by_cases hr : r = q
    · simp [hr, ← hother]
    · simp [hr, ← hother]
  · have hsame : (moveStrength keep drop p (q, j)).strengths =
        (p.strengths.erase q).alter (.of keep (q.other drop)) fun old => old.getD 0 + j := by
      unfold moveStrength addStrength
      rw [if_neg hother]
    by_cases hmoved : r = .of keep (q.other drop)
    · simp [hsame, Table.get?_alter, hmoved, Ne.symm hother]
    · rw [hsame, Table.get?_alter, if_neg hmoved, Table.get?_erase]
      by_cases hr : r = q
      · simp [hr, hr ▸ hmoved]
      · simp [hmoved, hr]

/-- The quadratic terms that are stored after a merge: those apart from the dropped variable, and
those of the dropped variable under the one that is kept. -/
theorem contains_strengths_merge (hp : p.Over live) (hkeep : live keep) (hne : keep ≠ drop)
    {a b : Nat} : (p.merge keep drop).strengths.contains (.of a b) = true ↔ a ≠ drop ∧ b ≠ drop ∧
      (p.strengths.contains (.of a b) = true ∨
        a = keep ∧ b ≠ keep ∧ p.strengths.contains (.of drop b) = true ∨
        b = keep ∧ a ≠ keep ∧ p.strengths.contains (.of drop a) = true) := by
  have hjoins : ∀ q, p.strengths.contains q = true → q.lo < q.hi := fun q hq => by
    obtain ⟨j, hj⟩ := Table.contains_iff.mp hq
    exact (hp.strengths q j hj).1
  have hself : ∀ k, p.strengths.contains (.of drop k) = true → k ≠ drop := by
    rintro k hk rfl
    have hlt := hjoins _ hk
    simp [Pair.of] at hlt
  -- on the way a term of the dropped variable is stored still, or it has been moved
  have hrun := foldl_touching (hp.mergeWeight hkeep drop) (strengths_moveStrength hne)
    (motive := fun p' =>
      (∀ q, p'.strengths.contains q = true → p.strengths.contains q = true ∨
        ∃ k, k ≠ keep ∧ p.strengths.contains (.of drop k) = true ∧ q = .of keep k) ∧
      (∀ q, q.contains drop = false → p.strengths.contains q = true →
        p'.strengths.contains q = true) ∧
      ∀ k, k ≠ keep → p.strengths.contains (.of drop k) = true →
        p'.strengths.contains (.of drop k) = true ∨ p'.strengths.contains (.of keep k) = true)
    ?_ fun p' q j hq hdrop hj ⟨hold, hother, hmoved⟩ => ?_
  · obtain ⟨⟨hold, hother, hmoved⟩, hnone⟩ := hrun
    have hgone : ∀ q, q.contains drop = true →
        ¬ (p.merge keep drop).strengths.contains q = true := by
      intro q hq hstored
      obtain ⟨j, hj⟩ := Table.contains_iff.mp hstored
      rw [strengths_merge] at hj
      exact Option.some_ne_none j (hj.symm.trans (hnone q hq))
    have hapart : ∀ c d, c ≠ drop → d ≠ drop → (Pair.of c d).contains drop = false := by
      intro c d hc hd
      rw [← Bool.not_eq_true, Pair.contains_of]
      omega
    have hkept : ∀ k, k ≠ keep → p.strengths.contains (.of drop k) = true →
        (p.merge keep drop).strengths.contains (.of keep k) = true := by
      intro k hk hstored
      rw [strengths_merge]
      refine (hmoved k hk hstored).resolve_left fun hleft => ?_
      obtain ⟨j, hj⟩ := Table.contains_iff.mp hleft
      exact Option.some_ne_none j (hj.symm.trans (hnone _ (Pair.contains_of.mpr (.inl rfl))))
    constructor
    · intro h
      have ha : a ≠ drop := fun heq => hgone _ (Pair.contains_of.mpr (.inl heq.symm)) h
      have hb : b ≠ drop := fun heq => hgone _ (Pair.contains_of.mpr (.inr heq.symm)) h
      rw [strengths_merge] at h
      refine ⟨ha, hb, (hold _ h).imp_right ?_⟩
      rintro ⟨k, hk, hstored, heq⟩
      rcases Pair.of_eq_of_iff.mp heq with ⟨rfl, rfl⟩ | ⟨rfl, rfl⟩
      · exact .inl ⟨rfl, hk, hstored⟩
      · exact .inr ⟨rfl, hk, hstored⟩
    · rintro ⟨ha, hb, hstored | ⟨rfl, hbk, hstored⟩ | ⟨rfl, hak, hstored⟩⟩
      · rw [strengths_merge]
        exact hother _ (hapart a b ha hb) hstored
      · exact hkept b hbk hstored
      · rw [Pair.of_comm]
        exact hkept a hak hstored
  · rw [strengths_mergeWeight]
    exact ⟨fun q hq => .inl hq, fun q _ hq => hq, fun k _ hk => .inl hk⟩
  · have hq' : .of drop (q.other drop) = q := Pair.of_other hq.1 hdrop
    have hstored : p.strengths.contains q = true := by
      refine (hold q (Table.contains_iff.mpr ⟨j, hj⟩)).resolve_right ?_
      rintro ⟨k, _, hk, rfl⟩
      rcases Pair.contains_of.mp hdrop with heq | heq
      · exact hne heq.symm
      · exact hself k hk heq.symm
    simp only [contains_moveStrength]
    refine ⟨fun r hr => ?_, fun r hr hrp => .inl ⟨?_, hother r hr hrp⟩, fun k hk hkp => ?_⟩
    · rcases hr with ⟨_, hr⟩ | ⟨hkeep', rfl⟩
      · exact hold r hr
      · exact .inr ⟨_, hkeep', by rwa [hq'], rfl⟩
    · rintro rfl
      rw [hdrop] at hr
      cases hr
    · by_cases hqk : Pair.of drop k = q
      · have hk' : q.other drop = k := by
          rw [← hqk]
          rcases Pair.of_eq_of_iff.mp (hq'.trans hqk.symm) with ⟨_, heq⟩ | ⟨heq, _⟩
          · rwa [← hqk] at heq
          · exact absurd heq.symm (hself k hkp)
        exact .inr (.inr ⟨hk' ▸ hk, by rw [hk']⟩)
      · refine (hmoved k hk hkp).imp (fun hleft => .inl ⟨hqk, hleft⟩) fun hright =>
          .inl ⟨?_, hright⟩
        rintro rfl
        rcases Pair.contains_of.mp hdrop with heq | heq
        · exact hne heq.symm
        · exact hself k hkp heq.symm

end Merge

/-- A substitution erases the quadratic terms of its variable, and leaves the others. -/
theorem get?_strengths_substitute (hp : p.Over live) (i : Nat) (spin : Spin) {q : Pair}
    (hq : q.contains i = false) :
    (p.substitute i spin).strengths.get? q = p.strengths.get? q := by
  rw [substitute_eq]
  refine (foldl_touching (hp.absorbWeight (i := i) _) (strengths_absorbStrength (i := i) _)
    (motive := fun p' => p'.strengths.get? q = p.strengths.get? q) rfl
    fun p' r j _ hr _ hkept => ?_).1
  have hne : q ≠ r := by
    rintro rfl
    rw [hr] at hq
    cases hq
  have hpair : q ≠ .of i (r.other i) := by
    rintro rfl
    rw [Pair.contains_of.mpr (.inl rfl)] at hq
    cases hq
  simp only [absorbStrength, substituteTerm, addWeight, Table.get?_erase, if_neg hpair]
  exact hkept

end Problem

namespace Model

variable {K : Type} [Coefficient K] {m a c : Model K} {n : Nat}

section Alias

/-- What is said of a root after aliasing was said of its indices before. -/
structure Traced (m a : Model K) : Prop where
  pinned : ∀ r spin, a.problem.pinned.get? r = some spin ↔
    ∃ i, a.symbols.root? i = some r ∧ m.problem.pinned.get? i = some spin
  strengths : ∀ r r', r ≠ r' → (a.problem.strengths.contains (.of r r') = true ↔
    ∃ i i', a.symbols.root? i = some r ∧ a.symbols.root? i' = some r' ∧
      m.problem.strengths.contains (.of i i') = true)
  helpers : ∀ helper, a.problem.pinHelpers.get? helper =
    (m.problem.pinHelpers.get? helper).bind a.symbols.root?

omit [Coefficient K] in
/-- Without merges every root is its own index. -/
theorem WellLinked.traced (hm : m.WellLinked) : m.Traced m := by
  have hself : ∀ i, m.symbols.IsRoot i → m.symbols.root? i = some i :=
    fun i hi => Symbols.root?_of_none hi.2
  have heq : ∀ i r, m.symbols.IsRoot i → m.symbols.root? i = some r → i = r := by
    intro i r hi hr
    rw [hself i hi] at hr
    exact Option.some.inj hr
  have hstored : ∀ i i', m.problem.strengths.contains (.of i i') = true →
      m.symbols.IsRoot i ∧ m.symbols.IsRoot i' := by
    intro i i' h
    obtain ⟨j, hj⟩ := Table.contains_iff.mp h
    exact (Pair.joins_of_iff.mp (hm.isOver.strengths _ j hj)).2
  refine ⟨fun r spin => ⟨fun hr => ⟨r, hself r (hm.isOver.pinned r spin hr), hr⟩, ?_⟩,
    fun r r' _ => ⟨fun h => ?_, ?_⟩, fun helper => ?_⟩
  · rintro ⟨i, hi, hpin⟩
    rwa [heq i r (hm.isOver.pinned i spin hpin) hi] at hpin
  · obtain ⟨hr, hr'⟩ := hstored r r' h
    exact ⟨r, r', hself r hr, hself r' hr', h⟩
  · rintro ⟨i, i', hi, hi', h⟩
    obtain ⟨hir, hir'⟩ := hstored i i' h
    rwa [heq i r hir hi, heq i' r' hir' hi'] at h
  · cases huser : m.problem.pinHelpers.get? helper with
    | none => rfl
    | some user => exact (hself user (hm.isOver.helpers helper user huser).2).symm

omit [Coefficient K] in
/-- The pins after a merge. -/
theorem get?_pinned_mergePin {keep drop : Nat} {p : Problem K} (h : m.mergePin keep drop = .ok p)
    (hne : keep ≠ drop) (i : Nat) (spin : Spin) : p.pinned.get? i = some spin ↔
      i ≠ drop ∧ (m.problem.pinned.get? i = some spin ∨
        i = keep ∧ m.problem.pinned.get? drop = some spin) := by
  rcases mergePin_eq_ok h with ⟨hdrop, rfl⟩ | ⟨dropped, hdrop, hagree, rfl⟩
  · rw [hdrop]
    constructor
    · intro hi
      refine ⟨?_, .inl hi⟩
      rintro rfl
      exact Option.some_ne_none spin (hi.symm.trans hdrop)
    · rintro ⟨_, hi | ⟨_, hi⟩⟩
      · exact hi
      · cases hi
  · simp only [Table.get?_insert, Table.get?_erase, hdrop, Option.some.injEq]
    by_cases hik : i = keep
    · rw [if_pos hik, hik, Option.some.injEq]
      constructor
      · exact fun heq => ⟨hne, .inr ⟨rfl, heq⟩⟩
      · rintro ⟨_, hkept | ⟨_, heq⟩⟩
        · exact (hagree spin hkept).symm
        · exact heq
    · rw [if_neg hik]
      by_cases hid : i = drop
      · simp [hid]
      · simp [hid, hik]

/-- A merge on the way joins what is said of two roots. -/
theorem Traced.of_merge {m' : Model K} {q : Pair} (h : m'.Traced a) (hm : m.WellLinked)
    (hq : m.problem.chains.contains q = true) (htethered : m.Tethered n)
    (hmerge : (m.withoutChain q).mergeInto q.lo q.hi = .ok m')
    (hroot : a.symbols.root? q.hi = a.symbols.root? q.lo) : m.Traced a := by
  obtain ⟨hlt, hlo, hhi⟩ := hm.isOver.chains q hq
  obtain ⟨p, hpin, rfl⟩ := mergeInto_eq_ok hmerge hlo hhi hlt
  have hwithout := hm.withoutChain q
  obtain ⟨hp, hover, _, _⟩ := mergePin_spec hpin hwithout.isOver hlo hlt.ne
  have hstrengths : p.strengths = m.problem.strengths := by rw [hp]; rfl
  have hhelpers : p.pinHelpers = m.problem.pinHelpers := by rw [hp]; rfl
  have hdropn := htethered.problem.chains q hq
  have hnone : p.pinHelpers.get? q.hi = none := by
    rw [hhelpers, htethered.problem.pinHelpers_eq_none hdropn]
  refine ⟨fun r spin => ?_, fun r r' hne => ?_, fun helper => ?_⟩
  · rw [h.pinned]
    simp only [(p.merge_eq q.lo q.hi hover hlo hlt.ne).2.1, get?_pinned_mergePin hpin hlt.ne]
    constructor
    · rintro ⟨i, hi, _, hold | ⟨rfl, hold⟩⟩
      · exact ⟨i, hi, hold⟩
      · exact ⟨q.hi, hroot.trans hi, hold⟩
    · rintro ⟨i, hi, hold⟩
      by_cases hiq : i = q.hi
      · subst hiq
        exact ⟨q.lo, hroot.symm.trans hi, hlt.ne, .inr ⟨rfl, hold⟩⟩
      · exact ⟨i, hi, hiq, .inl hold⟩
  · rw [h.strengths r r' hne]
    simp only [Problem.contains_strengths_merge hover hlo hlt.ne, hstrengths]
    constructor
    · rintro ⟨i, i', hi, hi', _, _, hold | ⟨rfl, _, hold⟩ | ⟨rfl, _, hold⟩⟩
      · exact ⟨i, i', hi, hi', hold⟩
      · exact ⟨q.hi, i', hroot.trans hi, hi', hold⟩
      · exact ⟨i, q.hi, hi, hroot.trans hi', by rwa [Pair.of_comm]⟩
    · rintro ⟨i, i', hi, hi', hold⟩
      -- indices with different roots are not the two that are merged
      have happart : ∀ k k', a.symbols.root? k = some r → a.symbols.root? k' = some r' →
          a.symbols.root? k ≠ a.symbols.root? k' := by
        intro k k' hk hk' heq
        rw [hk, hk', Option.some.injEq] at heq
        exact hne heq
      by_cases hiq : i = q.hi
      · subst hiq
        have hlo' := hroot.symm.trans hi
        refine ⟨q.lo, i', hlo', hi', hlt.ne, ?_, .inr (.inl ⟨rfl, ?_, hold⟩)⟩
        · rintro rfl
          exact happart _ _ hi hi' rfl
        · rintro rfl
          exact happart _ _ hlo' hi' rfl
      · by_cases hiq' : i' = q.hi
        · subst hiq'
          have hlo' := hroot.symm.trans hi'
          refine ⟨i, q.lo, hi, hlo', hiq, hlt.ne, .inr (.inr ⟨rfl, ?_, ?_⟩)⟩
          · rintro rfl
            exact happart _ _ hi hlo' rfl
          · rwa [Pair.of_comm]
        · exact ⟨i, i', hi, hi', hiq, hiq', .inl hold⟩
  · rw [h.helpers, Problem.pinHelpers_merge hover hlo hlt.ne hnone, Table.get?_mapValues, hhelpers]
    cases m.problem.pinHelpers.get? helper with
    | none => rfl
    | some user =>
      rw [Option.map_some, Option.bind_some, Option.bind_some]
      split
      · next heq => rw [heq, hroot]
      · rfl

/-- Aliasing keeps track of pins, couplings and helpers. -/
theorem Aliases.traced (h : m.Aliases a) (hm : m.WellLinked) (htethered : m.Tethered n)
    (hrooted : ∀ i, ∃ r, m.symbols.root? i = some r) : m.Traced a := by
  induction h with
  | done => exact hm.traced
  | @merge m m' a q hq hmerge hrest ih =>
    obtain ⟨hlt, hlo, hhi⟩ := hm.isOver.chains q hq
    have hmerged := hm.merged hq hmerge
    have hsymbols : m'.symbols = m.symbols.link q.hi (.merged q.lo) := hmerged.symbols
    have hrooted' := hmerged.rooted hm.links hlo hhi hlt hrooted
    have htethered' : m'.Tethered n := (htethered.withoutChain q).mergeInto (hm.withoutChain q) hlo
      hhi hlt (htethered.problem.chains q hq) hmerge
    have haliased := hrest.aliased hmerged.wellLinked
    have hroot : a.symbols.root? q.hi = a.symbols.root? q.lo := by
      rw [haliased.wellLinked.links.root?_eq_root?_iff (haliased.rooted hrooted')]
      intro s hs
      have hrespects := haliased.respects s hs
      rw [hsymbols, Symbols.respects_link_merged hhi] at hrespects
      exact hrespects.2
    exact (ih hmerged.wellLinked htethered' hrooted').of_merge hm hq htethered hmerge hroot

end Alias

section Fix

variable {foldDominated : Bool} {log : Fixings}

/-- What is said of variables that are left is said as before the run. -/
structure Kept (a : Model K) (log : Fixings) (c : Model K) : Prop where
  pinned : ∀ k, log.spin? k = none → c.problem.pinned.get? k = a.problem.pinned.get? k
  strengths : ∀ q : Pair, log.spin? q.lo = none → log.spin? q.hi = none →
    c.problem.strengths.get? q = a.problem.strengths.get? q
  helpers : ∀ helper user, log.spin? helper = none → log.spin? user = none →
    (c.problem.pinHelpers.get? helper = some user ↔ a.problem.pinHelpers.get? helper = some user)

/-- A run of fixings keeps what is said of the variables that are left. -/
theorem Fixes.kept (h : Fixes foldDominated a log c) (ha : a.WellLinked) : a.Kept log c := by
  induction h with
  | done m =>
    exact ⟨fun _ _ => rfl, fun _ _ _ => rfl, fun _ _ _ _ => Iff.rfl⟩
  | @fix a a' c i spin log hroot hchain _ _ hfix _ ih =>
    have hfixed := fixed_of_ok hfix ha hroot hchain
    have hrest := ih hfixed.wellLinked
    have hsplit : ∀ k, Fixings.spin? ((i, spin) :: log) k = none → k ≠ i ∧ log.spin? k = none := by
      intro k hk
      rw [Fixings.spin?_cons] at hk
      split at hk
      · cases hk
      · next hne => exact ⟨hne, hk⟩
    refine ⟨fun k hk => ?_, fun q hlo hhi => ?_, fun helper user hhelper huser => ?_⟩
    · obtain ⟨hne, hk⟩ := hsplit k hk
      rw [hrest.pinned k hk, hfixed.pinned, Table.get?_erase, if_neg hne]
    · obtain ⟨hnelo, hlo⟩ := hsplit q.lo hlo
      obtain ⟨hnehi, hhi⟩ := hsplit q.hi hhi
      have hnot : q.contains i = false := by
        simp only [Pair.contains, Bool.or_eq_false_iff, beq_eq_false_iff_ne]
        exact ⟨hnelo, hnehi⟩
      rw [hrest.strengths q hlo hhi]
      obtain rfl := fix_eq_ok hfix hroot
      exact Problem.get?_strengths_substitute ha.isOver i spin hnot
    · obtain ⟨hnehelper, hhelper⟩ := hsplit helper hhelper
      obtain ⟨hneuser, huser⟩ := hsplit user huser
      rw [hrest.helpers helper user hhelper huser]
      obtain rfl := fix_eq_ok hfix hroot
      exact (Problem.get?_pinHelpers_substitute ha.isOver i spin helper user).trans
        (and_iff_left ⟨hnehelper, hneuser⟩)

end Fix

end Model

end SpinGlass

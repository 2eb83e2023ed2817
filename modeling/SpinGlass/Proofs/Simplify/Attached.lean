import SpinGlass.Proofs.Simplify.Margin
import SpinGlass.Proofs.Simplify.Traces

/-!
# Helpers attached to their users

A helper is pinned like its user, has the weight of its pin and one coupling, to its user. No pass
takes that apart. A merge of users moves the coupling without meeting another, because a helper is
coupled to one user only. A helper whose user is left is not fixed: its user is no helper, so the
pin is not released, and its weight does not outweigh its coupling. So its terms change only with
its user, and every pinned user keeps a helper.
-/

namespace SpinGlass

namespace Problem

/-- A helper is pinned like its user, with the weight of that pin, and coupled to its user alone. -/
structure Attached (strength : ℚ) (helper user : Nat) (p : Problem ℚ) : Prop where
  ne : helper ≠ user
  pins : ∃ spin, p.pinned.get? helper = some spin ∧ p.pinned.get? user = some spin ∧
    p.weights.get? helper = some (strength * Coefficient.ofSpin spin)
  couplings : ∀ k, p.strengths.get? (.of helper k) = if k = user then some strength else none

section Incident

variable {live : Nat → Prop} {p : Problem ℚ} {strength : ℚ} {helper user : Nat}

/-- A neighbour is listed once. -/
theorem nodup_incident (hp : p.Over live) (i : Nat) : (p.incident i).Nodup := by
  refine List.Nodup.map_on (fun e he e' he' heq => ?_)
    ((List.Nodup.of_map _ (Table.nodup_keys p.strengths)).filter _)
  obtain ⟨hmem, hi⟩ := List.mem_filter.mp he
  obtain ⟨hmem', hi'⟩ := List.mem_filter.mp he'
  have hlt := (hp.strengths e.1 e.2 (Table.get?_eq_some_iff.mpr hmem)).1
  have hlt' := (hp.strengths e'.1 e'.2 (Table.get?_eq_some_iff.mpr hmem')).1
  obtain ⟨hother, hvalue⟩ := Prod.mk.inj heq
  refine Prod.ext ?_ hvalue
  rw [← Pair.of_other hlt hi, ← Pair.of_other hlt' hi', hother]

/-- The user is the only neighbour of a helper. -/
theorem Attached.incident_eq (h : p.Attached strength helper user) (hp : p.Over live) :
    p.incident helper = [(user, strength)] := by
  have hmem : ∀ t, t ∈ p.incident helper ↔ t = (user, strength) := by
    rintro ⟨k, j⟩
    rw [mem_incident_iff hp, h.couplings]
    constructor
    · rintro ⟨_, hget⟩
      split at hget
      · next heq => exact Prod.ext heq (Option.some.inj hget).symm
      · cases hget
    · intro heq
      obtain ⟨rfl, rfl⟩ := Prod.mk.inj heq
      exact ⟨h.ne.symm, if_pos rfl⟩
  refine List.perm_singleton.mp ((List.perm_ext_iff_of_nodup (nodup_incident hp helper)
    (List.nodup_singleton _)).mpr fun t => ?_)
  rw [hmem, List.mem_singleton]

/-- A helper with a user is not forced. -/
theorem Attached.forcedSpin_eq_none (h : p.Attached strength helper user) (hp : p.Over live)
    (hmode : p.mode = .ising) (huser : p.pinHelpers.get? user = none) (foldDominated : Bool) :
    p.forcedSpin foldDominated helper = none := by
  obtain ⟨pin, _, _, hweight⟩ := h.pins
  have hunreleased : p.releasedPin helper (p.incident helper) = none := by
    rw [h.incident_eq hp]
    simp [releasedPin, huser]
  have hundominated : p.dominatingSpin helper (p.incident helper) = none := by
    refine Option.eq_none_iff_forall_ne_some.mpr fun spin hspin => ?_
    have hlt := (dominatingSpin_eq_some_iff hmode).mp hspin
    have hmargin := dominanceMargin_pos
    rw [h.incident_eq hp, weight, hweight, Option.getD_some] at hlt
    simp only [List.map_cons, List.map_nil, List.sum_cons, List.sum_nil, add_zero] at hlt
    -- the weight is the coupling, up to its sign
    have hup := le_abs_self strength
    have hdown := neg_le_abs strength
    cases spin <;> cases pin <;>
      simp only [Coefficient.ofSpin_up, Coefficient.ofSpin_down] at hlt <;> linarith
  unfold forcedSpin
  simp only
  rw [hunreleased, hundominated, ite_self]
  rfl

end Incident

section Merge

variable {live : Nat → Prop} {keep drop k : Nat}

/-- A merge changes the weights of the two variables only. -/
theorem get?_weights_merge {K : Type} [Coefficient K] {p : Problem K} (hp : p.Over live)
    (hlive : live keep) (hne : keep ≠ drop) (hk : k ≠ keep) (hk' : k ≠ drop) :
    (p.merge keep drop).weights.get? k = p.weights.get? k := by
  have hstart : (p.mergeWeight keep drop).weights.get? k = p.weights.get? k := by
    unfold mergeWeight
    split
    · simp [addWeight, Table.get?_alter, Table.get?_erase, hk, hk']
    · rfl
  have hmoved := (foldl_touching (hp.mergeWeight hlive drop) (strengths_moveStrength hne)
    (motive := fun p' => p'.weights.get? k = p.weights.get? k) hstart
    fun p' q j _ _ _ hkept => (weights_addStrength hk j).trans hkept).1
  unfold merge
  rw [mergeHelpers_eq]
  exact hmoved

/-- A merge changes no coupling between other variables. -/
theorem get?_strengths_merge {K : Type} [Coefficient K] {p : Problem K} (hp : p.Over live)
    (hlive : live keep) (hne : keep ≠ drop) {r : Pair} (hkeep : r.contains keep = false)
    (hdrop : r.contains drop = false) :
    (p.merge keep drop).strengths.get? r = p.strengths.get? r := by
  rw [strengths_merge]
  refine (foldl_touching (hp.mergeWeight hlive drop) (strengths_moveStrength hne)
    (motive := fun p' => p'.strengths.get? r = p.strengths.get? r)
    (by rw [strengths_mergeWeight]) fun p' q j _ hq _ hkept => ?_).1
  have hmoved : r ≠ .of keep (q.other drop) := by
    rintro rfl
    rw [Pair.contains_of.mpr (.inl rfl)] at hkeep
    cases hkeep
  have herased : r ≠ q := by
    rintro rfl
    rw [hq] at hdrop
    cases hdrop
  rw [moveStrength, strengths_addStrength hmoved, Table.get?_erase, if_neg herased, hkept]

/-- Moving a term keeps the sum of the couplings of a third variable to the two. -/
theorem strength_add_moveStrength {p : Problem ℚ} (hne : keep ≠ drop) (hk : k ≠ keep)
    (hk' : k ≠ drop) {q : Pair} {j : ℚ} (hq : q.lo < q.hi) (hdrop : q.contains drop = true)
    (hj : p.strengths.get? q = some j) :
    (moveStrength keep drop p (q, j)).strength keep k +
        (moveStrength keep drop p (q, j)).strength drop k =
      p.strength keep k + p.strength drop k := by
  have hother := Pair.other_ne (i := drop) hq
  have hpair : .of drop (q.other drop) = q := Pair.of_other hq hdrop
  have hkept : Pair.of keep k ≠ q := by
    rw [← hpair, Ne, Pair.of_eq_of_iff]
    omega
  by_cases hx : q.other drop = k
  · have hdropped : Pair.of drop k = q := by rw [← hx, hpair]
    have hapart : Pair.of drop k ≠ .of keep k := by
      rw [Ne, Pair.of_eq_of_iff]
      omega
    have hnew : (moveStrength keep drop p (q, j)).strengths.get? (.of keep k) =
        some (p.strength keep k + j) := by
      unfold moveStrength addStrength
      rw [hx, if_neg hk.symm, Table.get?_alter, if_pos rfl, Table.get?_erase, if_neg hkept]
      rfl
    have hold : (moveStrength keep drop p (q, j)).strengths.get? (.of drop k) = none := by
      rw [moveStrength, hx, strengths_addStrength hapart, Table.get?_erase, if_pos hdropped]
    unfold strength at hnew ⊢
    rw [hnew, hold, hdropped, hj]
    simp
  · have hmoved : Pair.of keep k ≠ .of keep (q.other drop) := by
      rw [Ne, Pair.of_eq_of_iff]
      omega
    have hdropped : Pair.of drop k ≠ .of keep (q.other drop) := by
      rw [Ne, Pair.of_eq_of_iff]
      omega
    have herased : Pair.of drop k ≠ q := by
      rw [← hpair, Ne, Pair.of_eq_of_iff]
      omega
    unfold strength moveStrength
    rw [strengths_addStrength hmoved, strengths_addStrength hdropped, Table.get?_erase,
      Table.get?_erase, if_neg hkept, if_neg herased]

/-- A merge adds the couplings of a third variable to the two. -/
theorem strength_merge {p : Problem ℚ} (hp : p.Over live) (hlive : live keep) (hne : keep ≠ drop)
    (hk : k ≠ keep) (hk' : k ≠ drop) :
    (p.merge keep drop).strength keep k = p.strength keep k + p.strength drop k := by
  obtain ⟨hsum, hnone⟩ := foldl_touching (hp.mergeWeight hlive drop) (strengths_moveStrength hne)
    (motive := fun p' => p'.strength keep k + p'.strength drop k =
      p.strength keep k + p.strength drop k)
    (by simp only [strength, strengths_mergeWeight]) fun p' q j hq hdrop hj hkept =>
      (strength_add_moveStrength hne hk hk' hq.1 hdrop hj).trans hkept
  have hgone := hnone (.of drop k) (Pair.contains_of.mpr (.inl rfl))
  rw [← hsum]
  unfold strength
  rw [strengths_merge, hgone]
  exact (add_zero _).symm

/-- A merge leaves a helper with one coupling, to what its user is merged into. -/
theorem couplings_merge {p : Problem ℚ} {strength : ℚ} {helper user : Nat} (hp : p.Over live)
    (hlive : live keep) (hne : keep ≠ drop) (hkeep : helper ≠ keep) (hdrop : helper ≠ drop)
    (hcouplings : ∀ k,
      p.strengths.get? (.of helper k) = if k = user then some strength else none) (k : Nat) :
    (p.merge keep drop).strengths.get? (.of helper k) =
      if k = (if user = drop then keep else user) then some strength else none := by
  generalize hmoved : (if user = drop then keep else user) = moved
  have hcontains : ∀ k, p.strengths.contains (.of helper k) = true ↔ k = user := by
    intro k
    rw [Table.contains_iff, hcouplings]
    split <;> simp_all
  have hstored : (p.merge keep drop).strengths.contains (.of helper k) = true ↔ k = moved := by
    rw [contains_strengths_merge hp hlive hne, Pair.of_comm drop helper, hcontains, hcontains]
    simp only [hkeep, false_and, false_or]
    split at hmoved <;> omega
  -- the coupling to the kept variable is a sum of an old one and none
  have hvalue : (p.merge keep drop).strength moved helper = strength := by
    have hold : ∀ k, p.strength k helper = if k = user then strength else 0 := by
      intro k
      rw [Problem.strength, Pair.of_comm, hcouplings]
      split <;> rfl
    by_cases hkept : moved = keep
    · rw [hkept, strength_merge hp hlive hne hkeep hdrop, hold, hold]
      split at hmoved
      · next huser => simp [huser, hne]
      · next huser => simp [hmoved.trans hkept, hne.symm]
    · have huser : user = moved := by
        split at hmoved
        · exact absurd hmoved.symm hkept
        · exact hmoved
      have hapart : moved ≠ drop := by
        rintro rfl
        rw [if_pos huser] at hmoved
        exact hkept hmoved.symm
      have hsame := get?_strengths_merge hp hlive hne (r := .of moved helper)
        (by rw [← Bool.not_eq_true, Pair.contains_of]; omega)
        (by rw [← Bool.not_eq_true, Pair.contains_of]; omega)
      rw [Problem.strength, hsame, ← Problem.strength, hold, if_pos huser.symm]
  by_cases hk : k = moved
  · obtain ⟨j, hj⟩ := Table.contains_iff.mp (hstored.mpr hk)
    rw [if_pos hk, hj]
    rw [Problem.strength, ← hk, Pair.of_comm, hj, Option.getD_some] at hvalue
    rw [hvalue]
  · rw [if_neg hk, ← Table.contains_eq_false_iff, ← Bool.not_eq_true, hstored]
    exact hk

end Merge

section Substitute

variable {live : Nat → Prop} {i k : Nat}

/-- A substitution changes the weights of the neighbours only. -/
theorem get?_weights_substitute {K : Type} [Coefficient K] {p : Problem K} (hp : p.Over live)
    (hk : k ≠ i) (hnone : p.strengths.get? (.of i k) = none) (spin : Spin) :
    (p.substitute i spin).weights.get? k = p.weights.get? k := by
  have hstart : (p.absorbWeight i (Coefficient.ofSpinIn p.mode spin)).weights.get? k =
      p.weights.get? k := by
    simp only [absorbWeight, Table.get?_erase, if_neg hk]
  rw [substitute_eq]
  refine (foldl_touching (hp.absorbWeight (i := i) _) (strengths_absorbStrength (i := i) _)
    (motive := fun p' => p'.weights.get? k = p.weights.get? k ∧
      p'.strengths.get? (.of i k) = none) ⟨hstart, hnone⟩
    fun p' q j hq hi hj hboth => ⟨?_, ?_⟩).1.1
  · have hother : k ≠ q.other i := by
      rintro rfl
      have hnone := hboth.2
      rw [Pair.of_other hq.1 hi, hj] at hnone
      cases hnone
    simp only [absorbStrength, substituteTerm, addWeight, Table.get?_alter, if_neg hother]
    exact hboth.1
  · simp only [absorbStrength, substituteTerm, addWeight, Table.get?_erase]
    split
    · rfl
    · exact hboth.2

variable {p : Problem ℚ} {strength : ℚ} {helper user : Nat}

/-- A helper stays attached when a variable is fixed that is neither the helper nor its user. -/
theorem Attached.substitute (h : p.Attached strength helper user) (hp : p.Over live)
    (hchain : p.inChain i = false) (hhelper : helper ≠ i) (huser : user ≠ i) (spin : Spin) :
    (p.substitute i spin).Attached strength helper user where
  ne := h.ne
  pins := by
    obtain ⟨pin, hpin, hpin', hweight⟩ := h.pins
    have hpinned := (substitute_constraints (i := i) hp spin).2.2.1
    have hapart : p.strengths.get? (.of i helper) = none := by
      rw [Pair.of_comm, h.couplings, if_neg (Ne.symm huser)]
    refine ⟨pin, ?_, ?_, ?_⟩
    · rw [hpinned, Table.get?_erase, if_neg hhelper, hpin]
    · rw [hpinned, Table.get?_erase, if_neg huser, hpin']
    · rw [get?_weights_substitute hp hhelper hapart, hweight]
  couplings k := by
    by_cases hk : k = i
    · rw [hk, if_neg (Ne.symm huser)]
      exact (hp.substitute hchain spin).strengths_eq_none fun hlive => hlive.2.2 rfl
    · have hapart : (Pair.of helper k).contains i = false := by
        rw [← Bool.not_eq_true, Pair.contains_of]
        omega
      rw [get?_strengths_substitute hp i spin hapart, h.couplings]

end Substitute

/-- A helper whose coupling is not zero stays attached when zeros are dropped. -/
theorem Attached.pruneZeros {p : Problem ℚ} {strength : ℚ} {helper user : Nat}
    (h : p.Attached strength helper user) (hstrength : strength ≠ 0) :
    p.pruneZeros.Attached strength helper user where
  ne := h.ne
  pins := by
    obtain ⟨pin, hpin, hpin', hweight⟩ := h.pins
    refine ⟨pin, hpin, hpin', Table.get?_nonzero.mpr ⟨hweight, ?_⟩⟩
    refine mul_ne_zero hstrength ?_
    cases pin <;> simp [Coefficient.ofSpin_up, Coefficient.ofSpin_down]
  couplings k := by
    apply Option.ext
    intro j
    refine Table.get?_nonzero.trans ?_
    rw [h.couplings]
    split
    · rw [Option.some.injEq]
      exact and_iff_left_of_imp fun heq => heq ▸ hstrength
    · simp

end Problem

namespace Model

variable {m m' : Model ℚ} {strength : ℚ} {n : Nat}

/-- A model over spins whose helpers have the indices from `n` on and are attached to their users,
and whose other pinned variables all have a helper. -/
structure Anchored (strength : ℚ) (n : Nat) (m : Model ℚ) : Prop where
  tethered : m.Tethered n
  mode : m.problem.mode = .ising
  attached : ∀ helper user, m.problem.pinHelpers.get? helper = some user →
    m.problem.Attached strength helper user
  helped : ∀ i < n, ∀ spin, m.problem.pinned.get? i = some spin →
    ∃ helper, m.problem.pinHelpers.get? helper = some i

/-- Dropping zeros keeps helpers attached. -/
theorem Anchored.pruneZeros (h : m.Anchored strength n) (hstrength : strength ≠ 0) :
    (m.mapProblem (·.pruneZeros)).Anchored strength n where
  tethered := h.tethered.pruneZeros
  mode := h.mode
  attached helper user huser := (h.attached helper user huser).pruneZeros hstrength
  helped := h.helped

theorem Anchored.withoutChain (h : m.Anchored strength n) (q : Pair) :
    (m.withoutChain q).Anchored strength n where
  tethered := h.tethered.withoutChain q
  mode := h.mode
  attached helper user huser :=
    ⟨(h.attached helper user huser).ne, (h.attached helper user huser).pins,
      (h.attached helper user huser).couplings⟩
  helped := h.helped

/-- Merging users hands their helpers on. -/
theorem Anchored.mergeInto {keep drop : Nat} (h : m.Anchored strength n) (hm : m.WellLinked)
    (hkeep : m.symbols.IsRoot keep) (hdrop : m.symbols.IsRoot drop) (hlt : keep < drop)
    (hdropn : drop < n) (hok : m.mergeInto keep drop = .ok m') : m'.Anchored strength n := by
  have htethered := h.tethered.mergeInto hm hkeep hdrop hlt hdropn hok
  have hmode := (merged_of_ok hok hm hkeep hdrop hlt).mode
  obtain ⟨p, hpin, rfl⟩ := mergeInto_eq_ok hok hkeep hdrop hlt
  have hne : keep ≠ drop := hlt.ne
  obtain ⟨hp, hover, _, _⟩ := mergePin_spec hpin hm.isOver hkeep hne
  have hweights : p.weights = m.problem.weights := by rw [hp]
  have hstrengths : p.strengths = m.problem.strengths := by rw [hp]
  have hhelpers : p.pinHelpers = m.problem.pinHelpers := by rw [hp]
  have hnone : p.pinHelpers.get? drop = none := by
    rw [hhelpers]
    exact h.tethered.problem.pinHelpers_eq_none hdropn
  have hget : ∀ helper, (p.merge keep drop).pinHelpers.get? helper =
      (m.problem.pinHelpers.get? helper).map fun user => if user = drop then keep else user := by
    intro helper
    rw [Problem.pinHelpers_merge hover hkeep hne hnone, Table.get?_mapValues, hhelpers]
  have hpinned : ∀ i spin, (p.merge keep drop).pinned.get? i = some spin ↔
      i ≠ drop ∧ (m.problem.pinned.get? i = some spin ∨
        i = keep ∧ m.problem.pinned.get? drop = some spin) := by
    intro i spin
    rw [(p.merge_eq keep drop hover hkeep hne).2.1]
    exact get?_pinned_mergePin hpin hne i spin
  refine ⟨htethered, hmode.trans h.mode, fun helper user huser => ?_, fun i hi spin hspin => ?_⟩
  · obtain ⟨old, hold, rfl⟩ := Option.map_eq_some_iff.mp ((hget helper).symm.trans huser)
    obtain ⟨hle, hltn, _⟩ := h.tethered.problem.helpers helper old hold
    have hattached := h.attached helper old hold
    obtain ⟨pin, hpin, hpin', hweight⟩ := hattached.pins
    refine ⟨?_, ⟨pin, ?_, ?_, ?_⟩, ?_⟩
    · split <;> omega
    · exact (hpinned helper pin).mpr ⟨by omega, .inl hpin⟩
    · rw [hpinned]
      split
      · next heq => exact ⟨hne, .inr ⟨rfl, heq ▸ hpin'⟩⟩
      · next heq => exact ⟨heq, .inl hpin'⟩
    · rw [Problem.get?_weights_merge hover hkeep hne (by omega) (by omega), hweights, hweight]
    · refine Problem.couplings_merge hover hkeep hne (by omega) (by omega) ?_
      rw [hstrengths]
      exact hattached.couplings
  · obtain ⟨hid, hold | ⟨rfl, hold⟩⟩ := (hpinned i spin).mp hspin
    · obtain ⟨helper, hhelper⟩ := h.helped i hi spin hold
      exact ⟨helper, by rw [hget, hhelper, Option.map_some, if_neg hid]⟩
    · obtain ⟨helper, hhelper⟩ := h.helped drop hdropn spin hold
      exact ⟨helper, by rw [hget, hhelper, Option.map_some, if_pos rfl]⟩

/-- Aliasing keeps helpers attached. -/
theorem Anchored.aliases (h : m.Anchored strength n) (hm : m.WellLinked) (hrun : m.Aliases m') :
    m'.Anchored strength n := by
  induction hrun with
  | done => exact h
  | @merge m m' m'' q hq hmerge _ ih =>
    obtain ⟨hlt, hlo, hhi⟩ := hm.isOver.chains q hq
    exact ih ((h.withoutChain q).mergeInto (hm.withoutChain q) hlo hhi hlt
      (h.tethered.problem.chains q hq) hmerge) (hm.merged hq hmerge).wellLinked

/-- Fixing a forced variable keeps the helpers attached whose users are left. -/
theorem Anchored.fix {foldDominated : Bool} {i : Nat} {spin : Spin} (h : m.Anchored strength n)
    (hm : m.WellLinked) (hi : m.symbols.IsRoot i) (hchain : m.problem.inChain i = false)
    (hforced : m.problem.forcedSpin foldDominated i = some spin)
    (hfix : m.fix i spin = .ok m') : m'.Anchored strength n := by
  have hfixed := fixed_of_ok hfix hm hi hchain
  -- what is forced is no helper of a variable that is left
  have hforcedOther : ∀ helper user, m.problem.pinHelpers.get? helper = some user →
      helper ≠ i := by
    rintro _ user huser rfl
    have hlt := (h.tethered.problem.helpers _ user huser).2.1
    rw [(h.attached _ user huser).forcedSpin_eq_none hm.isOver h.mode
      (h.tethered.problem.pinHelpers_eq_none hlt)] at hforced
    cases hforced
  have hhelpers := Problem.get?_pinHelpers_substitute hm.isOver i spin
  refine ⟨h.tethered.fix hm hi hchain hfix, hfixed.mode.trans h.mode, fun helper user huser => ?_,
    fun k hk pin hpin => ?_⟩
  · obtain rfl := fix_eq_ok hfix hi
    obtain ⟨hold, hhelper, huser⟩ := (hhelpers helper user).mp huser
    have hattached :=
      (h.attached helper user hold).substitute hm.isOver hchain hhelper huser spin
    exact ⟨hattached.ne, hattached.pins, hattached.couplings⟩
  · rw [hfixed.pinned, Table.get?_erase] at hpin
    split at hpin
    · cases hpin
    · next hne =>
      obtain ⟨helper, hhelper⟩ := h.helped k hk pin hpin
      obtain rfl := fix_eq_ok hfix hi
      exact ⟨helper, (hhelpers helper k).mpr ⟨hhelper, hforcedOther helper k hhelper, hne⟩⟩

/-- A run of fixings keeps the helpers attached whose users are left. -/
theorem Anchored.fixes {foldDominated : Bool} {log : Fixings} (h : m.Anchored strength n)
    (hm : m.WellLinked) (hrun : Fixes foldDominated m log m') : m'.Anchored strength n := by
  induction hrun with
  | done => exact h
  | fix hroot hchain hforced _ hfix _ ih =>
    exact ih (h.fix hm hroot hchain hforced hfix) (fixed_of_ok hfix hm hroot hchain).wellLinked

end Model

end SpinGlass

import SpinGlass.Proofs.Simplify.Propagation

/-!
# Where a propagation ends

A round that fixes nothing visits every active variable in vain, so at its end no variable outside
the chains is forced. A fixed variable is active no more and no other becomes active, so there are
rounds enough to come to such a round.
-/

namespace SpinGlass

namespace Problem

variable {K : Type} [Coefficient K] {live : Nat → Prop} {p : Problem K} {i : Nat}

/-- A substitution adds weights to variables that were active and stores no new quadratic term. -/
theorem substitute_terms (hp : p.Over live) (spin : Spin) :
    (∀ k w, (p.substitute i spin).weights.get? k = some w → k ∈ p.activeIndices) ∧
      ∀ q j, (p.substitute i spin).strengths.get? q = some j → p.strengths.get? q = some j := by
  have hstart : ∀ k w, (p.absorbWeight i (Coefficient.ofSpinIn p.mode spin)).weights.get? k =
      some w → k ∈ p.activeIndices := by
    intro k w hk
    simp only [absorbWeight, Table.get?_erase] at hk
    split at hk
    · cases hk
    · exact mem_activeIndices_iff.mpr (.inl ⟨w, hk⟩)
  rw [substitute_eq]
  refine (foldl_touching (hp.absorbWeight (i := i) _) (strengths_absorbStrength (i := i) _)
    (motive := fun p' => (∀ k w, p'.weights.get? k = some w → k ∈ p.activeIndices) ∧
      ∀ q j, p'.strengths.get? q = some j → p.strengths.get? q = some j)
    ⟨hstart, fun q j hq => hq⟩ fun p' q j hq _ hj hkept => ⟨?_, ?_⟩).1
  · obtain ⟨hweights, hstrengths⟩ := hkept
    intro k w hk
    simp only [absorbStrength, substituteTerm, addWeight, Table.get?_alter] at hk
    split at hk
    · next heq =>
      refine mem_activeIndices_iff.mpr (.inr (.inl ⟨q, .inl ⟨j, hstrengths q j hj⟩, ?_⟩))
      rw [heq]
      unfold Pair.other
      split <;> simp
    · exact hweights k w hk
  · intro r v hr
    simp only [absorbStrength, substituteTerm, addWeight, Table.get?_erase] at hr
    split at hr
    · cases hr
    · exact hkept.2 r v hr

/-- A substitution makes no variable active. -/
theorem mem_activeIndices_of_substitute (hp : p.Over live) {spin : Spin} {k : Nat}
    (hk : k ∈ (p.substitute i spin).activeIndices) : k ∈ p.activeIndices := by
  obtain ⟨hweights, hstrengths⟩ := substitute_terms (i := i) hp spin
  obtain ⟨_, hchains, hpinned, _, _⟩ := substitute_constraints (i := i) hp spin
  rcases mem_activeIndices_iff.mp hk with ⟨w, hw⟩ | ⟨q, hq, hends⟩ | ⟨pin, hpin⟩
  · exact hweights k w hw
  · refine mem_activeIndices_iff.mpr (.inr (.inl ⟨q, ?_, hends⟩))
    exact hq.imp (fun ⟨j, hj⟩ => ⟨j, hstrengths q j hj⟩) fun hq => hchains ▸ hq
  · rw [hpinned, Table.get?_erase] at hpin
    split at hpin
    · cases hpin
    · exact mem_activeIndices_iff.mpr (.inr (.inr ⟨pin, hpin⟩))

end Problem

namespace Model

variable {K : Type} [Coefficient K] {foldDominated : Bool} {m m' : Model K} {log log' : Fixings}

/-- No active variable outside the chains is forced. -/
def Settled (foldDominated : Bool) (m : Model K) : Prop :=
  ∀ i ∈ m.problem.activeIndices, m.problem.inChain i = false →
    m.problem.forcedSpin foldDominated i = none

/-- A variable that is fixed becomes inactive, and the others are as active as before or less. -/
theorem active_of_fix {i : Nat} {spin : Spin} (hfix : m.fix i spin = .ok m') (hm : m.WellLinked)
    (hi : m.symbols.IsRoot i) (hchain : m.problem.inChain i = false) :
    ∀ k ∈ m'.problem.activeIndices, k ∈ m.problem.activeIndices ∧ k ≠ i := by
  intro k hk
  have hroot := (fixed_of_ok hfix hm hi hchain).wellLinked.isOver.mem_activeIndices hk
  refine ⟨?_, (((fixed_of_ok hfix hm hi hchain).isRoot k).mp hroot).2⟩
  obtain rfl := fix_eq_ok hfix hi
  have hk : k ∈ (m.problem.substitute i spin).activeIndices := hk
  exact Problem.mem_activeIndices_of_substitute hm.isOver hk

/-- A run of fixings leaves none of its variables active and makes none active. -/
theorem Fixes.active (h : Fixes foldDominated m log m') (hm : m.WellLinked) :
    ∀ k ∈ m'.problem.activeIndices, k ∈ m.problem.activeIndices ∧ ∀ e ∈ log, e.1 ≠ k := by
  induction h with
  | done => exact fun k hk => ⟨hk, by simp⟩
  | fix hroot hchain _ _ hfix _ ih =>
    intro k hk
    obtain ⟨hnext, hlog⟩ := ih (fixed_of_ok hfix hm hroot hchain).wellLinked k hk
    obtain ⟨hactive, hne⟩ := active_of_fix hfix hm hroot hchain k hnext
    exact ⟨hactive, List.forall_mem_cons.mpr ⟨hne.symm, hlog⟩⟩

/-- A visit that notes nothing is one to a variable in a chain or to one that is not forced. -/
theorem unforced_of_noteIfForced {i : Nat}
    (h : noteIfForced foldDominated (log, m) i = .ok (log, m'))
    (hchain : m.problem.inChain i = false) : m.problem.forcedSpin foldDominated i = none := by
  cases hforced : m.problem.forcedSpin foldDominated i with
  | none => rfl
  | some spin =>
    unfold noteIfForced at h
    simp only [hchain, Bool.false_eq_true, if_false, hforced] at h
    have hnoted : ∀ {x : Except SimplifyError (Model K)},
        (do return (log ++ [(i, spin)], ← x)) ≠ Except.ok (log, m') := by
      intro x hx
      obtain ⟨next, _, heq⟩ := bind_eq_ok.mp hx
      simp [Pure.pure, Except.pure] at heq
    split at h
    · split at h
      · cases h
      · exact absurd h hnoted
    · exact absurd h hnoted

/-- A round notes some of the variables it visits. If it notes none, it changes nothing, and none of
them is forced. -/
theorem round_spec {indices : List Nat}
    (h : indices.foldlM (noteIfForced foldDominated) (log, m) = .ok (log', m')) :
    ∃ steps, log' = log ++ steps ∧ (∀ e ∈ steps, e.1 ∈ indices) ∧
      (steps = [] → m' = m ∧ ∀ i ∈ indices, m.problem.inChain i = false →
        m.problem.forcedSpin foldDominated i = none) := by
  induction indices generalizing log m with
  | nil =>
    cases h
    exact ⟨[], (List.append_nil _).symm, by simp, fun _ => ⟨rfl, by simp⟩⟩
  | cons i rest ih =>
    obtain ⟨⟨log₁, m₁⟩, hvisit, h⟩ := foldlM_cons_eq_ok.mp h
    obtain ⟨steps, rfl, hmem, hnone⟩ := ih h
    have hmem' : ∀ e ∈ steps, e.1 ∈ i :: rest := fun e he => List.mem_cons_of_mem _ (hmem e he)
    rcases noteIfForced_eq_ok hvisit with heq | ⟨spin, _, _, _, _, rfl⟩
    · cases heq
      refine ⟨steps, rfl, hmem', fun hempty => ⟨(hnone hempty).1, ?_⟩⟩
      exact List.forall_mem_cons.mpr ⟨unforced_of_noteIfForced hvisit, (hnone hempty).2⟩
    · refine ⟨(i, spin) :: steps, by simp, List.forall_mem_cons.mpr ⟨List.mem_cons_self, hmem'⟩, ?_⟩
      simp

/-- A round that fixes a variable makes fewer variables active. -/
theorem length_activeIndices_lt {steps : Fixings} (h : Fixes foldDominated m steps m')
    (hm : m.WellLinked) (hsteps : ∀ e ∈ steps, e.1 ∈ m.problem.activeIndices)
    (hne : steps ≠ []) : m'.problem.activeIndices.length < m.problem.activeIndices.length := by
  obtain ⟨e, rest, rfl⟩ := List.exists_cons_of_ne_nil hne
  have hactive := hsteps e List.mem_cons_self
  have hsubset : m'.problem.activeIndices ⊆ m.problem.activeIndices.erase e.1 := by
    intro k hk
    obtain ⟨hk, hlog⟩ := h.active hm k hk
    exact (List.mem_erase_of_ne (hlog e List.mem_cons_self).symm).mpr hk
  have hnodup : m'.problem.activeIndices.Nodup := Table.nodup_keys _
  have hle := hnodup.length_le_of_subset hsubset
  have hpos := List.length_pos_of_mem hactive
  rw [List.length_erase_of_mem hactive] at hle
  omega

/-- With more rounds than active variables, rounds go on until no variable is forced. -/
theorem settled_of_noteRounds {rounds : Nat} (hm : m.WellLinked)
    (hrounds : m.problem.activeIndices.length < rounds)
    (h : noteRounds foldDominated rounds (log, m) = .ok (log', m')) :
    m'.Settled foldDominated := by
  induction rounds generalizing log m with
  | zero => omega
  | succ rounds ih =>
    unfold noteRounds at h
    obtain ⟨⟨log₁, m₁⟩, hround, h⟩ := bind_eq_ok.mp h
    obtain ⟨steps, rfl, hsteps⟩ := fixes_of_round _ (Table.nodup_keys _) hm
      (fun i hi => hm.isOver.mem_activeIndices hi) hround
    obtain ⟨steps', heq, hmem, hnone⟩ := round_spec hround
    obtain rfl := List.append_cancel_left heq
    dsimp only at h
    -- the run stops at a round that notes nothing, else fewer variables are active in the next
    split at h
    · next hlength =>
      cases h
      obtain ⟨rfl, hunforced⟩ := hnone (by simpa using hlength)
      exact hunforced
    · next hlength =>
      have hne : steps ≠ [] := by
        rintro rfl
        simp at hlength
      have hlt := length_activeIndices_lt hsteps hm hmem hne
      exact ih (hsteps.propagated hm).wellLinked (by omega) h

/-- A propagation goes on until no variable is forced. -/
theorem settled_of_noteConstants (hm : m.WellLinked)
    (h : m.noteConstants foldDominated = .ok (log, m')) : m'.Settled foldDominated :=
  settled_of_noteRounds hm (Nat.lt_succ_self _) h

end Model

end SpinGlass

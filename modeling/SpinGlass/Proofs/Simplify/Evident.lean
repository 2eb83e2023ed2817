import SpinGlass.Proofs.Simplify.Dominance

/-!
# What is evident from a model

The rules by which a propagation forces spins are put here as statements about the model before any
variable was merged or fixed: about the energies of assignments that meet its chains, its pins and
its couplings. Read so, a spin that is evident stays evident when more spins are known. Hence the
order in which evident spins are inferred does not matter, as long as one goes on until nothing is
evident any more.
-/

namespace SpinGlass

/-- An assignment that has all spins of another. -/
def Assignment.Extends (s known : Assignment) : Prop :=
  ∀ i spin, known i = some spin → s i = some spin

theorem Assignment.Extends.trans {s t u : Assignment} (h : s.Extends t) (h' : t.Extends u) :
    s.Extends u :=
  fun i spin hi => h i spin (h' i spin hi)

namespace Model

/-- Indices that chains tie: they have one spin wherever the chains are met. -/
def Tied {K : Type} (m : Model K) (i k : Nat) : Prop :=
  ∀ s : Assignment, m.problem.MeetsChains s → s i = s k

/-- An index that is tied to a pinned one. -/
def PinnedTo {K : Type} (m : Model K) (i : Nat) (spin : Spin) : Prop :=
  ∃ k, m.Tied i k ∧ m.problem.pinned.get? k = some spin

/-- A pinned variable whose couplings lead to its helpers only, or to variables that are known. -/
structure Released {K : Type} [Coefficient K] (m : Model K) (known : Assignment) (i : Nat)
    (spin : Spin) : Prop where
  pinned : m.PinnedTo i spin
  helped : ∀ a b, m.Tied i a → ¬ m.Tied i b → known b = none → m.problem.strength a b ≠ 0 →
    ∃ user, m.problem.pinHelpers.get? b = some user ∧ m.Tied i user

/-- A variable for which one spin is better than the other by more than the margin, whatever the
unknown variables are. -/
def Dominated (m : Model ℚ) (known : Assignment) (i : Nat) (spin : Spin) : Prop :=
  ∀ s t : Assignment, s.Covers m.symbols.size → t.Covers m.symbols.size →
    m.problem.MeetsChains s → m.problem.MeetsChains t → s.Extends known → t.Extends known →
    s i = some spin → t i = some spin.flip → (∀ k, ¬ m.Tied i k → s k = t k) →
    2 * Problem.dominanceMargin < m.problem.energy t - m.problem.energy s

/-- A spin that a rule of the propagation forces. -/
def Evident (m : Model ℚ) (foldDominated : Bool) (known : Assignment) (i : Nat) (spin : Spin) :
    Prop :=
  m.Released known i spin ∨ foldDominated = true ∧ m.Dominated known i spin

/-- Spins that are inferred one after the other; a spin that contradicts a pin is not inferred. -/
inductive Infers (m : Model ℚ) (foldDominated : Bool) : Assignment → Prop where
  | start : Infers m foldDominated fun _ => none
  | step {known known' : Assignment} {i : Nat} {spin : Spin} (hrun : Infers m foldDominated known)
      (hlt : i < m.symbols.size) (hi : known i = none)
      (hevident : m.Evident foldDominated known i spin)
      (hpin : ∀ pin, m.PinnedTo i pin → pin = spin)
      (hnew : ∀ k, m.Tied i k → known' k = some spin)
      (hold : ∀ k, ¬ m.Tied i k → known' k = known k) : Infers m foldDominated known'

/-- A time on the way of a run at which a variable was not known, a rule forced its spin and no pin
spoke against it. -/
structure Justified (m : Model ℚ) (foldDominated : Bool) (known before : Assignment) (i : Nat)
    (spin : Spin) : Prop where
  run : Infers m foldDominated before
  extends_before : known.Extends before
  unknown : before i = none
  evident : m.Evident foldDominated before i spin
  pin : ∀ pin, m.PinnedTo i pin → pin = spin

/-- A run that comes upon a spin which contradicts a pin. -/
structure Contradicts (m : Model ℚ) (foldDominated : Bool) (known : Assignment) (i : Nat)
    (pin spin : Spin) : Prop where
  infers : Infers m foldDominated known
  lt : i < m.symbols.size
  unknown : known i = none
  evident : m.Evident foldDominated known i spin
  pinnedTo : m.PinnedTo i pin
  unreleased : ¬ m.Released known i pin
  ne : pin ≠ spin

/-- Nothing unknown is evident. -/
def Settles (m : Model ℚ) (foldDominated : Bool) (known : Assignment) : Prop :=
  ∀ i < m.symbols.size, ∀ spin, known i = none → ¬ m.Evident foldDominated known i spin

section Tied

variable {K : Type} {m : Model K} {i j k : Nat} {spin : Spin}

theorem Tied.refl (m : Model K) (i : Nat) : m.Tied i i := fun _ _ => rfl

theorem Tied.symm (h : m.Tied i k) : m.Tied k i := fun s hs => (h s hs).symm

theorem Tied.trans (h : m.Tied i j) (h' : m.Tied j k) : m.Tied i k :=
  fun s hs => (h s hs).trans (h' s hs)

/-- The ends of a chain are tied. -/
theorem tied_of_chain {q : Pair} (hq : m.problem.chains.contains q = true) : m.Tied q.lo q.hi :=
  fun _ hs => hs q hq

/-- An assignment that gives tied indices one spin meets the chains. -/
theorem meetsChains_of_tied {s : Assignment} (h : ∀ i k, m.Tied i k → s i = s k) :
    m.problem.MeetsChains s :=
  fun q hq => h q.lo q.hi (tied_of_chain hq)

theorem PinnedTo.of_tied (h : m.PinnedTo i spin) (hk : m.Tied i k) : m.PinnedTo k spin := by
  obtain ⟨j, hj, hpin⟩ := h
  exact ⟨j, hk.symm.trans hj, hpin⟩

end Tied

section Complete

open Classical in
/-- The assignment with what is known, one spin for a variable and everything tied to it, and given
spins for the rest. -/
noncomputable def complete (m : Model ℚ) (known : Assignment) (others : Nat → Spin) (i : Nat)
    (spin : Spin) : Assignment :=
  fun k => if m.Tied i k then some spin else some ((known k).getD (others k))

variable {m : Model ℚ} {known before : Assignment} {others : Nat → Spin} {i k : Nat} {spin : Spin}

theorem complete_of_tied (h : m.Tied i k) : m.complete known others i spin k = some spin := if_pos h

theorem complete_of_not_tied (h : ¬ m.Tied i k) :
    m.complete known others i spin k = some ((known k).getD (others k)) := if_neg h

theorem covers_complete (m : Model ℚ) (known : Assignment) (others : Nat → Spin) (i : Nat)
    (spin : Spin) : (m.complete known others i spin).Covers m.symbols.size := by
  intro k _
  unfold Model.complete
  split
  · exact ⟨spin, rfl⟩
  · exact ⟨_, rfl⟩

/-- With one spin for tied variables such an assignment meets the chains. -/
theorem meetsChains_complete (hknown : ∀ a b, m.Tied a b → known a = known b)
    (hothers : ∀ a b, m.Tied a b → others a = others b) :
    m.problem.MeetsChains (m.complete known others i spin) := by
  refine meetsChains_of_tied fun a b hab => ?_
  by_cases ha : m.Tied i a
  · rw [complete_of_tied ha, complete_of_tied (ha.trans hab)]
  · rw [complete_of_not_tied ha, complete_of_not_tied fun hb => ha (hb.trans hab.symm),
      hknown a b hab, hothers a b hab]

/-- Such an assignment has what was known when the variable was not. -/
theorem extends_complete (hbefore : ∀ a b, m.Tied a b → before a = before b)
    (hle : known.Extends before) (hi : before i = none) :
    (m.complete known others i spin).Extends before := by
  intro k other hk
  have hnot : ¬ m.Tied i k := by
    intro htied
    rw [← hbefore i k htied, hi] at hk
    cases hk
  rw [complete_of_not_tied hnot, hle k other hk, Option.getD_some]

/-- A dominating spin is better by the margin whatever else the variables have that were not known
when it came to dominate. -/
theorem Dominated.lt_complete (h : m.Dominated before i spin) (others : Nat → Spin)
    (hbefore : ∀ a b, m.Tied a b → before a = before b)
    (hknown : ∀ a b, m.Tied a b → known a = known b)
    (hothers : ∀ a b, m.Tied a b → others a = others b) (hle : known.Extends before)
    (hi : before i = none) :
    2 * Problem.dominanceMargin < m.problem.energy (m.complete known others i spin.flip) -
      m.problem.energy (m.complete known others i spin) := by
  have hcovers := covers_complete m known others i
  have hmeets : ∀ spin, m.problem.MeetsChains (m.complete known others i spin) := fun spin =>
    meetsChains_complete hknown hothers
  have hextends : ∀ spin, (m.complete known others i spin).Extends before := fun spin =>
    extends_complete hbefore hle hi
  have hself : ∀ spin, m.complete known others i spin i = some spin := fun spin =>
    complete_of_tied (.refl m i)
  refine h _ _ (hcovers spin) (hcovers spin.flip) (hmeets spin) (hmeets spin.flip) (hextends spin)
    (hextends spin.flip) (hself spin) (hself spin.flip) fun k hk => ?_
  rw [complete_of_not_tied hk, complete_of_not_tied hk]

end Complete

section Evident

variable {m : Model ℚ} {foldDominated : Bool} {known known' : Assignment} {i k : Nat} {spin : Spin}

/-- What is evident for a variable is evident for those tied to it. -/
theorem Evident.of_tied (h : m.Evident foldDominated known i spin) (hk : m.Tied i k) :
    m.Evident foldDominated known k spin := by
  refine h.imp (fun hreleased => ⟨hreleased.pinned.of_tied hk, fun a b ha hb hnone hne => ?_⟩)
    fun ⟨hfold, hdominated⟩ => ⟨hfold, fun s t hs ht hsmeets htmeets hsknown htknown hsi hti
      hsame => ?_⟩
  · obtain ⟨user, huser, htied⟩ := hreleased.helped a b (hk.trans ha)
      (fun h => hb (hk.symm.trans h)) hnone hne
    exact ⟨user, huser, hk.symm.trans htied⟩
  · exact hdominated s t hs ht hsmeets htmeets hsknown htknown ((hk s hsmeets).trans hsi)
      ((hk t htmeets).trans hti) fun j hj => hsame j fun h => hj (hk.trans h)

/-- What is evident stays evident when more is known. -/
theorem Evident.mono (h : m.Evident foldDominated known i spin) (hle : known'.Extends known) :
    m.Evident foldDominated known' i spin := by
  refine h.imp (fun hreleased => ⟨hreleased.pinned, fun a b ha hb hnone => ?_⟩)
    fun ⟨hfold, hdominated⟩ => ⟨hfold, fun s t hs ht hsmeets htmeets hsknown htknown => ?_⟩
  · refine hreleased.helped a b ha hb (Option.eq_none_iff_forall_ne_some.mpr fun other hother => ?_)
    rw [hle b other hother] at hnone
    cases hnone
  · exact hdominated s t hs ht hsmeets htmeets (hsknown.trans hle) (htknown.trans hle)

end Evident

section Infers

variable {m : Model ℚ} {foldDominated : Bool} {known known' : Assignment} {i k : Nat} {spin : Spin}

/-- Tied variables become known together. -/
theorem Infers.eq_of_tied (h : m.Infers foldDominated known) (hik : m.Tied i k) :
    known i = known k := by
  induction h with
  | start => rfl
  | @step known known' j spin _ _ _ _ _ hnew hold ih =>
    by_cases hj : m.Tied j i
    · rw [hnew i hj, hnew k (hj.trans hik)]
    · rw [hold i hj, hold k fun h => hj (h.trans hik.symm), ih]

/-- A step keeps what is known. -/
theorem Infers.extends_step {j : Nat} (h : m.Infers foldDominated known) (hj : known j = none)
    (hold : ∀ k, ¬ m.Tied j k → known' k = known k) : known'.Extends known := by
  intro i spin hi
  rw [hold i, hi]
  intro htied
  rw [← h.eq_of_tied htied, hj] at hi
  cases hi

/-- What is known was evident once, at a time when it was not known yet. -/
theorem Infers.exists_step (h : m.Infers foldDominated known) (hi : known i = some spin) :
    ∃ before, m.Justified foldDominated known before i spin := by
  induction h with
  | start => cases hi
  | @step known known' j spin' hrun _ hj hevident hpin hnew hold ih =>
    have hextends := hrun.extends_step hj hold
    by_cases htied : m.Tied j i
    · rw [hnew i htied] at hi
      cases hi
      refine ⟨known, ⟨hrun, hextends, ?_, hevident.of_tied htied, fun pin h => ?_⟩⟩
      · rw [← hrun.eq_of_tied htied, hj]
      · exact hpin pin (h.of_tied htied.symm)
    · rw [hold i htied] at hi
      obtain ⟨before, hbefore⟩ := ih hi
      exact ⟨before, { hbefore with extends_before := hextends.trans hbefore.extends_before }⟩

/-- No two spins of a variable are justified, even at different times of different runs. -/
theorem Infers.eq_of_justified {before before' : Assignment} {spin' : Spin}
    (h : m.Infers foldDominated known) (hspin : m.Justified foldDominated known before i spin)
    (hspin' : m.Justified foldDominated known before' i spin') : spin = spin' := by
  rcases hspin.evident with hreleased | ⟨_, hdominated⟩
  · exact hspin'.pin spin hreleased.pinned
  rcases hspin'.evident with hreleased | ⟨_, hdominated'⟩
  · exact (hspin.pin spin' hreleased.pinned).symm
  by_contra hne
  have hflip : spin' = spin.flip := by cases spin <;> cases spin' <;> simp_all [Spin.flip]
  -- two assignments that differ in the variable would each be better than the other
  have hlt := hdominated.lt_complete (fun _ => .up) (fun _ _ => hspin.run.eq_of_tied)
    (fun _ _ => h.eq_of_tied) (fun _ _ _ => rfl) hspin.extends_before hspin.unknown
  have hlt' := hdominated'.lt_complete (fun _ => .up) (fun _ _ => hspin'.run.eq_of_tied)
    (fun _ _ => h.eq_of_tied) (fun _ _ _ => rfl) hspin'.extends_before hspin'.unknown
  rw [hflip, Spin.flip_flip] at hlt'
  have hmargin := Problem.dominanceMargin_pos
  linarith

/-- A run that goes on until nothing is evident infers all that any run does. -/
theorem Infers.extends_of_settles (h : m.Infers foldDominated known)
    (h' : m.Infers foldDominated known') (hsettles : m.Settles foldDominated known') :
    known'.Extends known := by
  induction h with
  | start =>
    intro i spin hi
    cases hi
  | @step known next j spin hrun hlt hj hevident hpin hnew hold ih =>
    intro k other hk
    by_cases htied : m.Tied j k
    · rw [hnew k htied] at hk
      cases hk
      rw [← h'.eq_of_tied htied]
      cases hspin : known' j with
      | none => exact absurd (hevident.mono ih) (hsettles j hlt spin hspin)
      | some spin' =>
        obtain ⟨before, hjustified⟩ := h'.exists_step hspin
        rw [h'.eq_of_justified ⟨hrun, ih, hj, hevident, hpin⟩ hjustified]
    · rw [hold k htied] at hk
      exact ih k other hk

/-- Two runs that go on until nothing is evident infer the same. -/
theorem Infers.eq_of_settles (h : m.Infers foldDominated known)
    (hsettles : m.Settles foldDominated known) (h' : m.Infers foldDominated known')
    (hsettles' : m.Settles foldDominated known') : known = known' := by
  have hle := h.extends_of_settles h' hsettles'
  have hle' := h'.extends_of_settles h hsettles
  funext i
  cases hi : known i with
  | some spin => exact (hle i spin hi).symm
  | none =>
    rw [eq_comm, Option.eq_none_iff_forall_ne_some]
    intro spin hspin
    rw [hle' i spin hspin] at hi
    cases hi

/-- Where a run comes upon a spin that contradicts a pin, the spin is a dominating one, and a run
that gets past it has inferred the pin. -/
theorem Contradicts.known_eq {pin : Spin} (h : m.Contradicts foldDominated known i pin spin)
    (h' : m.Infers foldDominated known') (hsettles : m.Settles foldDominated known') :
    foldDominated = true ∧ known' i = some pin := by
  cases hspin : known' i with
  | none =>
    have hle := h.infers.extends_of_settles h' hsettles
    exact absurd (h.evident.mono hle) (hsettles i h.lt spin hspin)
  | some other =>
    obtain ⟨before, hjustified⟩ := h'.exists_step hspin
    have hother := hjustified.pin pin h.pinnedTo
    rcases h.evident with hreleased | ⟨hfold, _⟩
    · exact absurd (hother.trans (hjustified.pin spin hreleased.pinned).symm) h.ne
    · exact ⟨hfold, congrArg some hother.symm⟩

end Infers

end Model

end SpinGlass

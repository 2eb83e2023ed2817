import SpinGlass.Problem.Strength
import SpinGlass.Proofs.Problem.Build

/-!
# Pin helpers

A helper is a new variable, pinned like its user. Its weight and its coupling have a fixed value as
soon as both pins are met, so helpers add a constant to the energy of the assignments that count.
-/

namespace SpinGlass.Model

/-- A model without links whose problem mentions allocated indices only. -/
structure Indexed {K : Type} (m : Model K) : Prop where
  plain : m.symbols.Plain
  isOver : m.problem.Over (· < m.symbols.size)

section Helpers

variable {K : Type} {m m' : Model K}

theorem Built.indexed {mode : Mode} (h : m.Built mode) : m.Indexed := ⟨h.plain, h.isOver⟩

/-- What giving helpers to pinned variables does to a model. -/
structure Helped (m m' : Model K) : Prop where
  indexed : m'.Indexed
  grows : m.symbols.Extends m'.symbols
  only : ∀ name i, m'.symbols.byName.get? name = some i →
    isInternalName name = true ∨ m.symbols.byName.get? name = some i
  pinned : ∀ i spin, m.problem.pinned.get? i = some spin → m'.problem.pinned.get? i = some spin
  pinned_old : ∀ i spin, i < m.symbols.size → m'.problem.pinned.get? i = some spin →
    m.problem.pinned.get? i = some spin
  mode : m'.problem.mode = m.problem.mode
  chains : m'.problem.chains = m.problem.chains
  assertions : m'.problem.assertions = m.problem.assertions
  knownValues : m'.problem.knownValues = m.problem.knownValues

theorem Helped.refl (h : m.Indexed) : m.Helped m :=
  ⟨h, .refl _, fun _ _ h => .inr h, fun _ _ h => h, fun _ _ _ h => h, rfl, rfl, rfl, rfl⟩

theorem Helped.trans {m'' : Model K} (h : m.Helped m') (h' : m'.Helped m'') : m.Helped m'' where
  indexed := h'.indexed
  grows := h.grows.trans h'.grows
  only name i hi := (h'.only name i hi).elim .inl (h.only name i)
  pinned i spin hi := h'.pinned i spin (h.pinned i spin hi)
  pinned_old i spin hi hpin :=
    h.pinned_old i spin hi (h'.pinned_old i spin (Nat.lt_of_lt_of_le hi h.grows.size_le) hpin)
  mode := h'.mode.trans h.mode
  chains := h'.chains.trans h.chains
  assertions := h'.assertions.trans h.assertions
  knownValues := h'.knownValues.trans h.knownValues

theorem pinned_of_mem_userPins {e : Nat × Spin} (he : e ∈ m.problem.userPins) :
    m.problem.pinned.get? e.1 = some e.2 :=
  Table.get?_eq_some_iff.mpr (List.mem_filter.mp he).1

variable [Coefficient K] {strength : K}

/-- A helper is a new variable with a weight and a coupling. -/
theorem problem_addHelper (user : Nat) (spin : Spin) :
    (addHelper strength m (user, spin)).problem =
      { (m.problem.addWeight m.symbols.size (strength * Coefficient.ofSpin spin)).addStrength user
          m.symbols.size strength with
        pinned := m.problem.pinned.insert m.symbols.size spin
        pinHelpers := m.problem.pinHelpers.insert m.symbols.size user } := by
  have hhelper := (m.symbols.size_fresh "pin").1
  have hsame := Problem.sameConstraints_addStrength
    (m.problem.addWeight m.symbols.size (strength * Coefficient.ofSpin spin)) user m.symbols.size
    strength
  have hproblem : (addHelper strength m (user, spin)).problem =
      let helper := (m.symbols.fresh "pin").1.2
      let p := (m.problem.addWeight helper (strength * Coefficient.ofSpin spin)).addStrength user
        helper strength
      { p with
        pinned := p.pinned.insert helper spin
        pinHelpers := p.pinHelpers.insert helper user } := rfl
  rw [hproblem, hhelper]
  simp only [hsame.pinned, hsame.pinHelpers]
  rfl

/-- Giving a helper to a pinned variable keeps all that was asked. -/
theorem helped_addHelper (h : m.Indexed) {user : Nat} (huser : user < m.symbols.size)
    (strength : K) (spin : Spin) : m.Helped (addHelper strength m (user, spin)) := by
  obtain ⟨_, hsize, hplain, hgrows⟩ := h.plain.fresh "pin"
  have hsame := Problem.sameConstraints_addStrength
    (m.problem.addWeight m.symbols.size (strength * Coefficient.ofSpin spin)) user m.symbols.size
    strength
  have hsymbols : (addHelper strength m (user, spin)).symbols = (m.symbols.fresh "pin").2 := rfl
  have hover : ((m.problem.addWeight m.symbols.size
      (strength * Coefficient.ofSpin spin)).addStrength user m.symbols.size strength).Over
      (· < m.symbols.size + 1) :=
    ((h.isOver.mono fun i hi => Nat.lt_succ_of_lt hi).addWeight (Nat.lt_succ_self _) _).addStrength
      (Nat.lt_succ_of_lt huser) (Nat.lt_succ_self _) _
  have hpinned : ∀ i pin, (m.problem.pinned.insert m.symbols.size spin).get? i = some pin →
      i = m.symbols.size ∨ m.problem.pinned.get? i = some pin := by
    intro i pin hi
    rw [Table.get?_insert] at hi
    split at hi
    · next heq => exact .inl heq
    · exact .inr hi
  refine ⟨⟨hsymbols ▸ hplain, ?_⟩, hsymbols ▸ hgrows, fun _ _ => Symbols.names_fresh,
    fun i pin hi => ?_, fun i pin hlt hi => ?_, ?_, ?_, ?_, ?_⟩
  · rw [problem_addHelper, hsymbols, hsize]
    refine ⟨hover.weights, hover.strengths, hover.chains, fun i pin hi => ?_, fun a b hab => ?_⟩
    · rcases hpinned i pin hi with rfl | hi
      · exact Nat.lt_succ_self _
      · exact Nat.lt_succ_of_lt (h.isOver.pinned i pin hi)
    · simp only [Table.get?_insert] at hab
      split at hab
      · next heq =>
        cases hab
        exact ⟨heq ▸ Nat.lt_succ_self _, Nat.lt_succ_of_lt huser⟩
      · obtain ⟨ha, hb⟩ := h.isOver.helpers a b hab
        exact ⟨Nat.lt_succ_of_lt ha, Nat.lt_succ_of_lt hb⟩
  · have hne : i ≠ m.symbols.size := Nat.ne_of_lt (h.isOver.pinned i pin hi)
    rw [problem_addHelper]
    simp only [Table.get?_insert, if_neg hne, hi]
  · rw [problem_addHelper] at hi
    exact (hpinned i pin hi).resolve_left (Nat.ne_of_lt hlt)
  · rw [problem_addHelper]
    exact hsame.mode
  · rw [problem_addHelper]
    exact hsame.chains
  · rw [problem_addHelper]
    exact hsame.assertions
  · rw [problem_addHelper]
    exact hsame.knownValues

/-- Giving helpers to some pinned variables keeps all that was asked. -/
theorem helped_foldl {pins : List (Nat × Spin)} (h : m.Indexed)
    (hpins : ∀ e ∈ pins, m.problem.pinned.get? e.1 = some e.2) (strength : K) :
    m.Helped (pins.foldl (addHelper strength) m) := by
  induction pins generalizing m with
  | nil => exact .refl h
  | cons e rest ih =>
    have huser : e.1 < m.symbols.size := h.isOver.pinned _ _ (hpins e List.mem_cons_self)
    have hfirst := helped_addHelper h huser strength e.2
    exact hfirst.trans (ih hfirst.indexed fun e' he' =>
      hfirst.pinned _ _ (hpins e' (List.mem_cons_of_mem _ he')))

/-- Helpers keep all that was asked. -/
theorem helped_pinWithHelpers (h : m.Indexed) (strength : K) :
    m.Helped (m.pinWithHelpers strength) :=
  helped_foldl h (fun _ he => pinned_of_mem_userPins he) strength

end Helpers

section Shape

variable {K : Type} [Coefficient K] {m : Model K} {strength : K} {pins : List (Nat × Spin)}

theorem mode_addHelper (strength : K) (pin : Nat × Spin) :
    (addHelper strength m pin).problem.mode = m.problem.mode := by
  rw [problem_addHelper]
  exact (Problem.sameConstraints_addStrength ..).mode

theorem size_addHelper (strength : K) (pin : Nat × Spin) :
    (addHelper strength m pin).symbols.size = m.symbols.size + 1 :=
  (m.symbols.size_fresh "pin").2

/-- A new helper is pinned, and the other pins stay. -/
theorem get?_pinned_addHelper (strength : K) (pin : Nat × Spin) (i : Nat) :
    (addHelper strength m pin).problem.pinned.get? i =
      if i = m.symbols.size then some pin.2 else m.problem.pinned.get? i := by
  rw [problem_addHelper]
  exact Table.get?_insert ..

/-- A new helper stands by its user, and the other helpers by theirs. -/
theorem get?_pinHelpers_addHelper (strength : K) (pin : Nat × Spin) (i : Nat) :
    (addHelper strength m pin).problem.pinHelpers.get? i =
      if i = m.symbols.size then some pin.1 else m.problem.pinHelpers.get? i := by
  rw [problem_addHelper]
  exact Table.get?_insert ..

/-- Helpers get the next indices. -/
theorem size_foldl_addHelper (pins : List (Nat × Spin)) :
    (pins.foldl (addHelper strength) m).symbols.size = m.symbols.size + pins.length := by
  induction pins generalizing m with
  | nil => rfl
  | cons pin rest ih =>
    rw [List.foldl_cons, ih, size_addHelper, List.length_cons]
    omega

/-- A table that grows by an entry for each new helper, at the index of the helper. -/
theorem get?_foldl_addHelper {β : Type} (table : Model K → Table Nat β) (entry : Nat × Spin → β)
    (hstep : ∀ (m : Model K) (pin : Nat × Spin) (i : Nat),
      (table (addHelper strength m pin)).get? i =
        if i = m.symbols.size then some (entry pin) else (table m).get? i)
    (hover : ∀ i b, (table m).get? i = some b → i < m.symbols.size) (i : Nat) :
    (table (pins.foldl (addHelper strength) m)).get? i =
      if i < m.symbols.size then (table m).get? i
      else (pins[i - m.symbols.size]?).map entry := by
  induction pins generalizing m with
  | nil =>
    split
    · rfl
    · next hle =>
      by_contra hne
      obtain ⟨b, hb⟩ := Option.ne_none_iff_exists'.mp hne
      exact hle (hover i b hb)
  | cons pin rest ih =>
    have hover' : ∀ i b, (table (addHelper strength m pin)).get? i = some b →
        i < (addHelper strength m pin).symbols.size := by
      intro i b hb
      rw [size_addHelper]
      rw [hstep] at hb
      split at hb
      · omega
      · exact Nat.lt_succ_of_lt (hover i b hb)
    rw [List.foldl_cons, ih hover', hstep, size_addHelper]
    rcases Nat.lt_trichotomy i m.symbols.size with hlt | rfl | hgt
    · rw [if_pos (by omega), if_neg (by omega), if_pos hlt]
    · rw [if_pos (by omega), if_pos rfl, if_neg (by omega), Nat.sub_self]
      rfl
    · rw [if_neg (by omega), if_neg (by omega),
        show i - m.symbols.size = i - (m.symbols.size + 1) + 1 by omega]
      rfl

/-- After the pins of the variables come those of the helpers. -/
theorem get?_pinned_pinWithHelpers (hover : m.problem.Over (· < m.symbols.size)) (strength : K)
    (i : Nat) : (m.pinWithHelpers strength).problem.pinned.get? i = if i < m.symbols.size then
      m.problem.pinned.get? i else (m.problem.userPins[i - m.symbols.size]?).map Prod.snd :=
  get?_foldl_addHelper (fun m => m.problem.pinned) Prod.snd
    (fun _ => get?_pinned_addHelper strength) hover.pinned i

/-- The users of the helpers are the pinned variables, in order. -/
theorem get?_pinHelpers_pinWithHelpers (hover : m.problem.Over (· < m.symbols.size)) (strength : K)
    (i : Nat) : (m.pinWithHelpers strength).problem.pinHelpers.get? i = if i < m.symbols.size then
      m.problem.pinHelpers.get? i else (m.problem.userPins[i - m.symbols.size]?).map Prod.fst :=
  get?_foldl_addHelper (fun m => m.problem.pinHelpers) Prod.fst
    (fun _ => get?_pinHelpers_addHelper strength)
    (fun helper user hget => (hover.helpers helper user hget).1) i

omit [Coefficient K] in
/-- Without helpers, every pin is one of the user. -/
theorem userPins_eq (hhelpers : m.problem.pinHelpers = .empty) :
    m.problem.userPins = m.problem.pinned.entries := by
  unfold Problem.userPins
  rw [List.filter_eq_self]
  intro e _
  simp [hhelpers, Table.contains_eq_false_iff]

end Shape

section Energy

variable {m : Model ℚ} {strength : ℚ} {s : Assignment} {pins : List (Nat × Spin)}

/-- What the helpers of some pins add to an energy, if the first has index `first`. -/
def helperEnergy (strength : ℚ) (s : Assignment) (pins : List (Nat × Spin)) (first : Nat) : ℚ :=
  ((pins.zipIdx first).map fun (pin, helper) =>
    strength * (Coefficient.ofSpin pin.2 + Problem.value .ising s pin.1) *
      Problem.value .ising s helper).sum

theorem helperEnergy_cons (pin : Nat × Spin) (first : Nat) :
    helperEnergy strength s (pin :: pins) first =
      strength * (Coefficient.ofSpin pin.2 + Problem.value .ising s pin.1) *
        Problem.value .ising s first + helperEnergy strength s pins (first + 1) := by
  simp [helperEnergy, List.zipIdx_cons]

/-- A helper adds its weight and its coupling. -/
theorem energy_addHelper {pin : Nat × Spin} (hmode : m.problem.mode = .ising)
    (huser : ∃ spin, s pin.1 = some spin) :
    (addHelper strength m pin).problem.energy s = m.problem.energy s +
      strength * (Coefficient.ofSpin pin.2 + Problem.value .ising s pin.1) *
        Problem.value .ising s m.symbols.size := by
  have hterms : (addHelper strength m pin).problem.energy s =
      ((m.problem.addWeight m.symbols.size (strength * Coefficient.ofSpin pin.2)).addStrength pin.1
        m.symbols.size strength).energy s := by
    rw [problem_addHelper]
    rfl
  rw [hterms, Problem.energy_addStrength _ _ _ _ huser, Problem.energy_addWeight]
  simp only [Problem.addWeight, hmode]
  ring

/-- Helpers add their weights and couplings. -/
theorem energy_foldl_addHelper (hmode : m.problem.mode = .ising)
    (husers : ∀ e ∈ pins, ∃ spin, s e.1 = some spin) :
    (pins.foldl (addHelper strength) m).problem.energy s =
      m.problem.energy s + helperEnergy strength s pins m.symbols.size := by
  induction pins generalizing m with
  | nil => simp [helperEnergy]
  | cons pin rest ih =>
    obtain ⟨huser, hrest⟩ := List.forall_mem_cons.mp husers
    rw [List.foldl_cons, ih ((mode_addHelper ..).trans hmode) hrest, energy_addHelper hmode huser,
      helperEnergy_cons, size_addHelper, add_assoc]

/-- What a helper adds: twice the strength if user and helper are met, and nothing if its user is
broken. -/
theorem helperTerm_eq {pin : Nat × Spin} {helper : Nat} (huser : ∃ spin, s pin.1 = some spin)
    (hhelper : s helper = some pin.2) :
    strength * (Coefficient.ofSpin pin.2 + Problem.value .ising s pin.1) *
        Problem.value .ising s helper = if s pin.1 = some pin.2 then 2 * strength else 0 := by
  obtain ⟨spin, hspin⟩ := huser
  obtain ⟨user, asked⟩ := pin
  rw [Problem.value_of_eq_some _ hspin, Problem.value_of_eq_some _ hhelper, hspin]
  cases spin <;> cases asked <;> simp [Coefficient.ofSpinIn, Coefficient.ofSpin] <;> ring

/-- A helper that is not met adds no less. -/
theorem le_helperTerm (hstrength : strength ≤ 0) {pin : Nat × Spin} {helper : Nat}
    (huser : ∃ spin, s pin.1 = some spin) (hhelper : ∃ spin, s helper = some spin) :
    (if s pin.1 = some pin.2 then 2 * strength else 0) ≤
      strength * (Coefficient.ofSpin pin.2 + Problem.value .ising s pin.1) *
        Problem.value .ising s helper := by
  obtain ⟨spin, hspin⟩ := huser
  obtain ⟨other, hother⟩ := hhelper
  obtain ⟨user, asked⟩ := pin
  rw [Problem.value_of_eq_some _ hspin, Problem.value_of_eq_some _ hother, hspin]
  cases spin <;> cases asked <;> cases other <;>
    simp [Coefficient.ofSpinIn, Coefficient.ofSpin] <;> linarith

/-- The pins among some that an assignment breaks. -/
def broken (pins : List (Nat × Spin)) (s : Assignment) : List (Nat × Spin) :=
  pins.filter fun e => s e.1 ≠ some e.2

theorem length_broken_cons (pin : Nat × Spin) : ((broken (pin :: pins) s).length : ℚ) =
    (broken pins s).length + if s pin.1 = some pin.2 then 0 else 1 := by
  unfold broken
  rw [List.filter_cons]
  split <;> simp_all

/-- Helpers that are met add twice the strength for each pin that is not broken. -/
theorem helperEnergy_eq {first : Nat} (husers : ∀ e ∈ pins, ∃ spin, s e.1 = some spin)
    (hhelpers : ∀ k e, pins[k]? = some e → s (first + k) = some e.2) :
    helperEnergy strength s pins first =
      2 * strength * (pins.length - (broken pins s).length) := by
  induction pins generalizing first with
  | nil => simp [helperEnergy, broken]
  | cons pin rest ih =>
    obtain ⟨huser, hrest⟩ := List.forall_mem_cons.mp husers
    have hnext : ∀ k e, rest[k]? = some e → s (first + 1 + k) = some e.2 := by
      intro k e he
      rw [Nat.add_right_comm]
      exact hhelpers (k + 1) e he
    have hhelper : s first = some pin.2 := hhelpers 0 pin rfl
    rw [helperEnergy_cons, ih hrest hnext, helperTerm_eq huser hhelper, length_broken_cons,
      List.length_cons]
    push_cast
    split <;> ring

/-- Helpers add no less than when they are met. -/
theorem le_helperEnergy (hstrength : strength ≤ 0) {first : Nat}
    (husers : ∀ e ∈ pins, ∃ spin, s e.1 = some spin)
    (hhelpers : ∀ k < pins.length, ∃ spin, s (first + k) = some spin) :
    2 * strength * (pins.length - (broken pins s).length) ≤
      helperEnergy strength s pins first := by
  induction pins generalizing first with
  | nil => simp [helperEnergy, broken]
  | cons pin rest ih =>
    obtain ⟨huser, hrest⟩ := List.forall_mem_cons.mp husers
    have hnext : ∀ k < rest.length, ∃ spin, s (first + 1 + k) = some spin := by
      intro k hk
      rw [Nat.add_right_comm]
      exact hhelpers (k + 1) (Nat.succ_lt_succ hk)
    have hfirst := le_helperTerm hstrength huser (hhelpers 0 (Nat.zero_lt_succ _))
    have hrest := ih hrest hnext
    rw [helperEnergy_cons, length_broken_cons, List.length_cons]
    refine le_trans (le_of_eq ?_) (add_le_add hfirst hrest)
    push_cast
    split <;> ring

/-- Helpers that add as little as they can are met if their users are. -/
theorem met_of_helperEnergy_le (hstrength : strength < 0) {first : Nat}
    (husers : ∀ e ∈ pins, s e.1 = some e.2)
    (hassigned : ∀ k < pins.length, ∃ spin, s (first + k) = some spin)
    (hle : helperEnergy strength s pins first ≤ 2 * strength * pins.length) :
    ∀ k e, pins[k]? = some e → s (first + k) = some e.2 := by
  induction pins generalizing first with
  | nil => simp
  | cons pin rest ih =>
    obtain ⟨huser, hrest⟩ := List.forall_mem_cons.mp husers
    have hassigned' : ∀ k < rest.length, ∃ spin, s (first + 1 + k) = some spin := by
      intro k hk
      rw [Nat.add_right_comm]
      exact hassigned (k + 1) (Nat.succ_lt_succ hk)
    have hassigned₀ : ∃ spin, s first = some spin := hassigned 0 (Nat.zero_lt_succ _)
    have hfirst := le_helperTerm hstrength.le ⟨_, huser⟩ hassigned₀
    have hothers := le_helperEnergy hstrength.le (fun e he => ⟨_, hrest e he⟩) hassigned'
    have hbroken : broken rest s = [] :=
      List.filter_eq_nil_iff.mpr fun e he => by simp [hrest e he]
    rw [helperEnergy_cons, List.length_cons] at hle
    rw [if_pos huser] at hfirst
    rw [hbroken, List.length_nil, Nat.cast_zero, sub_zero] at hothers
    push_cast at hle
    have hhelper : s first = some pin.2 := by
      obtain ⟨spin, hspin⟩ := hassigned₀
      by_contra hne
      rw [Problem.value_of_eq_some _ huser, Problem.value_of_eq_some _ hspin] at hle
      obtain ⟨user, asked⟩ := pin
      rw [hspin] at hne
      cases spin <;> cases asked <;>
        simp [Coefficient.ofSpinIn, Coefficient.ofSpin] at hne hle <;> linarith
    have hnext := ih hrest hassigned' (by linarith)
    rintro (_ | k) e he
    · cases he
      exact hhelper
    · rw [← Nat.add_assoc, Nat.add_right_comm]
      exact hnext k e he

/-- Where all pins are met, helpers add a constant. -/
theorem energy_pinWithHelpers (h : m.Indexed) (hmode : m.problem.mode = .ising)
    (hs : (m.pinWithHelpers strength).problem.MeetsPins s) :
    (m.pinWithHelpers strength).problem.energy s =
      m.problem.energy s + 2 * strength * m.problem.userPins.length := by
  have hpinned : ∀ e ∈ m.problem.userPins, s e.1 = some e.2 := fun e he =>
    hs _ _ ((helped_pinWithHelpers h strength).pinned _ _ (pinned_of_mem_userPins he))
  have hhelpers : ∀ k e, m.problem.userPins[k]? = some e →
      s (m.symbols.size + k) = some e.2 := by
    intro k e he
    refine hs _ _ ?_
    rw [get?_pinned_pinWithHelpers h.isOver, if_neg (by omega), Nat.add_sub_cancel_left, he]
    rfl
  have husers : ∀ e ∈ m.problem.userPins, ∃ spin, s e.1 = some spin :=
    fun e he => ⟨e.2, hpinned e he⟩
  have hbroken : broken m.problem.userPins s = [] :=
    List.filter_eq_nil_iff.mpr fun e he => by simp [hpinned e he]
  unfold pinWithHelpers
  rw [energy_foldl_addHelper hmode husers, helperEnergy_eq husers hhelpers, hbroken,
    List.length_nil, Nat.cast_zero, sub_zero]

end Energy

end SpinGlass.Model

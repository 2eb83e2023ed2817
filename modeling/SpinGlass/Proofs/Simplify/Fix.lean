import SpinGlass.Proofs.Simplify.Alias
import SpinGlass.Proofs.Simplify.Substitute

/-!
# Fixing variables

Fixing a variable puts its spin into the problem, retires its index and turns its names into known
values. With that spin given, the same assignments are feasible as before, and with the same energy.
-/

namespace SpinGlass

namespace Table

variable {α β : Type} [Ord α] [Std.TransOrd α] [Std.LawfulEqOrd α] [DecidableEq α]

/-- Storing one value under several keys. -/
theorem get?_foldl_insert (keys : List α) (b : β) (t : Table α β) (key : α) :
    (keys.foldl (·.insert · b) t).get? key = if key ∈ keys then some b else t.get? key := by
  induction keys generalizing t with
  | nil => simp
  | cons k rest ih =>
    rw [List.foldl_cons, ih, get?_insert]
    by_cases hrest : key ∈ rest
    · simp [hrest]
    · by_cases hk : key = k <;> simp [hrest, hk]

end Table

namespace Symbols

variable {s : Symbols} {i : Nat}

/-- A retirement asks nothing of an assignment. -/
theorem respects_link_retired (hi : s.IsRoot i) {spins : Assignment} :
    (s.link i .retired).Respects spins ↔ s.Respects spins := by
  constructor
  · intro h k target hk
    refine h k target ?_
    rw [pending_link, if_neg, hk]
    rintro rfl
    exact Option.some_ne_none _ (hk.symm.trans hi.2)
  · intro h k target hk
    rw [pending_link] at hk
    split at hk
    · cases hk
    · exact h k target hk

end Symbols

namespace Model

section Fix

variable {K : Type} {m m' : Model K} {i : Nat} {spin : Spin}

/-- What fixing a variable does to a model. -/
structure Fixed (m : Model K) (i : Nat) (spin : Spin) (m' : Model K) : Prop where
  wellLinked : m'.WellLinked
  size : m'.symbols.size = m.symbols.size
  root? : ∀ k, m'.symbols.root? k =
    (m.symbols.root? k).bind fun r => if r = i then none else some r
  isRoot : ∀ k, m'.symbols.IsRoot k ↔ m.symbols.IsRoot k ∧ k ≠ i
  respects : ∀ s : Assignment, m'.symbols.Respects s ↔ m.symbols.Respects s
  byName : ∀ name, m'.symbols.byName.get? name =
    if m.symbols.lookup? name = some i then none else m.symbols.byName.get? name
  knownValues : ∀ name, m'.problem.knownValues.get? name =
    if m.symbols.lookup? name = some i then some spin else m.problem.knownValues.get? name
  mode : m'.problem.mode = m.problem.mode
  chains : m'.problem.chains = m.problem.chains
  pinned : m'.problem.pinned = m.problem.pinned.erase i
  assertions : m'.problem.assertions = m.problem.assertions

/-- Once a variable has its spin, the constraints are those that were there before. -/
theorem Fixed.feasible_iff (h : m.Fixed i spin m')
    (hpin : ∀ pin, m.problem.pinned.get? i = some pin → pin = spin) {s : Assignment}
    (hs : s i = some spin) : m'.Feasible s ↔ m.Feasible s := by
  have hpins : m'.problem.MeetsPins s ↔ m.problem.MeetsPins s := by
    unfold Problem.MeetsPins
    rw [h.pinned]
    constructor
    · intro hmeets k pin hk
      by_cases hki : k = i
      · rw [hki, hs, hpin pin (hki ▸ hk)]
      · exact hmeets k pin (by rw [Table.get?_erase, if_neg hki, hk])
    · intro hmeets k pin hk
      rw [Table.get?_erase] at hk
      split at hk
      · cases hk
      · exact hmeets k pin hk
  have hchains : m'.problem.MeetsChains s ↔ m.problem.MeetsChains s := by
    unfold Problem.MeetsChains
    rw [h.chains]
  exact ⟨fun hf => ⟨(h.respects s).mp hf.respects, hpins.mp hf.pins, hchains.mp hf.chains⟩,
    fun hf => ⟨(h.respects s).mpr hf.respects, hpins.mpr hf.pins, hchains.mpr hf.chains⟩⟩

/-- The names of a fixed variable lead nowhere, and the others where they led. -/
theorem Fixed.lookup? (h : m.Fixed i spin m') (name : String) :
    m'.symbols.lookup? name =
      (m.symbols.lookup? name).bind fun r => if r = i then none else some r := by
  have hbyName := h.byName name
  unfold Symbols.lookup? at hbyName ⊢
  rw [hbyName]
  cases hname : m.symbols.byName.get? name with
  | none => simp
  | some index =>
    simp only [Option.bind_some]
    split
    · next heq => simp [heq]
    · exact h.root? index

variable [Coefficient K]

/-- Fixing a root puts its spin into the problem and links the root to nowhere. -/
theorem fix_eq_ok (h : m.fix i spin = .ok m') (hi : m.symbols.IsRoot i) :
    m' = ⟨{ m.problem.substitute i spin with
        knownValues := (m.symbols.namesOf i).foldl (·.insert · spin)
          (m.problem.substitute i spin).knownValues },
      { m.symbols.link i .retired with
        byName := m.symbols.byName.filter fun name _ =>
          !(m.symbols.namesOf i).contains name }⟩ := by
  unfold fix at h
  rw [Symbols.retire_eq_link hi] at h
  cases h
  rfl

/-- A root in no chain is fixed without a trace but in the names. -/
theorem fixed_of_ok (h : m.fix i spin = .ok m') (hm : m.WellLinked) (hi : m.symbols.IsRoot i)
    (hchain : m.problem.inChain i = false) : m.Fixed i spin m' := by
  obtain rfl := fix_eq_ok h hi
  obtain ⟨hmode, hchains, hpinned, hassertions, hknown⟩ :=
    Problem.substitute_constraints (i := i) hm.isOver spin
  have hover := hm.isOver.substitute hchain spin
  have hroots : ∀ k, (m.symbols.link i .retired).IsRoot k ↔ m.symbols.IsRoot k ∧ k ≠ i :=
    fun k => Symbols.isRoot_link
  refine ⟨⟨?_, ?_⟩, rfl, fun k => ?_, hroots,
    fun s => Symbols.respects_link_retired hi, fun name => ?_, fun name => ?_, hmode, hchains,
    hpinned, hassertions⟩
  · have hlinks : (m.symbols.link i .retired).LinksDown :=
      hm.links.link hi.1 fun target ht => by cases ht
    exact ⟨hlinks.lt_size, hlinks.target_lt⟩
  · have hover := hover.mono fun k hk => (hroots k).mpr hk
    exact ⟨hover.weights, hover.strengths, hover.chains, hover.pinned, hover.helpers⟩
  · have hsame : ∀ byName, ({ m.symbols.link i .retired with byName } : Symbols).root? k =
        (m.symbols.link i .retired).root? k := by
      intro byName
      apply Symbols.root?_congr
      rfl
    exact (hsame _).trans (hm.links.root?_retired hi k)
  · rw [Table.get?_filter]
    by_cases hname : m.symbols.lookup? name = some i
    · have hmem := Symbols.mem_namesOf.mpr hname
      cases m.symbols.byName.get? name <;> simp [hname, hmem]
    · have hmem := mt Symbols.mem_namesOf.mp hname
      cases m.symbols.byName.get? name <;> simp [hname, hmem]
  · simp only [Table.get?_foldl_insert, Symbols.mem_namesOf, hknown]

end Fix

/-- Fixing a variable keeps the energy where the variable has its spin. -/
theorem energy_fix {m m' : Model ℚ} {i : Nat} {spin : Spin} (h : m.fix i spin = .ok m')
    (hm : m.WellLinked) (hi : m.symbols.IsRoot i) {s : Assignment} (hs : s i = some spin) :
    m'.problem.energy s = m.problem.energy s := by
  obtain rfl := fix_eq_ok h hi
  have hmode := (Problem.substitute_constraints (i := i) hm.isOver spin).1
  rw [Problem.energy_eq_objective, Problem.energy_eq_objective]
  simp only [hmode]
  exact Problem.objective_substitute hm.isOver (Problem.value_of_eq_some _ hs)

end Model

end SpinGlass

import SpinGlass.Proofs.Simplify.Alias
import SpinGlass.Proofs.Symbols.Compaction
import SpinGlass.Proofs.Table.Renaming

/-!
# Renumbered problems

Ranks keep the order of roots, so a renumbering of a problem over roots loses no term and lets no
two of them meet. The renumbered problem says of the numbers what the old one said of the roots.
-/

namespace SpinGlass

namespace Problem

/-- A renumbering sends every root to its rank. -/
def Ranks (remap : Remap) (s : Symbols) : Prop := ∀ r, s.IsRoot r → remap.get? r = some (s.rank r)

section Renumber

variable {K : Type} {p : Problem K} {s : Symbols} {remap : Remap}

/-- The pair of the ranks. -/
def rankPair (s : Symbols) (q : Pair) : Pair := ⟨s.rank q.lo, s.rank q.hi⟩

theorem compare_rank {a b : Nat} (ha : s.IsRoot a) (h : compare a b = .lt) :
    compare (s.rank a) (s.rank b) = .lt := by
  rw [Nat.compare_eq_lt] at h ⊢
  exact (Symbols.rank_lt_rank_iff ha).mpr h

/-- Ranks keep the order of pairs. -/
theorem compare_rankPair {q q' : Pair} (hq : q.Joins s.IsRoot) (h : compare q q' = .lt) :
    compare (rankPair s q) (rankPair s q') = .lt := by
  rw [Pair.compare_eq_lt_iff] at h ⊢
  rcases h with hlo | ⟨hlo, hhi⟩
  · exact .inl ((Symbols.rank_lt_rank_iff hq.2.1).mpr hlo)
  · exact .inr ⟨by rw [rankPair, rankPair, hlo], (Symbols.rank_lt_rank_iff hq.2.2).mpr hhi⟩

variable (hremap : Ranks remap s)

include hremap

theorem renumber_pair {q : Pair} (hq : q.Joins s.IsRoot) :
    q.renumber remap = some (rankPair s q) := by
  have hlt := (Symbols.rank_lt_rank_iff hq.2.1).mpr hq.1
  simp [Pair.renumber, hremap _ hq.2.1, hremap _ hq.2.2, Pair.of_of_lt hlt, rankPair]

theorem get?_renumber_pinned (hp : p.Over s.IsRoot) {i : Nat} {spin : Spin} :
    (p.renumber remap).pinned.get? i = some spin ↔
      ∃ r, p.pinned.get? r = some spin ∧ s.rank r = i :=
  Table.get?_filterMapKeys (g := s.rank) (fun r spin hr => hremap r (hp.pinned r spin hr))
    fun a _ spin _ ha _ => compare_rank (hp.pinned a spin ha)

theorem get?_renumber_weights (hp : p.Over s.IsRoot) {i : Nat} {w : K} :
    (p.renumber remap).weights.get? i = some w ↔
      ∃ r, p.weights.get? r = some w ∧ s.rank r = i :=
  Table.get?_filterMapKeys (g := s.rank) (fun r w hr => hremap r (hp.weights r w hr))
    fun a _ w _ ha _ => compare_rank (hp.weights a w ha)

theorem get?_renumber_strengths (hp : p.Over s.IsRoot) {q : Pair} {j : K} :
    (p.renumber remap).strengths.get? q = some j ↔
      ∃ r, p.strengths.get? r = some j ∧ rankPair s r = q :=
  Table.get?_filterMapKeys (g := rankPair s)
    (fun r j hr => renumber_pair hremap (hp.strengths r j hr))
    fun a _ j _ ha _ => compare_rankPair (hp.strengths a j ha)

theorem contains_renumber_chains (hp : p.Over s.IsRoot) {q : Pair} :
    (p.renumber remap).chains.contains q = true ↔
      ∃ r, p.chains.contains r = true ∧ rankPair s r = q := by
  simp only [Table.contains_iff]
  have hget : ∀ u, (p.renumber remap).chains.get? q = some u ↔
      ∃ r, p.chains.get? r = some u ∧ rankPair s r = q := fun u =>
    Table.get?_filterMapKeys (g := rankPair s)
      (fun r u hr => renumber_pair hremap (hp.chains r (Table.contains_iff.mpr ⟨u, hr⟩)))
      fun a _ u _ ha _ => compare_rankPair (hp.chains a (Table.contains_iff.mpr ⟨u, ha⟩))
  simp only [hget]
  constructor
  · rintro ⟨u, r, hr, rfl⟩
    exact ⟨r, ⟨u, hr⟩, rfl⟩
  · rintro ⟨r, ⟨u, hr⟩, rfl⟩
    exact ⟨u, r, hr, rfl⟩

theorem get?_renumber_helpers (hp : p.Over s.IsRoot) {helper user : Nat} :
    (p.renumber remap).pinHelpers.get? helper = some user ↔
      ∃ a b, p.pinHelpers.get? a = some b ∧ s.rank a = helper ∧ s.rank b = user := by
  have hentries := Table.entries_ofList_filterMap (t := p.pinHelpers) (g := s.rank)
    (u := fun e => s.rank e.2) (f := fun e => do return (← remap.get? e.1, ← remap.get? e.2))
    (fun e he => ?_) fun x hx _ _ =>
      compare_rank (hp.helpers x.1 x.2 (Table.get?_eq_some_iff.mpr hx)).1
  · have hrenumbered : (p.renumber remap).pinHelpers.entries =
        p.pinHelpers.entries.map fun e => (s.rank e.1, s.rank e.2) := hentries
    rw [Table.get?_eq_some_iff, hrenumbered]
    simp only [List.mem_map, Prod.exists, Prod.mk.injEq, Table.get?_eq_some_iff]
  · obtain ⟨hhelper, huser⟩ := hp.helpers e.1 e.2 (Table.get?_eq_some_iff.mpr he)
    simp [hremap _ hhelper, hremap _ huser]

section Ranked

variable (hp : p.Over s.IsRoot) {i k : Nat} (hi : s.IsRoot i) (hk : s.IsRoot k)

include hp hi

/-- The number of a root has the linear term of the root. -/
theorem get?_weights_rank : (p.renumber remap).weights.get? (s.rank i) = p.weights.get? i := by
  apply Option.ext
  intro w
  rw [get?_renumber_weights hremap hp]
  constructor
  · rintro ⟨r, hr, heq⟩
    rwa [Symbols.eq_of_rank_eq (hp.weights r w hr) hi heq] at hr
  · exact fun h => ⟨i, h, rfl⟩

/-- The number of a root has the pin of the root. -/
theorem get?_pinned_rank : (p.renumber remap).pinned.get? (s.rank i) = p.pinned.get? i := by
  apply Option.ext
  intro spin
  rw [get?_renumber_pinned hremap hp]
  constructor
  · rintro ⟨r, hr, heq⟩
    rwa [Symbols.eq_of_rank_eq (hp.pinned r spin hr) hi heq] at hr
  · exact fun h => ⟨i, h, rfl⟩

include hk

/-- The numbers of two roots share the quadratic term of the roots. -/
theorem get?_strengths_rank : (p.renumber remap).strengths.get? (.of (s.rank i) (s.rank k)) =
    p.strengths.get? (.of i k) := by
  have hpair : ∀ a b, s.IsRoot a → s.IsRoot b →
      rankPair s (.of a b) = .of (s.rank a) (s.rank b) := by
    intro a b ha hb
    unfold rankPair Pair.of
    simp only [Symbols.rank_lt_rank_iff ha]
    split <;> rfl
  apply Option.ext
  intro j
  rw [get?_renumber_strengths hremap hp, ← hpair i k hi hk]
  constructor
  · rintro ⟨r, hr, heq⟩
    obtain ⟨_, hlo, hhi⟩ := hp.strengths r j hr
    obtain ⟨hlo', hhi'⟩ : s.IsRoot (Pair.of i k).lo ∧ s.IsRoot (Pair.of i k).hi := by
      unfold Pair.of
      split
      · exact ⟨hi, hk⟩
      · exact ⟨hk, hi⟩
    have hsame : r = .of i k := by
      rw [rankPair, rankPair, Pair.mk.injEq] at heq
      calc r = ⟨r.lo, r.hi⟩ := rfl
        _ = ⟨(Pair.of i k).lo, (Pair.of i k).hi⟩ := by
          rw [Symbols.eq_of_rank_eq hlo hlo' heq.1, Symbols.eq_of_rank_eq hhi hhi' heq.2]
    rwa [hsame] at hr
  · exact fun h => ⟨_, h, rfl⟩

/-- The number of a helper stands by the number of its user. -/
theorem get?_pinHelpers_rank : (p.renumber remap).pinHelpers.get? (s.rank i) = some (s.rank k) ↔
    p.pinHelpers.get? i = some k := by
  rw [get?_renumber_helpers hremap hp]
  constructor
  · rintro ⟨a, b, hab, hai, hbk⟩
    obtain ⟨ha, hb⟩ := hp.helpers a b hab
    rwa [Symbols.eq_of_rank_eq ha hi hai, Symbols.eq_of_rank_eq hb hk hbk] at hab
  · exact fun h => ⟨i, k, h, rfl, rfl⟩

end Ranked

/-- A renumbered problem is over the numbers of roots. -/
theorem Over.renumber (hp : p.Over s.IsRoot) :
    (p.renumber remap).Over (· < s.survivors.length) where
  weights i w hi := by
    obtain ⟨r, hr, rfl⟩ := (get?_renumber_weights hremap hp).mp hi
    exact Symbols.rank_lt_length (hp.weights r w hr)
  strengths q j hq := by
    obtain ⟨r, hr, rfl⟩ := (get?_renumber_strengths hremap hp).mp hq
    obtain ⟨hlt, hlo, hhi⟩ := hp.strengths r j hr
    exact ⟨(Symbols.rank_lt_rank_iff hlo).mpr hlt, Symbols.rank_lt_length hlo,
      Symbols.rank_lt_length hhi⟩
  chains q hq := by
    obtain ⟨r, hr, rfl⟩ := (contains_renumber_chains hremap hp).mp hq
    obtain ⟨hlt, hlo, hhi⟩ := hp.chains r hr
    exact ⟨(Symbols.rank_lt_rank_iff hlo).mpr hlt, Symbols.rank_lt_length hlo,
      Symbols.rank_lt_length hhi⟩
  pinned i spin hi := by
    obtain ⟨r, hr, rfl⟩ := (get?_renumber_pinned hremap hp).mp hi
    exact Symbols.rank_lt_length (hp.pinned r spin hr)
  helpers helper user h := by
    obtain ⟨a, b, hab, rfl, rfl⟩ := (get?_renumber_helpers hremap hp).mp h
    exact ⟨Symbols.rank_lt_length (hp.helpers a b hab).1,
      Symbols.rank_lt_length (hp.helpers a b hab).2⟩

/-- The pins ask of the numbers what they asked of the roots. -/
theorem meetsPins_renumber (hp : p.Over s.IsRoot) {old new : Assignment}
    (heq : ∀ r, s.IsRoot r → old r = new (s.rank r)) :
    (p.renumber remap).MeetsPins new ↔ p.MeetsPins old := by
  constructor
  · intro h r spin hr
    rw [heq r (hp.pinned r spin hr)]
    exact h _ spin ((get?_renumber_pinned hremap hp).mpr ⟨r, hr, rfl⟩)
  · intro h i spin hi
    obtain ⟨r, hr, rfl⟩ := (get?_renumber_pinned hremap hp).mp hi
    rw [← heq r (hp.pinned r spin hr)]
    exact h r spin hr

end Renumber

/-- The energy of the numbers is the energy of the roots. -/
theorem energy_renumber {p : Problem ℚ} {s : Symbols} {remap : Remap} (hremap : Ranks remap s)
    (hp : p.Over s.IsRoot) {old new : Assignment}
    (heq : ∀ r, s.IsRoot r → old r = new (s.rank r)) :
    (p.renumber remap).energy new = p.energy old := by
  have hvalue : ∀ r, s.IsRoot r → (value p.mode new (s.rank r) : ℚ) = value p.mode old r :=
    fun r hr => (value_congr _ (heq r hr)).symm
  have hweights : (p.renumber remap).weights.total (fun i w => w * value p.mode new i) =
      p.weights.total fun i w => w * value p.mode old i := by
    refine (Table.total_filterMapKeys (g := s.rank) (fun r w hr => hremap r (hp.weights r w hr))
      (fun a _ w _ ha _ => compare_rank (hp.weights a w ha)) _).trans
      (Table.total_congr fun r w hr => ?_)
    rw [hvalue r (hp.weights r w hr)]
  have hstrengths : (p.renumber remap).strengths.total
        (fun q j => j * value p.mode new q.lo * value p.mode new q.hi) =
      p.strengths.total fun q j => j * value p.mode old q.lo * value p.mode old q.hi := by
    refine (Table.total_filterMapKeys (g := rankPair s)
      (fun r j hr => renumber_pair hremap (hp.strengths r j hr))
      (fun a _ j _ ha _ => compare_rankPair (hp.strengths a j ha)) _).trans
      (Table.total_congr fun q j hq => ?_)
    obtain ⟨_, hlo, hhi⟩ := hp.strengths q j hq
    simp only [rankPair, hvalue _ hlo, hvalue _ hhi]
  rw [energy_eq_objective, energy_eq_objective]
  unfold objective
  rw [show (p.renumber remap).mode = p.mode from rfl, hweights, hstrengths]
  rfl

end Problem

end SpinGlass

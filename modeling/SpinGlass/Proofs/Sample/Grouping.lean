import SpinGlass.Proofs.Sample.Best

/-!
# Putting solutions together

Solutions that say the same have one key. Putting solutions together keeps the first of each key,
with the occurrences of all of them, and goes on with the solutions of the other keys. So every key
is reported once, no occurrence is lost and none is counted twice. Where the solutions stand in the
order of their energies, the first of a key has the least energy, and the order is kept.
-/

namespace SpinGlass.Solution

section Keys

variable {K : Type}

/-- What solutions are compared by. -/
def key (s : Solution K) : SolutionId × List String × List String :=
  (s.id, s.brokenChains, s.brokenPins)

/-- How often any of the solutions was found. -/
def found (solutions : List (Solution K)) : Nat := (solutions.map (·.occurrences)).sum

theorem found_cons (s : Solution K) (rest : List (Solution K)) :
    found (s :: rest) = s.occurrences + found rest := by
  simp [found]

/-- Solutions say the same exactly if they have one key. -/
theorem agrees_iff {s t : Solution K} : s.agrees t = true ↔ s.key = t.key := by
  simp [agrees, key, and_assoc]

/-- The solutions with a key. -/
def withKey (k : SolutionId × List String × List String) (solutions : List (Solution K)) :
    List (Solution K) :=
  solutions.filter fun s => s.key = k

/-- The solutions with another key. -/
def withoutKey (k : SolutionId × List String × List String) (solutions : List (Solution K)) :
    List (Solution K) :=
  solutions.filter fun s => s.key ≠ k

theorem mem_withoutKey {k : SolutionId × List String × List String} {s : Solution K}
    {solutions : List (Solution K)} : s ∈ withoutKey k solutions ↔ s ∈ solutions ∧ s.key ≠ k := by
  simp [withoutKey]

/-- Solutions of another key are not lost with those of one key. -/
theorem withKey_withoutKey {k l : SolutionId × List String × List String} (h : k ≠ l)
    (solutions : List (Solution K)) :
    withKey k (withoutKey l solutions) = withKey k solutions := by
  unfold withKey withoutKey
  rw [List.filter_filter]
  refine List.filter_congr fun s _ => ?_
  by_cases hs : s.key = k <;> simp [hs, h]

/-- Absorbing solutions adds those of the first key to the first, and goes on with the others. -/
theorem foldl_absorb_cons (t : Solution K) (done rest : List (Solution K)) :
    rest.foldl (fun done s => absorb s done) (t :: done) =
      { t with occurrences := t.occurrences + found (withKey t.key rest) } ::
        (withoutKey t.key rest).foldl (fun done s => absorb s done) done := by
  induction rest generalizing t done with
  | nil => rfl
  | cons s rest ih =>
    rw [List.foldl_cons, absorb]
    by_cases h : s.key = t.key
    · rw [if_pos (agrees_iff.mpr h.symm), ih]
      have hwith : withKey t.key (s :: rest) = s :: withKey t.key rest := by simp [withKey, h]
      have hwithout : withoutKey t.key (s :: rest) = withoutKey t.key rest := by
        simp [withoutKey, h]
      rw [hwith, hwithout, found_cons, ← Nat.add_assoc]
      rfl
    · rw [if_neg (mt agrees_iff.mp (Ne.symm h)), ih]
      have hwith : withKey t.key (s :: rest) = withKey t.key rest := by simp [withKey, h]
      have hwithout : withoutKey t.key (s :: rest) = s :: withoutKey t.key rest := by
        simp [withoutKey, h]
      rw [hwith, hwithout, List.foldl_cons]

/-- The first of some solutions is kept with the occurrences of all that say the same, and the
others are put together. -/
theorem distinct_cons (s : Solution K) (rest : List (Solution K)) : distinct (s :: rest) =
    { s with occurrences := s.occurrences + found (withKey s.key rest) } ::
      distinct (withoutKey s.key rest) :=
  foldl_absorb_cons s [] rest

/-- What putting together the solutions of the other keys keeps is kept by putting all together. -/
theorem distinct_induction {motive : List (Solution K) → List (Solution K) → Prop}
    (nil : motive [] [])
    (cons : ∀ s rest, motive (withoutKey s.key rest) (distinct (withoutKey s.key rest)) →
      motive (s :: rest) ({ s with occurrences := s.occurrences + found (withKey s.key rest) } ::
        distinct (withoutKey s.key rest)))
    (solutions : List (Solution K)) : motive solutions (distinct solutions) := by
  induction hlength : solutions.length using Nat.strongRecOn generalizing solutions with
  | ind n ih =>
    cases solutions with
    | nil => exact nil
    | cons s rest =>
      rw [distinct_cons]
      refine cons s rest (ih _ ?_ _ rfl)
      have hle : (withoutKey s.key rest).length ≤ rest.length := List.length_filter_le _ _
      rw [← hlength, List.length_cons]
      omega

end Keys

section Groups

variable {K : Type}

/-- Solutions that are put together by their keys: one for each key, read from one of those with
the key, with the occurrences of all of them. -/
structure Groups (solutions groups : List (Solution K)) : Prop where
  nodup : (groups.map key).Nodup
  complete : ∀ s ∈ solutions, ∃ g ∈ groups, g.key = s.key
  sampled : ∀ g ∈ groups, ∃ s ∈ solutions, g = { s with occurrences := g.occurrences }
  occurrences : ∀ g ∈ groups, g.occurrences = found (withKey g.key solutions)

/-- A group has the key of the solution that it is read from. -/
theorem Groups.exists_key {solutions groups : List (Solution K)} (h : Groups solutions groups)
    {g : Solution K} (hg : g ∈ groups) :
    ∃ s ∈ solutions, s.key = g.key ∧ s.energy = g.energy := by
  obtain ⟨s, hs, hgs⟩ := h.sampled g hg
  rw [hgs]
  exact ⟨s, hs, rfl, rfl⟩

/-- The groups of the solutions with another key have another key. -/
theorem Groups.key_ne {k : SolutionId × List String × List String}
    {solutions groups : List (Solution K)} (h : Groups (withoutKey k solutions) groups)
    {g : Solution K} (hg : g ∈ groups) : g.key ≠ k := by
  obtain ⟨s, hs, hkey, _⟩ := h.exists_key hg
  exact hkey ▸ (mem_withoutKey.mp hs).2

/-- Putting solutions together makes groups of them. -/
theorem groups_distinct (solutions : List (Solution K)) : Groups solutions (distinct solutions) := by
  refine distinct_induction (motive := Groups) ⟨by simp, by simp, by simp, by simp⟩
    (fun s rest ih => ?_) solutions
  refine ⟨?_, fun t ht => ?_, ?_, ?_⟩
  · rw [List.map_cons, List.nodup_cons]
    refine ⟨fun hmem => ?_, ih.nodup⟩
    obtain ⟨g, hg, hkey⟩ := List.mem_map.mp hmem
    exact ih.key_ne hg hkey
  · by_cases hkey : t.key = s.key
    · exact ⟨_, List.mem_cons_self, hkey.symm⟩
    · have ht : t ∈ withoutKey s.key rest := by
        rcases List.mem_cons.mp ht with rfl | ht
        · exact absurd rfl hkey
        · exact mem_withoutKey.mpr ⟨ht, hkey⟩
      obtain ⟨g, hg, hgkey⟩ := ih.complete t ht
      exact ⟨g, List.mem_cons_of_mem _ hg, hgkey⟩
  · refine List.forall_mem_cons.mpr ⟨⟨s, List.mem_cons_self, rfl⟩, fun g hg => ?_⟩
    obtain ⟨t, ht, hgt⟩ := ih.sampled g hg
    exact ⟨t, List.mem_cons_of_mem _ (mem_withoutKey.mp ht).1, hgt⟩
  · refine List.forall_mem_cons.mpr ⟨?_, fun g hg => ?_⟩
    · have hwith : withKey s.key (s :: rest) = s :: withKey s.key rest := by simp [withKey]
      exact ((congrArg found hwith).trans (found_cons s _)).symm
    · have hne := ih.key_ne hg
      have hwith : withKey g.key (s :: rest) = withKey g.key rest := by
        simp [withKey, Ne.symm hne]
      rw [hwith, ih.occurrences g hg, withKey_withoutKey hne]

end Groups

section Energies

variable {solutions solutions' groups groups' : List (Solution ℚ)}

end Energies

end SpinGlass.Solution

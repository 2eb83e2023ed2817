import SpinGlass.Proofs.Sample.SolutionId
import Mathlib.Tactic.Ring

/-!
# Numerals of solution numbers

Repeated division by a power of ten takes the digits off a solution number, nineteen at a time.
What is printed is the decimal numeral of the number that the bits spell, and solution numbers are
ordered as these numbers are.
-/

namespace SpinGlass.SolutionId

/-- The number that limbs hold, the least significant limb first. -/
def number (limbs : List UInt64) : Nat := Nat.ofDigits (2 ^ 64) (limbs.map UInt64.toNat)

@[simp] theorem number_nil : number [] = 0 := rfl

theorem number_cons (limb : UInt64) (rest : List UInt64) :
    number (limb :: rest) = limb.toNat + 2 ^ 64 * number rest := by
  simp [number, Nat.ofDigits_cons]

theorem number_append_singleton (rest : List UInt64) (limb : UInt64) :
    number (rest ++ [limb]) = number rest + (2 ^ 64) ^ rest.length * limb.toNat := by
  simp [number, Nat.ofDigits_append]

theorem number_lt (limbs : List UInt64) : number limbs < (2 ^ 64) ^ limbs.length := by
  have hlimb : ∀ x ∈ limbs.map UInt64.toNat, x < 2 ^ 64 := by
    intro x hx
    obtain ⟨limb, _, rfl⟩ := List.mem_map.mp hx
    exact limb.toNat_lt
  simpa [number] using Nat.ofDigits_lt_base_pow_length (by decide) hlimb

/-- The limbs of a solution number hold the number that the bits spell. -/
theorem number_ofBits (bits : List Bool) : number (ofBits bits).limbs = spelled bits := by
  rw [number, map_toNat_ofBits, Nat.ofDigits_digits]

/-- A solution number has no zero limb at the top. -/
theorem getLast?_limbs_ofBits (bits : List Bool) : (ofBits bits).limbs.getLast? ≠ some 0 := by
  intro hlast
  have hlast : (Nat.digits (2 ^ 64) (spelled bits)).getLast? = some 0 := by
    rw [← map_toNat_ofBits, List.getLast?_map, hlast]
    rfl
  have hmem := List.mem_of_getLast? hlast
  have hpos : spelled bits ≠ 0 := by
    intro hzero
    simp [hzero] at hmem
  have hne := Nat.getLast_digit_ne_zero (2 ^ 64) hpos
  rw [List.getLast?_eq_getLast_of_ne_nil (List.ne_nil_of_mem hmem), Option.some.injEq] at hlast
  exact hne hlast

section Division

variable {limbs : List UInt64}

theorem number_trim (limbs : List UInt64) : number (trim limbs) = number limbs := by
  induction limbs with
  | nil => rfl
  | cons limb rest ih =>
    unfold trim
    split
    · next hrest =>
      rw [hrest] at ih
      rw [number_cons, ← ih]
      split
      · next hzero => simp [hzero]
      · simp [number_cons]
    · next hrest => rw [number_cons, number_cons, ih]

/-- Of zero no limb is left. -/
theorem trim_eq_nil (h : number limbs = 0) : trim limbs = [] := by
  induction limbs with
  | nil => rfl
  | cons limb rest ih =>
    rw [number_cons] at h
    have hlimb : limb = 0 := UInt64.toNat_inj.mp (by simpa using (by omega : limb.toNat = 0))
    unfold trim
    rw [ih (by omega)]
    simp [hlimb]

theorem divideChunk_snd_lt (limbs : List UInt64) : (divideChunk limbs).2 < chunk := by
  cases limbs with
  | nil => decide
  | cons limb rest => exact Nat.mod_lt _ (by decide)

/-- The limbs of a division are those of the quotient, with the remainder beside them. What is
divided at each limb has the remainder above it, so that its quotient fits a limb. -/
theorem divideChunk_spec (limbs : List UInt64) :
    number (divideChunk limbs).1 = number limbs / chunk ∧
      (divideChunk limbs).2 = number limbs % chunk := by
  induction limbs with
  | nil => exact ⟨rfl, rfl⟩
  | cons limb rest ih =>
    obtain ⟨hquotient, hremainder⟩ := ih
    have hsplit : limb.toNat + 2 ^ 64 * number rest =
        (divideChunk rest).2 * UInt64.size + limb.toNat +
          chunk * (2 ^ 64 * (number rest / chunk)) := by
      have hsize : UInt64.size = 2 ^ 64 := rfl
      rw [hremainder, hsize]
      conv_lhs => rw [← Nat.div_add_mod (number rest) chunk]
      ring
    have hfits : ((divideChunk rest).2 * UInt64.size + limb.toNat) / chunk < UInt64.size :=
      (Nat.div_lt_iff_lt_mul (by decide)).mpr <|
        calc (divideChunk rest).2 * UInt64.size + limb.toNat
            < (divideChunk rest).2 * UInt64.size + UInt64.size :=
              Nat.add_lt_add_left limb.toNat_lt _
          _ = UInt64.size * ((divideChunk rest).2 + 1) := by ring
          _ ≤ UInt64.size * chunk := Nat.mul_le_mul_left _ (divideChunk_snd_lt rest)
    rw [number_cons, hsplit, Nat.add_mul_div_left _ _ (by decide), Nat.add_mul_mod_self_left]
    simp only [divideChunk, number_cons, hquotient, UInt64.toNat_ofNat_of_lt' hfits, and_self]

/-- What one division leaves to be divided. -/
def afterChunk (limbs : List UInt64) : List UInt64 := trim (divideChunk limbs).1

theorem number_afterChunk (limbs : List UInt64) :
    number (afterChunk limbs) = number limbs / chunk := by
  rw [afterChunk, number_trim, (divideChunk_spec limbs).1]

theorem number_afterChunk_lt {fuel : Nat} (h : number limbs < chunk ^ (fuel + 1)) :
    number (afterChunk limbs) < chunk ^ fuel := by
  rw [number_afterChunk]
  exact Nat.div_lt_of_lt_mul (by rwa [← Nat.pow_succ'])

/-- A division leaves no limb of zero. -/
theorem afterChunk_eq_nil (h : number (afterChunk limbs) = 0) : afterChunk limbs = [] :=
  trim_eq_nil (by rwa [← number_trim])

/-- Two divisions take more than a limb away. -/
theorem number_lt_chunk_pow (limbs : List UInt64) : number limbs < chunk ^ (2 * limbs.length) :=
  calc number limbs < (2 ^ 64) ^ limbs.length := number_lt limbs
    _ ≤ (chunk ^ 2) ^ limbs.length := Nat.pow_le_pow_left (by decide) _
    _ = chunk ^ (2 * limbs.length) := (Nat.pow_mul _ _ _).symm

/-- The divisions end. -/
theorem afterChunk_iterate_eq_nil {fuel : Nat} (hfuel : number limbs < chunk ^ fuel)
    (hempty : number limbs = 0 → limbs = []) : afterChunk^[fuel] limbs = [] := by
  induction fuel generalizing limbs with
  | zero => exact hempty (by simpa using hfuel)
  | succ fuel ih =>
    rw [Function.iterate_succ_apply]
    exact ih (number_afterChunk_lt hfuel) afterChunk_eq_nil

/-- The remainders are the digits of the number in base `chunk`. -/
theorem chunks_eq_digits {fuel : Nat} (hfuel : number limbs < chunk ^ fuel)
    (hempty : number limbs = 0 → limbs = []) :
    chunks fuel limbs = Nat.digits chunk (number limbs) := by
  induction fuel generalizing limbs with
  | zero =>
    have hzero : number limbs = 0 := by simpa using hfuel
    simp [chunks, hzero]
  | succ fuel ih =>
    cases limbs with
    | nil => simp [chunks]
    | cons limb rest =>
      obtain ⟨hquotient, hremainder⟩ := divideChunk_spec (limb :: rest)
      have hpos : 0 < number (limb :: rest) :=
        Nat.pos_of_ne_zero fun hzero => List.cons_ne_nil _ _ (hempty hzero)
      have hrest : chunks fuel (afterChunk (limb :: rest)) =
          Nat.digits chunk (number (limb :: rest) / chunk) := by
        rw [← number_afterChunk]
        exact ih (number_afterChunk_lt hfuel) afterChunk_eq_nil
      rw [Nat.digits_def' (by decide) hpos, ← hremainder, ← hrest]
      rfl

end Division

section Numeral

/-- Digits with as many zeros before them as fill `width` places. -/
def padded (width n : Nat) : List Char :=
  List.replicate (width - (Nat.toDigits 10 n).length) '0' ++ Nat.toDigits 10 n

/-- The lower digits of a number fill their places after the higher ones. -/
theorem toDigits_mul_pow_add {width n m : Nat} (hn : 0 < n) (hm : m < 10 ^ (width + 1)) :
    Nat.toDigits 10 (10 ^ (width + 1) * n + m) = Nat.toDigits 10 n ++ padded (width + 1) m := by
  induction width generalizing m with
  | zero =>
    have hm : m < 10 := by simpa using hm
    rw [Nat.zero_add, Nat.pow_one, ← Nat.toDigits_append_toDigits (by decide) hn hm]
    simp [padded, Nat.toDigits_of_lt_base hm]
  | succ width ih =>
    have hlast : m % 10 < 10 := Nat.mod_lt m (by decide)
    have hsplit : 10 ^ (width + 1 + 1) * n + m = 10 * (10 ^ (width + 1) * n + m / 10) + m % 10 := by
      rw [Nat.pow_succ 10 (width + 1), Nat.mul_comm _ 10, Nat.mul_assoc]
      omega
    have hhigh : m / 10 < 10 ^ (width + 1) := by
      rw [Nat.pow_succ'] at hm
      exact Nat.div_lt_of_lt_mul hm
    have hpos : 0 < 10 ^ (width + 1) * n + m / 10 :=
      Nat.add_pos_left (Nat.mul_pos (Nat.pow_pos (by decide)) hn) _
    rw [hsplit, ← Nat.toDigits_append_toDigits (by decide) hpos hlast, ih hhigh,
      List.append_assoc]
    congr 1
    -- a single digit has one zero fewer before it, a longer number one digit more
    rcases Nat.lt_or_ge m 10 with hsmall | hlarge
    · have hzero : m / 10 = 0 := Nat.div_eq_of_lt hsmall
      simp [padded, hzero, Nat.mod_eq_of_lt hsmall, Nat.toDigits_of_lt_base hsmall,
        ← List.replicate_succ']
    · have hdigits := Nat.toDigits_of_base_le (by decide) hlarge
      simp [padded, hdigits, Nat.toDigits_of_lt_base hlast]

theorem toString_chunk_mul_add {n m : Nat} (hn : 0 < n) (hm : m < chunk) :
    toString (chunk * n + m) = toString n ++ paddedText m := by
  have hchunk : chunk = 10 ^ (18 + 1) := by decide
  rw [hchunk] at hm ⊢
  rw [Nat.toString_eq_ofList_toDigits, Nat.toString_eq_ofList_toDigits,
    toDigits_mul_pow_add hn hm, String.ofList_append]
  rfl

/-- The first remainder and the others with all their digits make up the numeral. -/
theorem exists_text_digits {n : Nat} (hn : 0 < n) : ∃ first rest,
    (Nat.digits chunk n).reverse = first :: rest ∧
      toString first ++ String.join (rest.map paddedText) = toString n := by
  induction n using Nat.strong_induction_on with
  | _ n ih =>
    rcases Nat.lt_or_ge n chunk with hsmall | hlarge
    · refine ⟨n, [], ?_, by simp [String.join]⟩
      rw [Nat.digits_of_lt _ _ hn.ne' hsmall, List.reverse_singleton]
    · have hhigh : 0 < n / chunk := Nat.div_pos hlarge (by decide)
      obtain ⟨first, rest, hreverse, htext⟩ := ih (n / chunk) (Nat.div_lt_self hn (by decide)) hhigh
      refine ⟨first, rest ++ [n % chunk], ?_, ?_⟩
      · rw [Nat.digits_def' (by decide) hn, List.reverse_cons, hreverse, List.cons_append]
      · have hsplit := toString_chunk_mul_add hhigh (Nat.mod_lt n (by decide : 0 < chunk))
        rw [Nat.div_add_mod] at hsplit
        rw [hsplit, ← htext, List.map_append, String.join_append, String.append_assoc]
        simp [String.join]

/-- A solution number is printed as a numeral. -/
theorem text_eq_toString {id : SolutionId} (hempty : number id.limbs = 0 → id.limbs = []) :
    id.text = toString (number id.limbs) := by
  have hchunks := chunks_eq_digits (number_lt_chunk_pow id.limbs) hempty
  unfold text
  rw [hchunks]
  rcases Nat.eq_zero_or_pos (number id.limbs) with hzero | hpos
  · rw [hzero]
    rfl
  · obtain ⟨first, rest, hreverse, htext⟩ := exists_text_digits hpos
    rw [hreverse]
    exact htext

/-- Only the numeral of zero begins with a zero. -/
theorem head?_toDigits_eq_zero_iff {n : Nat} : (Nat.toDigits 10 n).head? = some '0' ↔ n = 0 := by
  induction n using Nat.strong_induction_on with
  | _ n ih =>
    rcases Nat.lt_or_ge n 10 with hsmall | hlarge
    · rw [Nat.toDigits_of_lt_base hsmall]
      clear ih
      decide +revert
    · have hhigh := ih (n / 10) (Nat.div_lt_self (by omega) (by decide))
      rw [Nat.toDigits_of_base_le (by decide) hlarge,
        List.head?_append_of_ne_nil _ Nat.toDigits_ne_nil, hhigh]
      omega

end Numeral

section Order

/-- Numbers are compared by what they have of a unit first, and then by the rest. -/
theorem compare_add_mul {unit low low' : Nat} (hlow : low < unit) (hlow' : low' < unit)
    (high high' : Nat) : Ord.compare (low + unit * high) (low' + unit * high') =
      (Ord.compare high high').then (Ord.compare low low') := by
  have hless : ∀ {x y : Nat}, x < y → unit * x + unit ≤ unit * y := fun h =>
    (Nat.mul_succ _ _).symm.trans_le (Nat.mul_le_mul_left unit h)
  rcases Nat.lt_trichotomy high high' with hlt | rfl | hgt
  · have hstep := hless hlt
    rw [Nat.compare_eq_lt.mpr hlt]
    exact Nat.compare_eq_lt.mpr (by omega)
  · rw [Nat.compare_eq_eq.mpr rfl]
    simp only [Nat.compare_eq_ite_lt, Nat.add_lt_add_iff_right]
    rfl
  · have hstep := hless hgt
    rw [Nat.compare_eq_gt.mpr hgt]
    exact Nat.compare_eq_gt.mpr (by omega)

/-- Equally many limbs are compared as the numbers that they hold, from the top. -/
theorem compare_reverse {as bs : List UInt64} (hlength : as.length = bs.length) :
    Ord.compare as.reverse bs.reverse = Ord.compare (number as) (number bs) := by
  induction as using List.reverseRecOn generalizing bs with
  | nil =>
    obtain rfl : bs = [] := List.length_eq_zero_iff.mp hlength.symm
    rfl
  | append_singleton as a ih =>
    rcases List.eq_nil_or_concat' bs with rfl | ⟨bs, b, rfl⟩
    · simp at hlength
    · have hlength : as.length = bs.length := by simpa using hlength
      have hcompare : Ord.compare (as ++ [a]).reverse (bs ++ [b]).reverse =
          (Ord.compare a b).then (Ord.compare as.reverse bs.reverse) := by
        simp [List.compare_eq_compareLex]
      rw [hcompare, ih hlength, number_append_singleton, number_append_singleton, hlength,
        compare_add_mul (hlength ▸ number_lt as) (number_lt bs),
        UInt64.compare_eq_toNat_compare_toNat]

/-- Solution numbers are ordered as the numbers that the bits spell. -/
theorem compare_ofBits (bits bits' : List Bool) :
    Ord.compare (ofBits bits) (ofBits bits') = Ord.compare (spelled bits) (spelled bits') := by
  have hlength : ∀ bits, (ofBits bits).limbs.length = (Nat.digits (2 ^ 64) (spelled bits)).length :=
    fun bits => by rw [← map_toNat_ofBits, List.length_map]
  -- more digits make the larger number
  have hless : ∀ {bits bits'}, (ofBits bits).limbs.length < (ofBits bits').limbs.length →
      spelled bits < spelled bits' := by
    intro bits bits' h
    rw [hlength, hlength, Nat.lt_digits_length_iff (by decide)] at h
    exact (Nat.lt_base_pow_length_digits (by decide)).trans_le h
  have hcompare : Ord.compare (ofBits bits) (ofBits bits') =
      (Ord.compare (ofBits bits).limbs.length (ofBits bits').limbs.length).then
        (Ord.compare (ofBits bits).limbs.reverse (ofBits bits').limbs.reverse) := rfl
  rw [hcompare]
  rcases Nat.lt_trichotomy (ofBits bits).limbs.length (ofBits bits').limbs.length
    with hlt | heq | hgt
  · rw [Nat.compare_eq_lt.mpr hlt, Nat.compare_eq_lt.mpr (hless hlt)]
    rfl
  · rw [Nat.compare_eq_eq.mpr heq, compare_reverse heq, number_ofBits, number_ofBits]
    rfl
  · rw [Nat.compare_eq_gt.mpr hgt, Nat.compare_eq_gt.mpr (hless hgt)]
    rfl

end Order

/-- The limbs of a solution number are the digits, in base `2 ^ 64`, of the number that the bits
spell, and the last one is not zero. Its divisions end, and leave the decimal numeral of the number,
which only begins with a zero if it is zero. Solution numbers are equal and ordered as the numbers
are. -/
theorem spells_ofBits (bits bits' : List Bool) :
    (ofBits bits).limbs.map UInt64.toNat = Nat.digits (2 ^ 64) (spelled bits) ∧
    (ofBits bits).limbs.getLast? ≠ some 0 ∧
    afterChunk^[2 * (ofBits bits).limbs.length] (ofBits bits).limbs = [] ∧
    (ofBits bits).text = toString (spelled bits) ∧
    ((ofBits bits).text.toList.head? = some '0' ↔ spelled bits = 0) ∧
    (ofBits bits = ofBits bits' ↔ spelled bits = spelled bits') ∧
    Ord.compare (ofBits bits) (ofBits bits') = Ord.compare (spelled bits) (spelled bits') := by
  have hdigits := map_toNat_ofBits bits
  have hempty : number (ofBits bits).limbs = 0 → (ofBits bits).limbs = [] := by
    intro hzero
    rw [number_ofBits] at hzero
    simpa [hzero] using hdigits
  have htext := (text_eq_toString hempty).trans (congrArg toString (number_ofBits bits))
  refine ⟨hdigits, getLast?_limbs_ofBits bits,
    afterChunk_iterate_eq_nil (number_lt_chunk_pow _) hempty, htext, ?_, ofBits_eq_iff,
    compare_ofBits bits bits'⟩
  rw [htext, Nat.toString_eq_ofList_toDigits, String.toList_ofList]
  exact head?_toDigits_eq_zero_iff

end SpinGlass.SolutionId

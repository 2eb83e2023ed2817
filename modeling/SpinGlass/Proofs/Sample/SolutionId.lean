import SpinGlass.Sample.SolutionId
import Mathlib.Data.Nat.Digits.Lemmas

/-!
# Solution numbers as natural numbers

The limbs of a solution number are the digits, in base `2 ^ 64`, of the natural number that the bits
spell. Leading zeros leave no trace in it, so bits can be told from their number if their number of
bits is known.
-/

namespace SpinGlass.SolutionId

/-- The number that bits spell, the most significant bit first. -/
def spelled (bits : List Bool) : Nat := bits.foldl (fun n b => 2 * n + b.toNat) 0

theorem spelled_append_singleton (bits : List Bool) (b : Bool) :
    spelled (bits ++ [b]) = 2 * spelled bits + b.toNat := by
  simp [spelled, List.foldl_append]

/-- The bits are the binary digits of the number. -/
theorem spelled_eq_ofDigits (bits : List Bool) :
    spelled bits = Nat.ofDigits 2 (bits.reverse.map Bool.toNat) := by
  induction bits using List.reverseRecOn with
  | nil => rfl
  | append_singleton bits b ih =>
    rw [spelled_append_singleton, ih, List.reverse_append, List.reverse_singleton,
      List.singleton_append, List.map_cons, Nat.ofDigits_cons]
    simp [Nat.add_comm]

/-- Equally many bits are told apart by the number that they spell. -/
theorem spelled_inj {bits bits' : List Bool} (hlength : bits.length = bits'.length) :
    spelled bits = spelled bits' ↔ bits = bits' := by
  refine ⟨fun h => ?_, fun h => h ▸ rfl⟩
  rw [spelled_eq_ofDigits, spelled_eq_ofDigits] at h
  have hdigits : ∀ bits : List Bool, ∀ n ∈ bits.reverse.map Bool.toNat, n < 2 := by
    intro bits n hn
    obtain ⟨b, _, rfl⟩ := List.mem_map.mp hn
    exact b.toNat_lt
  have hbit : Function.Injective Bool.toNat := by decide
  have hmap := Nat.ofDigits_inj_of_len_eq (by decide) (by simpa using hlength) (hdigits bits)
    (hdigits bits') h
  exact List.reverse_injective (List.map_injective_iff.mpr hbit hmap)

section Limbs

/-- The lower 64 bits of a limb that is doubled. -/
theorem toNat_shiftLeft_or {limb carry : UInt64} (hcarry : carry.toNat ≤ 1) :
    (limb <<< 1 ||| carry).toNat = (2 * limb.toNat + carry.toNat) % 2 ^ 64 := by
  have hlow : limb.toNat <<< 1 % 2 ^ 64 = (limb.toNat % 2 ^ 63) <<< 1 := by
    simp only [Nat.shiftLeft_eq]
    omega
  have hor := Nat.shiftLeft_add_eq_or_of_lt (show carry.toNat < 2 ^ 1 by omega)
    (limb.toNat % 2 ^ 63)
  rw [UInt64.toNat_or, UInt64.toNat_shiftLeft]
  simp only [UInt64.toNat_one, Nat.one_mod]
  rw [hlow, ← hor, Nat.shiftLeft_eq]
  omega

/-- The bit that a limb loses when it is doubled. -/
theorem toNat_shiftRight (limb : UInt64) : (limb >>> 63).toNat = limb.toNat / 2 ^ 63 := by
  rw [UInt64.toNat_shiftRight]
  exact Nat.shiftRight_eq_div_pow _ _

/-- Doubling a number and adding a bit does so to the number that the limbs are the digits of. -/
theorem map_toNat_shiftIn {carry : UInt64} {limbs : List UInt64} {n : Nat}
    (hcarry : carry.toNat ≤ 1) (h : limbs.map UInt64.toNat = Nat.digits (2 ^ 64) n) :
    (shiftIn carry limbs).map UInt64.toNat = Nat.digits (2 ^ 64) (2 * n + carry.toNat) := by
  induction limbs generalizing carry n with
  | nil =>
    obtain rfl : n = 0 := Nat.digits_eq_nil_iff_eq_zero.mp h.symm
    unfold shiftIn
    split
    · next hzero => simp [hzero]
    · next hne =>
      have hpos : carry.toNat ≠ 0 := fun h0 => hne (UInt64.toNat_inj.mp h0)
      have hsmall : carry.toNat < 2 ^ 64 := carry.toNat_lt
      simpa using (Nat.digits_of_lt _ _ hpos hsmall).symm
  | cons limb rest ih =>
    have hn : 0 < n := by
      refine Nat.pos_of_ne_zero fun h0 => ?_
      simp [h0] at h
    rw [Nat.digits_def' (by decide) hn, List.map_cons, List.cons.injEq] at h
    obtain ⟨hlimb, hrest⟩ := h
    have hlt : limb.toNat < 2 ^ 64 := limb.toNat_lt
    -- the bit that is carried is what twice the lowest limb has above 64 bits
    have hup : (limb >>> 63).toNat ≤ 1 := by
      rw [toNat_shiftRight]
      omega
    have hlow : (2 * limb.toNat + carry.toNat) % 2 ^ 64 = (2 * n + carry.toNat) % 2 ^ 64 := by
      omega
    have hhigh : 2 * (n / 2 ^ 64) + (limb >>> 63).toNat = (2 * n + carry.toNat) / 2 ^ 64 := by
      rw [toNat_shiftRight]
      omega
    rw [shiftIn, List.map_cons, ih hup hrest, toNat_shiftLeft_or hcarry, hlow, hhigh,
      ← Nat.digits_def' (by decide) (by omega)]

/-- The limbs of a solution number are the digits of the number that the bits spell. -/
theorem map_toNat_ofBits (bits : List Bool) :
    (ofBits bits).limbs.map UInt64.toNat = Nat.digits (2 ^ 64) (spelled bits) := by
  induction bits using List.reverseRecOn with
  | nil => rfl
  | append_singleton bits b ih =>
    have hshift : (ofBits (bits ++ [b])).limbs =
        shiftIn (if b then 1 else 0) (ofBits bits).limbs := by
      simp [ofBits, List.foldl_append]
    have hbit : (if b then (1 : UInt64) else 0).toNat = b.toNat := by
      cases b <;> rfl
    have hcarry : (if b then (1 : UInt64) else 0).toNat ≤ 1 := hbit ▸ Nat.lt_succ_iff.mp b.toNat_lt
    rw [hshift, map_toNat_shiftIn hcarry ih, hbit, spelled_append_singleton]

end Limbs

/-- Bits have one solution number exactly if they spell one number. -/
theorem ofBits_eq_iff {bits bits' : List Bool} :
    ofBits bits = ofBits bits' ↔ spelled bits = spelled bits' := by
  have hinj := List.map_injective_iff.mpr fun (x y : UInt64) => UInt64.toNat_inj.mp
  have hlimbs : ofBits bits = ofBits bits' ↔ (ofBits bits).limbs = (ofBits bits').limbs := by
    simp [ofBits]
  rw [hlimbs, ← hinj.eq_iff, map_toNat_ofBits, map_toNat_ofBits]
  exact Nat.digits_inj_iff

/-- Equally many bits are told apart by their solution number. -/
theorem ofBits_inj {bits bits' : List Bool} (hlength : bits.length = bits'.length) :
    ofBits bits = ofBits bits' ↔ bits = bits' :=
  ofBits_eq_iff.trans (spelled_inj hlength)

end SpinGlass.SolutionId

import SpinGlass.Text.IdentifierRanges

/-!
# Blanks and identifier characters

Which characters separate tokens, and which make up an identifier.
-/

namespace SpinGlass.Text

/-- Whether a character lies in one of the ranges. -/
def inRanges (ranges : List (Nat × Nat)) (c : Char) : Bool :=
  ranges.any fun r => r.1 ≤ c.toNat && c.toNat ≤ r.2

/-- Characters that separate tokens: the Unicode property `White_Space` and the marks for the
direction of writing. -/
def isBlank (c : Char) : Bool :=
  let n := c.toNat
  n == 0x20 || (0x09 ≤ n && n ≤ 0x0D) || n == 0x85 || n == 0xA0 || n == 0x1680 ||
    (0x2000 ≤ n && n ≤ 0x200A) || n == 0x200E || n == 0x200F || n == 0x2028 || n == 0x2029 ||
    n == 0x202F || n == 0x205F || n == 0x3000

/-- Characters that may start an identifier. -/
def isIdentStart (c : Char) : Bool :=
  if c.toNat < 128 then c.isAlpha || c == '_' else inRanges startRanges c

/-- Characters that may continue an identifier. -/
def isIdentContinue (c : Char) : Bool :=
  if c.toNat < 128 then c.isAlphanum || c == '_'
  else inRanges startRanges c || inRanges continueRanges c

/-- Whether a list of characters is an identifier. -/
def isIdent : List Char → Bool
  | [] => false
  | c :: rest => isIdentStart c && rest.all isIdentContinue

theorem isIdentContinue_of_isIdentStart {c : Char} (h : isIdentStart c = true) :
    isIdentContinue c = true := by
  unfold isIdentStart at h
  unfold isIdentContinue
  split
  · next hc =>
    rw [if_pos hc] at h
    rcases Bool.or_eq_true_iff.1 h with h | h
    · simp [Char.isAlphanum, h]
    · simp [h]
  · next hc =>
    rw [if_neg hc] at h
    simp [h]

end SpinGlass.Text

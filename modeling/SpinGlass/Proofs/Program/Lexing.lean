import SpinGlass.Program.Lexer
import Mathlib.Data.List.Basic
import Mathlib.Data.List.TakeDrop
import Mathlib.Tactic.Common

/-!
# Reading tokens off a text

What the lexer does with a text that starts with a word, a number, a punctuation character or a
parenthesis, given what stands behind it. `Lexes` says that a text has certain lexemes, and
`Reads` that a piece of text is a list of tokens wherever it stands in front of a blank, a
semicolon or a closing parenthesis.
-/

namespace SpinGlass.Lexer

open SpinGlass.Text (isBlank isIdentStart isIdentContinue isIdent isIdentContinue_of_isIdentStart)

/-- The text goes on with one of the characters. -/
def StartsIn (chars : List Char) (cs : List Char) : Prop := ∃ c tail, cs = c :: tail ∧ c ∈ chars

section Characters

variable {c d : Char} {cs xs rest : List Char} {p : Char → Bool}

/-- A fact on the characters of a list is decided along the list; to try all characters there are
would take too long. -/
theorem forall_mem_of_all {P : Char → Prop} [DecidablePred P]
    (h : xs.all (fun x => decide (P x)) = true) : ∀ x ∈ xs, P x := by
  simpa using h

/-- Characters that tell a quoted literal from a word. -/
def quoteMarks : List Char := ['"', '\'', '#']

/-- The characters that are no part of a word: punctuation, brackets, quotes and the blank. -/
def separators : List Char := punctuation ++ "()[]\x7b\x7d\" ".toList

/-- What is not blank, begins no comment and is no byte order mark. -/
def Visible (c : Char) : Prop := isBlank c = false ∧ c ≠ '/' ∧ c ≠ '\uFEFF'

instance : Decidable (Visible c) := inferInstanceAs (Decidable (_ ∧ _))

/-- The code points of the blanks. -/
def blankPoints : List Nat :=
  [0x20, 0x09, 0x0A, 0x0B, 0x0C, 0x0D, 0x85, 0xA0, 0x1680, 0x2000, 0x2001, 0x2002, 0x2003, 0x2004,
    0x2005, 0x2006, 0x2007, 0x2008, 0x2009, 0x200A, 0x200E, 0x200F, 0x2028, 0x2029, 0x202F, 0x205F,
    0x3000]

theorem toNat_mem_blankPoints (h : isBlank c = true) : c.toNat ∈ blankPoints := by
  simp only [isBlank, Bool.or_eq_true, Bool.and_eq_true, beq_iff_eq, decide_eq_true_eq] at h
  simp only [blankPoints, List.mem_cons, List.not_mem_nil, or_false]
  omega

theorem isIdentContinue_blankPoints :
    ∀ n ∈ blankPoints, isIdentContinue (Char.ofNat n) = false := by decide +kernel

theorem not_mem_separators (h : isIdentContinue c = true) : c ∉ separators := by
  have hall : ∀ d ∈ separators, isIdentContinue d = false := forall_mem_of_all (by decide)
  intro hmem
  rw [hall c hmem] at h
  cases h

/-- A character of a word is visible. -/
theorem visible_of_isIdentContinue (h : isIdentContinue c = true) : Visible c := by
  refine ⟨?_, ?_, ?_⟩
  · by_contra hblank
    have hpoint := isIdentContinue_blankPoints _ (toNat_mem_blankPoints (by simpa using hblank))
    rw [Char.ofNat_toNat, h] at hpoint
    cases hpoint
  · rintro rfl
    exact not_mem_separators h (by decide)
  · rintro rfl
    revert h
    decide +kernel

/-- The decimal digits. -/
def decimalDigits : List Char := ['0', '1', '2', '3', '4', '5', '6', '7', '8', '9']

theorem mem_of_isDigit (h : c.isDigit = true) : c ∈ decimalDigits := by
  have hall : ∀ n < 58, (Char.ofNat n).isDigit = true → Char.ofNat n ∈ decimalDigits := by
    decide
  have hlt : c.toNat ≤ 57 := (Char.isDigit_iff_toNat.mp h).2
  have hmem := hall c.toNat (by omega)
  rw [Char.ofNat_toNat] at hmem
  exact hmem h

theorem isIdentContinue_of_isDigit (h : c.isDigit = true) : isIdentContinue c = true := by
  have hall : ∀ d ∈ decimalDigits, isIdentContinue d = true := forall_mem_of_all (by decide)
  exact hall c (mem_of_isDigit h)

theorem isDigit_eq_false_of_isIdentStart (h : isIdentStart c = true) : c.isDigit = false := by
  have hall : ∀ d ∈ decimalDigits, isIdentStart d = false := forall_mem_of_all (by decide)
  by_contra hdigit
  rw [hall c (mem_of_isDigit (by simpa using hdigit))] at h
  cases h

theorem span_append (hxs : ∀ x ∈ xs, p x = true)
    (hrest : ∀ c tail, rest = c :: tail → p c = false) : (xs ++ rest).span p = (xs, rest) := by
  rw [List.span_eq_takeWhile_dropWhile, List.takeWhile_append_of_pos hxs,
    List.dropWhile_append_of_pos hxs]
  cases rest with
  | nil => simp
  | cons c tail => simp [hrest c tail rfl]

end Characters

section Scanning

variable {c d : Char} {cs tail word whole fraction rest : List Char}

theorem scanDoc?_of_ne (hslash : c ≠ '/' ∨ ∃ d after, tail = d :: after ∧ d ≠ '/' ∧ d ≠ '*') :
    scanDoc? (c :: tail) = none := by
  rcases hslash with hne | ⟨d, after, rfl, hd, hd'⟩
  · simp [scanDoc?, hne]
  · simp [scanDoc?, hd, hd']

theorem errorLiteral_eq : errorLiteral = '(' :: '/' :: "*ERROR*/)".toList := by decide

theorem scanErrorLiteral?_of_ne (h : c ≠ '(' ∨ ∃ d after, tail = d :: after ∧ d ≠ '/') :
    scanErrorLiteral? (c :: tail) = none := by
  have hfree : errorLiteral.isPrefixOf (c :: tail) = false := by
    rw [errorLiteral_eq]
    rcases h with hne | ⟨d, after, rfl, hd⟩
    · simp [List.isPrefixOf, Ne.symm hne]
    · simp [List.isPrefixOf, Ne.symm hd]
  rw [scanErrorLiteral?, hfree, if_neg Bool.false_ne_true]

/-- The brackets. -/
def brackets : List Char := "()[]\x7b\x7d".toList

theorem scanBracket?_of_not_mem (h : c ∉ brackets) : scanBracket? (c :: tail) = none := by
  unfold scanBracket?
  split <;> simp_all [brackets]

/-- Where no documentation, no bracket and no literal without a value can stand, the next lexeme is
a token that is no group. -/
theorem scanNext?_eq (hslash : c ≠ '/' ∨ ∃ d after, tail = d :: after ∧ d ≠ '/' ∧ d ≠ '*')
    (hbracket : c ∉ brackets) {t : Token} (hleaf : scanLeaf? (c :: tail) = some (t, rest)) :
    scanNext? (c :: tail) = some ([.leaf t], rest) := by
  have hne : c ≠ '(' := by
    rintro rfl
    exact hbracket (by decide)
  simp only [scanNext?, scanDoc?_of_ne hslash, scanErrorLiteral?_of_ne (.inl hne),
    scanBracket?_of_not_mem hbracket, hleaf, Option.map_none, Option.none_or, Option.map_some]

/-! ### Words -/

/-- The text does not continue a quoted literal that starts with a letter. -/
def NoQuote (tail : List Char) : Prop :=
  ∃ d after, tail = d :: after ∧ d ∉ quoteMarks ∧
    (d = 'r' → ∃ e after', after = e :: after' ∧ e ∉ quoteMarks)

theorem skipRaw?_of_not_mem {kind : Quoted} (h : d ∉ quoteMarks) :
    skipRaw? kind (d :: tail) = none := by
  have hmark : (d == '#') = false := by
    rw [beq_eq_false_iff_ne]
    rintro rfl
    exact h (by decide)
  rw [skipRaw?, List.span_eq_takeWhile_dropWhile]
  simp only [List.takeWhile_cons, List.dropWhile_cons, hmark, Bool.false_eq_true, if_false]
  split
  · next heq =>
    cases heq
    exact absurd (by decide) h
  · rfl

theorem skipQuoted?_of_noQuote (hc : c ∉ quoteMarks) (h : NoQuote tail) :
    skipQuoted? (c :: tail) = none := by
  obtain ⟨d, after, rfl, hd, hraw⟩ := h
  unfold skipQuoted?
  split
  · next heq => cases heq; exact absurd (by decide) hc
  · next heq => cases heq; exact skipRaw?_of_not_mem hd
  · next heq => cases heq; exact absurd (by decide) hd
  · next heq =>
    cases heq
    obtain ⟨e, after', rfl, he⟩ := hraw rfl
    exact skipRaw?_of_not_mem he
  · next heq => cases heq; exact absurd (by decide) hd
  · next heq =>
    cases heq
    obtain ⟨e, after', rfl, he⟩ := hraw rfl
    exact skipRaw?_of_not_mem he
  · next heq => cases heq; exact absurd (by decide) hd
  · next heq => cases heq; exact absurd (by decide) hc
  · rfl

theorem quoteStarts_of_noQuote (h : NoQuote tail) :
    (quoteStarts.any fun start => start.toList.isPrefixOf (c :: tail)) = false := by
  have hmarks {x : Char} (hx : x ∉ quoteMarks) : '"' ≠ x ∧ '\'' ≠ x ∧ '#' ≠ x := by
    simp only [quoteMarks, List.mem_cons, List.not_mem_nil, or_false, not_or] at hx
    exact ⟨Ne.symm hx.1, Ne.symm hx.2.1, Ne.symm hx.2.2⟩
  obtain ⟨d, after, rfl, hd, hraw⟩ := h
  obtain ⟨hd₁, hd₂, hd₃⟩ := hmarks hd
  by_cases hr : d = 'r'
  · obtain ⟨e, after', rfl, he⟩ := hraw hr
    obtain ⟨he₁, -, he₃⟩ := hmarks he
    simp [quoteStarts, List.isPrefixOf, hd₁, hd₂, hd₃, he₁, he₃]
  · simp [quoteStarts, List.isPrefixOf, hd₁, hd₂, hd₃, Ne.symm hr]

/-- What may stand behind a word. -/
def wordEnds : List Char := [' ', ';', ')', '.']

theorem noQuote_append (hword : ∀ x ∈ word, isIdentContinue x = true)
    (hrest : StartsIn wordEnds rest) : NoQuote (word ++ rest) := by
  have hends : ∀ x ∈ wordEnds, x ∉ quoteMarks ∧ x ≠ 'r' := forall_mem_of_all (by decide)
  have hmarks : ∀ x ∈ quoteMarks, x ∈ separators := forall_mem_of_all (by decide)
  have hfree {x : Char} (hx : isIdentContinue x = true) : x ∉ quoteMarks := fun hmem =>
    not_mem_separators hx (hmarks x hmem)
  obtain ⟨t, after, rfl, ht⟩ := hrest
  rcases word with _ | ⟨d, _ | ⟨e, word⟩⟩
  · exact ⟨t, after, rfl, (hends t ht).1, fun hr => absurd hr (hends t ht).2⟩
  · exact ⟨d, _, rfl, hfree (hword d (by simp)), fun _ => ⟨t, after, rfl, (hends t ht).1⟩⟩
  · exact ⟨d, _, rfl, hfree (hword d (by simp)), fun _ => ⟨e, _, rfl, hfree (hword e (by simp))⟩⟩

theorem scanNumber?_of_not_digit (h : c.isDigit = false) : scanNumber? (c :: tail) = none := by
  have hdecimal : scanDecimal? (c :: tail) = none := by simp [scanDecimal?, h]
  have hinteger : scanInteger? (c :: tail) = none := by
    have hzero : c ≠ '0' := by
      rintro rfl
      cases h
    have hbase : scanBase? 10 (c :: tail) = none := by
      rw [scanBase?, List.span_eq_takeWhile_dropWhile, List.takeWhile_cons]
      by_cases hunder : c = '_'
      · simp [hunder, isDigitOrUnderscore]
      · simp [hunder, isDigitOrUnderscore, h]
    unfold scanInteger?
    split
    · next heq => cases heq; exact absurd rfl hzero
    · next heq => cases heq; exact absurd rfl hzero
    · next heq => cases heq; exact absurd rfl hzero
    · exact hbase
  rw [scanNumber?, hdecimal, hinteger]
  rfl

theorem startsPunct_of_not_mem (h : c ∉ punctuation) : startsPunct (c :: tail) = false := by
  unfold startsPunct
  split
  · rfl
  · rfl
  · next heq =>
    cases heq
    simpa using h
  · rfl

theorem exists_cons_of_isIdent (h : isIdent word = true) :
    ∃ c tail, word = c :: tail ∧ isIdentContinue c = true := by
  cases word with
  | nil => cases h
  | cons c tail =>
    rw [isIdent, Bool.and_eq_true] at h
    exact ⟨c, tail, rfl, isIdentContinue_of_isIdentStart h.1⟩

/-- A word in front of something that ends it is one token. -/
theorem scanNext?_word (hword : isIdent word = true) (hrest : StartsIn wordEnds rest) :
    scanNext? (word ++ rest) = some ([.leaf (.ident (String.ofList word))], rest) := by
  obtain ⟨c, tail, rfl, hc⟩ := exists_cons_of_isIdent hword
  simp only [isIdent, Bool.and_eq_true, List.all_eq_true] at hword
  obtain ⟨hstart, htail⟩ := hword
  have hfree : c ∉ separators := not_mem_separators hc
  have hnone {l : List Char} (hl : ∀ x ∈ l, x ∈ separators) : c ∉ l := fun hmem =>
    hfree (hl c hmem)
  have hnoQuote := noQuote_append htail hrest
  have hspan : spanIdent? (c :: (tail ++ rest)) = some (c :: tail, rest) := by
    have hend : ∀ x after, rest = x :: after → isIdentContinue x = false := by
      have hends : ∀ x ∈ wordEnds, isIdentContinue x = false := forall_mem_of_all (by decide)
      obtain ⟨t, after, rfl, ht⟩ := hrest
      rintro x after' heq
      cases heq
      exact hends t ht
    simp only [spanIdent?, hstart, if_true, span_append htail hend]
  have hscan : scanIdent? (c :: (tail ++ rest)) = some (String.ofList (c :: tail), rest) := by
    unfold scanIdent?
    split
    · next heq =>
      obtain ⟨d, after, htail', hd, -⟩ := hnoQuote
      rw [htail'] at heq
      cases heq
      exact absurd (by decide) hd
    · rw [hspan]
      rfl
  have hliteral : scanLiteral? (c :: (tail ++ rest)) = none := by
    rw [scanLiteral?, skipQuoted?_of_noQuote (hnone (forall_mem_of_all (by decide))) hnoQuote,
      scanNumber?_of_not_digit (isDigit_eq_false_of_isIdentStart hstart)]
    rfl
  have hpunct : scanPunct? (c :: (tail ++ rest)) = none := by
    have hstarts : startsPunct (c :: (tail ++ rest)) = false :=
      startsPunct_of_not_mem (hnone (forall_mem_of_all (by decide)))
    simp only [scanPunct?, hstarts, Bool.not_false, if_true]
  rw [List.cons_append]
  refine scanNext?_eq (.inl ?_) (hnone (forall_mem_of_all (by decide))) ?_
  · rintro rfl
    exact hfree (by decide)
  · rw [scanLeaf?, hliteral, hpunct, quoteStarts_of_noQuote hnoQuote, hscan]
    rfl

/-! ### Numbers -/

/-- What may stand behind a piece of a statement. -/
def pieceEnds : List Char := [' ', ';', ')']

/-- What ends a piece is no part of a word or a number. -/
theorem of_mem_pieceEnds (h : c ∈ pieceEnds) :
    c ∈ wordEnds ∧ isIdentStart c = false ∧ isIdentContinue c = false ∧
      isDigitOrUnderscore c = false ∧ c ∉ ['.', 'e', 'E', 'x', 'o', 'b'] := by
  have hall : ∀ x ∈ pieceEnds, x ∈ wordEnds ∧ isIdentStart x = false ∧ isIdentContinue x = false ∧
      isDigitOrUnderscore x = false ∧ x ∉ ['.', 'e', 'E', 'x', 'o', 'b'] :=
    forall_mem_of_all (by decide)
  exact hall c h

theorem StartsIn.wordEnds (h : StartsIn pieceEnds cs) : StartsIn wordEnds cs := by
  obtain ⟨t, after, rfl, ht⟩ := h
  exact ⟨t, after, rfl, (of_mem_pieceEnds ht).1⟩

theorem skipQuoted?_of_isDigit (h : c.isDigit = true) : skipQuoted? (c :: tail) = none := by
  have hall : ∀ d ∈ decimalDigits, d ∉ ['"', 'r', 'b', 'c', '\''] := forall_mem_of_all (by decide)
  have hfree := hall c (mem_of_isDigit h)
  simp only [List.mem_cons, List.not_mem_nil, or_false, not_or] at hfree
  simp [skipQuoted?, hfree]

/-- What starts with a digit and is a number in front of `rest` is one token. -/
theorem scanNext?_of_scanNumber? {value : LiteralValue} (h : c.isDigit = true)
    (hscan : scanNumber? (c :: tail ++ rest) = some (value, rest)) :
    scanNext? (c :: tail ++ rest) =
      some ([.leaf (.literal ⟨String.ofList (c :: tail), value⟩)], rest) := by
  have hfree : c ∉ separators := not_mem_separators (isIdentContinue_of_isDigit h)
  have htake : (c :: tail ++ rest).take ((c :: tail ++ rest).length - rest.length) = c :: tail := by
    rw [List.length_append, Nat.add_sub_cancel, List.take_left']
    rfl
  have hliteral : scanLiteral? (c :: tail ++ rest) =
      some (.literal ⟨String.ofList (c :: tail), value⟩, rest) := by
    have hquoted : skipQuoted? (c :: tail ++ rest) = none := skipQuoted?_of_isDigit h
    simp only [scanLiteral?, hquoted, hscan, Option.map_some, htake]
  have hleaf : scanLeaf? (c :: tail ++ rest) =
      some (.literal ⟨String.ofList (c :: tail), value⟩, rest) := by
    rw [scanLeaf?, hliteral]
    rfl
  have hbrackets : ∀ x ∈ brackets, x ∈ separators := forall_mem_of_all (by decide)
  refine scanNext?_eq (.inl ?_) (fun hmem => hfree (hbrackets c hmem)) hleaf
  rintro rfl
  exact hfree (by decide)

theorem endNumber?_of_startsIn (hrest : StartsIn pieceEnds rest) : endNumber? rest = some rest := by
  obtain ⟨t, after, rfl, ht⟩ := hrest
  obtain ⟨-, hstart, hcontinue, -, -⟩ := of_mem_pieceEnds ht
  simp [endNumber?, skipSuffix, spanIdent?, hstart, hcontinue]

theorem span_digits (hwhole : ∀ x ∈ whole, x.isDigit = true)
    (hrest : ∀ x after, rest = x :: after → isDigitOrUnderscore x = false) :
    (whole ++ rest).span isDigitOrUnderscore = (whole, rest) :=
  span_append (fun x hx => by simp [isDigitOrUnderscore, hwhole x hx]) hrest

theorem startsIn_not_digit (hrest : StartsIn pieceEnds rest) (x : Char) (after : List Char)
    (heq : rest = x :: after) : isDigitOrUnderscore x = false := by
  obtain ⟨t, after, rfl, ht⟩ := hrest
  obtain ⟨rfl, -⟩ := List.cons.inj heq
  exact (of_mem_pieceEnds ht).2.2.2.1

/-- Digits in base ten are an integer. -/
theorem scanBase?_ten (hdigits : ∀ x ∈ c :: tail, x.isDigit = true)
    (hrest : StartsIn pieceEnds rest) :
    scanBase? 10 (c :: tail ++ rest) = some (Decimal.ofDigits (c :: tail), rest) := by
  have hspan : (c :: tail ++ rest).span (fun x =>
      isDigitOrUnderscore x || ((10 : Nat) == 16 && isHexDigit x)) = (c :: tail, rest) := by
    simpa using span_digits hdigits (startsIn_not_digit hrest)
  have hvalues : ∀ d ∈ decimalDigits, d ≠ '_' ∧ digitValue d < 10 := forall_mem_of_all (by decide)
  have hfilter : (c :: tail).filter (· != '_') = c :: tail :=
    List.filter_eq_self.mpr fun x hx => by simpa using (hvalues x (mem_of_isDigit (hdigits x hx))).1
  have hsmall : (c :: tail).any (fun x => 10 ≤ digitValue x) = false := by
    rw [List.any_eq_false]
    intro x hx
    have := (hvalues x (mem_of_isDigit (hdigits x hx))).2
    simpa using this
  have hhead : c ≠ '_' := (hvalues c (mem_of_isDigit (hdigits c (by simp)))).1
  have hfold : (c :: tail).foldl (fun n x => 10 * n + digitValue x) 0 =
      Decimal.ofDigits (c :: tail) := by
    refine List.foldl_ext _ _ _ fun n x hx => ?_
    rw [digitValue, if_pos (hdigits x hx)]
  simp only [scanBase?, hspan, hfilter, hsmall, hfold]
  simp [hhead]

/-- Digits in front of something that ends a piece are an integer. -/
theorem scanNumber?_integer (hdigits : ∀ x ∈ c :: tail, x.isDigit = true)
    (hrest : StartsIn pieceEnds rest) :
    scanNumber? (c :: tail ++ rest) = some (.integer (Decimal.ofDigits (c :: tail)), rest) := by
  have hspan := span_digits hdigits (startsIn_not_digit hrest)
  have hdecimal : scanDecimal? (c :: tail ++ rest) = none := by
    obtain ⟨t, after, rfl, ht⟩ := hrest
    obtain ⟨-, -, -, -, hletter⟩ := of_mem_pieceEnds ht
    simp only [List.mem_cons, List.not_mem_nil, or_false, not_or] at hletter
    have hhead : (c :: tail ++ t :: after).head?.any Char.isDigit = true := by
      simp [hdigits c (by simp)]
    simp only [scanDecimal?, hhead, hspan]
    simp [startsExponent, hletter]
  have hbase := scanBase?_ten hdigits hrest
  have hinteger : scanInteger? (c :: tail ++ rest) =
      some (Decimal.ofDigits (c :: tail), rest) := by
    -- no letter of another base stands second
    have hsecond : ∀ x after, tail ++ rest = x :: after → x ∉ ['x', 'o', 'b'] := by
      intro x after heq
      cases tail with
      | nil =>
        obtain ⟨t, after', rfl, ht⟩ := hrest
        obtain ⟨rfl, -⟩ := List.cons.inj heq
        obtain ⟨-, -, -, -, hletter⟩ := of_mem_pieceEnds ht
        exact fun hmem => hletter (List.mem_append_right ['.', 'e', 'E'] hmem)
      | cons d tail =>
        obtain ⟨rfl, -⟩ := List.cons.inj heq
        have hall : ∀ y ∈ decimalDigits, y ∉ ['x', 'o', 'b'] := forall_mem_of_all (by decide)
        exact hall d (mem_of_isDigit (hdigits d (by simp)))
    unfold scanInteger?
    split
    · next heq => exact absurd (by decide) (hsecond _ _ (List.cons.inj heq).2)
    · next heq => exact absurd (by decide) (hsecond _ _ (List.cons.inj heq).2)
    · next heq => exact absurd (by decide) (hsecond _ _ (List.cons.inj heq).2)
    · exact hbase
  simp only [scanNumber?, hdecimal, hinteger, endNumber?_of_startsIn hrest, Option.bind_none,
    Option.none_or, Option.bind_some, Option.map_some]

/-- Digits around a point are a decimal. -/
theorem scanNumber?_decimal (hwhole : ∀ x ∈ c :: whole, x.isDigit = true)
    (hfraction : ∀ x ∈ d :: fraction, x.isDigit = true) (hrest : StartsIn pieceEnds rest) :
    scanNumber? (c :: whole ++ '.' :: (d :: fraction ++ rest)) =
      some (.decimal (decimalOf (c :: whole) (d :: fraction) 0), rest) := by
  have hspan : (c :: whole ++ '.' :: (d :: fraction ++ rest)).span isDigitOrUnderscore =
      (c :: whole, '.' :: (d :: fraction ++ rest)) := by
    refine span_digits hwhole fun x after heq => ?_
    cases heq
    decide
  have hspan' := span_digits hfraction (startsIn_not_digit hrest)
  have hpoint : refusesPoint (d :: fraction ++ rest) = false := by
    have hall : ∀ x ∈ decimalDigits, (x == '.' || isIdentStart x) = false :=
      forall_mem_of_all (by decide)
    exact hall d (mem_of_isDigit (hfraction d (by simp)))
  have hexponent : startsExponent rest = false := by
    obtain ⟨t, after, rfl, ht⟩ := hrest
    obtain ⟨-, -, -, -, hletter⟩ := of_mem_pieceEnds ht
    simp only [List.mem_cons, List.not_mem_nil, or_false, not_or] at hletter
    simp [startsExponent, hletter]
  have hhead : (c :: whole ++ '.' :: (d :: fraction ++ rest)).head?.any Char.isDigit = true := by
    simp [hwhole c (by simp)]
  have hdecimal : scanDecimal? (c :: whole ++ '.' :: (d :: fraction ++ rest)) =
      some (decimalOf (c :: whole) (d :: fraction) 0, rest) := by
    simp only [scanDecimal?, hhead, hspan, hpoint, hspan', hexponent]
    rfl
  simp only [scanNumber?, hdecimal, endNumber?_of_startsIn hrest, Option.bind_some, Option.map_some,
    Option.some_or]

/-! ### Punctuation and parentheses -/

/-- A punctuation character other than a quote is one token, if it starts no comment. -/
theorem scanNext?_punct (hc : c ∈ punctuation) (hquote : c ≠ '\'')
    (hslash : c ≠ '/' ∨ ∃ d after, tail = d :: after ∧ d ≠ '/' ∧ d ≠ '*') :
    scanNext? (c :: tail) = some ([.leaf (.punct c (startsPunct tail))], tail) := by
  have hstart : ∀ x ∈ punctuation, x.isDigit = false ∧ x ∉ brackets ∧ x ≠ '"' ∧ x ≠ 'r' ∧
      x ≠ 'b' ∧ x ≠ 'c' := forall_mem_of_all (by decide)
  obtain ⟨hdigit, hbracket, hdouble, hr, hb, hc'⟩ := hstart c hc
  have hquoted : skipQuoted? (c :: tail) = none := by
    simp [skipQuoted?, hdouble, hr, hb, hc', hquote]
  have hliteral : scanLiteral? (c :: tail) = none := by
    rw [scanLiteral?, hquoted, scanNumber?_of_not_digit hdigit]
    rfl
  have hstarts : startsPunct (c :: tail) = true := by
    rcases hslash with hne | ⟨d, after, rfl, hd, hd'⟩
    · simp [startsPunct, hne, hc]
    · simp [startsPunct, hd, hd', hc]
  have hpunct : scanPunct? (c :: tail) = some (.punct c (startsPunct tail), tail) := by
    simp [scanPunct?, hstarts]
  refine scanNext?_eq hslash hbracket ?_
  rw [scanLeaf?, hliteral, hpunct]
  rfl

theorem scanNext?_opening (h : ∃ d after, tail = d :: after ∧ d ≠ '/') :
    scanNext? ('(' :: tail) = some ([.opening .parenthesis], tail) := by
  have hne : '(' ≠ '/' := by decide
  simp only [scanNext?, scanDoc?_of_ne (.inl hne), scanErrorLiteral?_of_ne (.inr h)]
  rfl

theorem scanNext?_closing : scanNext? (')' :: tail) = some ([.closing .parenthesis], tail) := by
  have hne : ')' ≠ '/' := by decide
  have hne' : ')' ≠ '(' := by decide
  simp only [scanNext?, scanDoc?_of_ne (.inl hne), scanErrorLiteral?_of_ne (.inl hne')]
  rfl

end Scanning

section Lexemes

variable {c d : Char} {cs ds rest : List Char} {l : Lexeme} {ls : List Lexeme}

/-- The text starts with neither a blank nor a comment. -/
def Solid (cs : List Char) : Prop :=
  (∃ c tail, cs = c :: tail ∧ isBlank c = false) ∧ startsComment cs = false

theorem solid_of_visible (h : Visible c) : Solid (c :: cs) := by
  refine ⟨⟨c, cs, rfl, h.1⟩, ?_⟩
  simp [startsComment, h.2.1]

theorem skipSpace_of_solid (h : Solid cs) (fuel : Nat) : skipSpace fuel cs = cs := by
  obtain ⟨⟨c, tail, rfl, hblank⟩, hcomment⟩ := h
  cases fuel with
  | zero => rfl
  | succ fuel => simp [skipSpace, hcomment, hblank]

theorem skipSpace_blank (h : Solid cs) (fuel : Nat) : skipSpace (fuel + 1) (' ' :: cs) = cs := by
  have hblank : isBlank ' ' = true := by decide
  have hcomment : startsComment (' ' :: cs) = false := by simp [startsComment]
  simp only [skipSpace, hcomment, Bool.false_eq_true, if_false, hblank, if_true]
  exact skipSpace_of_solid h fuel

/-- The lexemes of a text, whatever the fuel above its length. -/
def Lexes (cs : List Char) (ls : List Lexeme) : Prop :=
  ∀ fuel, cs.length < fuel → lexemes? fuel cs = some ls

theorem lexes_nil : Lexes [] [] := by
  intro fuel hfuel
  obtain ⟨fuel, rfl⟩ : ∃ k, fuel = k + 1 := ⟨fuel - 1, by simp at hfuel; omega⟩
  cases fuel <;> rfl

/-- One lexeme is taken off the head of a text. -/
theorem Lexes.cons (hrest : Lexes rest ls) (hsolid : Solid (c :: cs))
    (hscan : scanNext? (c :: cs) = some ([l], rest)) (hlength : rest.length ≤ cs.length) :
    Lexes (c :: cs) (l :: ls) := by
  intro fuel hfuel
  obtain ⟨fuel, rfl⟩ : ∃ k, fuel = k + 1 := ⟨fuel - 1, by omega⟩
  rw [List.length_cons] at hfuel
  simp only [lexemes?, skipSpace_of_solid hsolid, hscan, hrest fuel (by omega), Option.map_some]
  rfl

/-- A blank does not count. -/
theorem Lexes.blank (h : Lexes cs ls) (hsolid : Solid cs) : Lexes (' ' :: cs) ls := by
  intro fuel hfuel
  obtain ⟨fuel, rfl⟩ : ∃ k, fuel = k + 2 := ⟨fuel - 2, by simp at hfuel; omega⟩
  rw [List.length_cons] at hfuel
  have hcs := h (fuel + 2) (by omega)
  simpa only [lexemes?, skipSpace_of_solid hsolid, skipSpace_blank hsolid] using hcs

mutual

/-- The lexemes of a token, brackets and all. -/
def tokenLexemes : Token → List Lexeme
  | .group d tokens => .opening d :: (lexemesOf tokens ++ [.closing d])
  | t => [.leaf t]

/-- The lexemes of a list of tokens. -/
def lexemesOf : List Token → List Lexeme
  | [] => []
  | t :: rest => tokenLexemes t ++ lexemesOf rest

end

theorem lexemesOf_append (s t : List Token) : lexemesOf (s ++ t) = lexemesOf s ++ lexemesOf t := by
  induction s with
  | nil => rfl
  | cons t s ih => simp [lexemesOf, ih]

mutual

theorem nest?_tokenLexemes (outer : List (Delimiter × List Token)) (current : List Token)
    (t : Token) (ls : List Lexeme) :
    nest? outer current (tokenLexemes t ++ ls) = nest? outer (t :: current) ls := by
  cases t with
  | group d tokens =>
    rw [tokenLexemes, List.cons_append, List.append_assoc, nest?, nest?_lexemesOf]
    simp [nest?]
  | ident | punct | literal => rfl

/-- Gathering the lexemes of tokens gives the tokens back. -/
theorem nest?_lexemesOf (outer : List (Delimiter × List Token)) (current : List Token)
    (tokens : List Token) (ls : List Lexeme) :
    nest? outer current (lexemesOf tokens ++ ls) = nest? outer (tokens.reverse ++ current) ls := by
  cases tokens with
  | nil => rfl
  | cons t rest =>
    rw [lexemesOf, List.append_assoc, nest?_tokenLexemes, nest?_lexemesOf]
    simp

end

/-- The text of tokens is read as the tokens. -/
theorem tokens?_of_lexes {text : String} {tokens : List Token}
    (hstart : ∀ tail, text.toList ≠ '\uFEFF' :: tail) (h : Lexes text.toList (lexemesOf tokens)) :
    tokens? text = some tokens := by
  unfold tokens?
  have hnest := nest?_lexemesOf [] [] tokens []
  rw [List.append_nil] at hnest
  simp only [h _ (Nat.lt_succ_self _), Option.bind_some, hnest]
  simp [nest?]

end Lexemes

section Pieces

variable {c d : Char} {cs ds rest : List Char} {s t : List Token}

/-- A piece of text is a list of tokens wherever something stands behind it that ends it. -/
structure Reads (cs : List Char) (tokens : List Token) : Prop where
  starts : ∃ c tail, cs = c :: tail ∧ Visible c
  lexes : ∀ rest ls, StartsIn pieceEnds rest → Lexes rest ls →
    Lexes (cs ++ rest) (lexemesOf tokens ++ ls)

theorem Reads.solid (h : Reads cs s) : Solid (cs ++ rest) := by
  obtain ⟨c, tail, rfl, hc⟩ := h.starts
  exact solid_of_visible hc

/-- A piece that is one lexeme. -/
theorem reads_of_scanNext? {t : Token} (hvisible : Visible c) (ht : tokenLexemes t = [.leaf t])
    (hscan : ∀ rest, StartsIn pieceEnds rest →
      scanNext? (c :: cs ++ rest) = some ([.leaf t], rest)) : Reads (c :: cs) [t] := by
  refine ⟨⟨c, cs, rfl, hvisible⟩, fun rest ls hrest h => ?_⟩
  have hcons := h.cons (solid_of_visible hvisible) (hscan rest hrest) (by simp)
  simpa [lexemesOf, ht] using hcons

/-- Two pieces with a blank between them. -/
theorem Reads.append (h : Reads cs s) (h' : Reads ds t) : Reads (cs ++ ' ' :: ds) (s ++ t) := by
  refine ⟨?_, fun rest ls hrest hls => ?_⟩
  · obtain ⟨c, tail, rfl, hc⟩ := h.starts
    exact ⟨c, _, rfl, hc⟩
  · have hds := (h'.lexes rest ls hrest hls).blank h'.solid
    have hcs := h.lexes (' ' :: (ds ++ rest)) _ ⟨' ', _, rfl, by decide⟩ hds
    simpa [lexemesOf_append] using hcs

theorem solid_punct (hc : c ∈ punctuation)
    (hslash : c ≠ '/' ∨ ∃ d after, rest = d :: after ∧ d ≠ '/' ∧ d ≠ '*') : Solid (c :: rest) := by
  have hblank : ∀ x ∈ punctuation, isBlank x = false := forall_mem_of_all (by decide)
  refine ⟨⟨c, rest, rfl, hblank c hc⟩, ?_⟩
  rcases hslash with hne | ⟨d, after, rfl, hd, hd'⟩
  · simp [startsComment, hne]
  · simp [startsComment, hd, hd']

/-- A punctuation character in front of lexemes, if it starts no comment. -/
theorem Lexes.punct {ls : List Lexeme} (h : Lexes rest ls) (hc : c ∈ punctuation)
    (hquote : c ≠ '\'') (hslash : c ≠ '/' ∨ ∃ d after, rest = d :: after ∧ d ≠ '/' ∧ d ≠ '*') :
    Lexes (c :: rest) (.leaf (.punct c (startsPunct rest)) :: ls) :=
  h.cons (solid_punct hc hslash) (scanNext?_punct hc hquote hslash) (Nat.le_refl _)

/-- A punctuation character between two pieces and their blanks. -/
theorem Reads.single (h : Reads cs s) (h' : Reads ds t) (hc : c ∈ punctuation)
    (hquote : c ≠ '\'') : Reads (cs ++ ' ' :: c :: ' ' :: ds) (s ++ .punct c false :: t) := by
  refine ⟨?_, fun rest ls hrest hls => ?_⟩
  · obtain ⟨c, tail, rfl, hc⟩ := h.starts
    exact ⟨c, _, rfl, hc⟩
  · have hslash : c ≠ '/' ∨ ∃ d after, ' ' :: (ds ++ rest) = d :: after ∧ d ≠ '/' ∧ d ≠ '*' :=
      .inr ⟨' ', _, rfl, by decide, by decide⟩
    have hds := (h'.lexes rest ls hrest hls).blank h'.solid
    have hpunct := (hds.punct hc hquote hslash).blank (solid_punct hc hslash)
    have hcs := h.lexes _ _ ⟨' ', _, rfl, by decide⟩ hpunct
    rw [startsPunct_of_not_mem (by decide)] at hcs
    simpa [lexemesOf_append, lexemesOf, tokenLexemes] using hcs

/-- Two joint punctuation characters between two pieces and their blanks. -/
theorem Reads.pair (h : Reads cs s) (h' : Reads ds t) (hc : c ∈ punctuation) (hquote : c ≠ '\'')
    (hslash : c ≠ '/') (hd : d ∈ punctuation) (hquote' : d ≠ '\'') (hslash' : d ≠ '/') :
    Reads (cs ++ ' ' :: c :: d :: ' ' :: ds) (s ++ .punct c true :: .punct d false :: t) := by
  refine ⟨?_, fun rest ls hrest hls => ?_⟩
  · obtain ⟨c, tail, rfl, hc⟩ := h.starts
    exact ⟨c, _, rfl, hc⟩
  · have hds := (h'.lexes rest ls hrest hls).blank h'.solid
    have hpair := ((hds.punct hd hquote' (.inl hslash')).punct hc hquote (.inl hslash)).blank
      (solid_punct hc (.inl hslash))
    have hcs := h.lexes _ _ ⟨' ', _, rfl, by decide⟩ hpair
    have hjoint : startsPunct (d :: ' ' :: (ds ++ rest)) = true := by
      simp [startsPunct, hslash', hd]
    have hblank : startsPunct (' ' :: (ds ++ rest)) = false := startsPunct_of_not_mem (by decide)
    rw [hjoint, hblank] at hcs
    simpa [lexemesOf_append, lexemesOf, tokenLexemes] using hcs

/-- A punctuation character directly in front of a piece. -/
theorem Reads.punct (h : Reads cs s) (hvisible : Visible c) (hc : c ∈ punctuation)
    (hquote : c ≠ '\'') : ∃ joint, Reads (c :: cs) (.punct c joint :: s) := by
  obtain ⟨d, tail, rfl, hd⟩ := h.starts
  refine ⟨punctuation.contains d, ⟨c, _, rfl, hvisible⟩, fun rest ls hrest hls => ?_⟩
  have hcs := (h.lexes rest ls hrest hls).punct hc hquote (.inl hvisible.2.1)
  have hjoint : startsPunct (d :: tail ++ rest) = punctuation.contains d := by
    simp [startsPunct, hd.2.1]
  rw [hjoint] at hcs
  exact hcs

/-- A piece in parentheses. -/
theorem Reads.group (h : Reads cs s) : Reads ('(' :: (cs ++ [')'])) [.group .parenthesis s] := by
  have hvisible : Visible '(' ∧ Visible ')' := by decide
  refine ⟨⟨'(', _, rfl, hvisible.1⟩, fun rest ls hrest hls => ?_⟩
  have hclosing := hls.cons (solid_of_visible hvisible.2) scanNext?_closing (Nat.le_refl _)
  have hinner := h.lexes _ _ ⟨')', rest, rfl, by decide⟩ hclosing
  have hsolid : Solid ('(' :: (cs ++ ')' :: rest)) := solid_of_visible hvisible.1
  obtain ⟨c, tail, rfl, hc⟩ := h.starts
  have hopening := hinner.cons hsolid (scanNext?_opening ⟨c, _, rfl, hc.2.1⟩) (Nat.le_refl _)
  simpa [lexemesOf, tokenLexemes] using hopening

/-- A word in front of lexemes. -/
theorem Lexes.word {ls : List Lexeme} (h : Lexes rest ls) (hword : isIdent cs = true)
    (hrest : StartsIn wordEnds rest) :
    Lexes (cs ++ rest) (.leaf (.ident (String.ofList cs)) :: ls) := by
  have hscan := scanNext?_word hword hrest
  obtain ⟨c, tail, rfl, hc⟩ := exists_cons_of_isIdent hword
  exact h.cons (solid_of_visible (visible_of_isIdentContinue hc)) hscan (by simp)

/-- A word. -/
theorem reads_word (hword : isIdent cs = true) : Reads cs [.ident (String.ofList cs)] := by
  refine ⟨?_, fun rest ls hrest h => h.word hword hrest.wordEnds⟩
  obtain ⟨c, tail, rfl, hc⟩ := exists_cons_of_isIdent hword
  exact ⟨c, tail, rfl, visible_of_isIdentContinue hc⟩

/-- The tokens of the continuations of a name. -/
def dottedTokens (parts : List String) : List Token :=
  parts.flatMap fun part => [.punct '.' false, .ident part]

/-- The text of the continuations of a name. -/
def dottedText (parts : List String) : List Char := parts.flatMap fun part => '.' :: part.toList

theorem toList_intercalate (first : String) (parts : List String) :
    (".".intercalate (first :: parts)).toList = first.toList ++ dottedText parts := by
  induction parts generalizing first with
  | nil =>
    have hone : ".".intercalate [first] = first := rfl
    rw [hone, dottedText, List.flatMap_nil, List.append_nil]
  | cons part parts ih =>
    have hstep : ".".intercalate (first :: part :: parts) =
        ".".intercalate ((first ++ "." ++ part) :: parts) := rfl
    rw [hstep, ih]
    simp [dottedText]

/-- The continuations of a name, in front of what ends a word. -/
theorem Lexes.dotted {parts : List String} {ls : List Lexeme} (h : Lexes rest ls)
    (hparts : ∀ part ∈ parts, isIdent part.toList = true) (hrest : StartsIn wordEnds rest) :
    StartsIn wordEnds (dottedText parts ++ rest) ∧
      Lexes (dottedText parts ++ rest) (lexemesOf (dottedTokens parts) ++ ls) := by
  induction parts with
  | nil => exact ⟨hrest, h⟩
  | cons part parts ih =>
    obtain ⟨hends, hlexes⟩ := ih fun p hp => hparts p (List.mem_cons_of_mem _ hp)
    have hpart := hparts part List.mem_cons_self
    have hword := hlexes.word hpart hends
    have hdot : startsPunct (part.toList ++ (dottedText parts ++ rest)) = false := by
      obtain ⟨c, tail, heq, hc⟩ := exists_cons_of_isIdent hpart
      rw [heq]
      exact startsPunct_of_not_mem fun hmem => not_mem_separators hc (List.mem_append_left _ hmem)
    have hpunct := hword.punct (c := '.') (by decide) (by decide) (.inl (by decide))
    rw [hdot, String.ofList_toList] at hpunct
    exact ⟨⟨'.', _, rfl, by decide⟩,
      by simpa [dottedText, dottedTokens, lexemesOf, tokenLexemes] using hpunct⟩

/-- A name. -/
theorem reads_name {first : String} {parts : List String}
    (hparts : ∀ part ∈ first :: parts, isIdent part.toList = true) :
    Reads (".".intercalate (first :: parts)).toList (.ident first :: dottedTokens parts) := by
  have hfirst := hparts first List.mem_cons_self
  rw [toList_intercalate]
  refine ⟨?_, fun rest ls hrest h => ?_⟩
  · obtain ⟨c, tail, heq, hc⟩ := exists_cons_of_isIdent hfirst
    exact ⟨c, _, by rw [heq]; rfl, visible_of_isIdentContinue hc⟩
  · obtain ⟨hends, hdotted⟩ :=
      h.dotted (fun part hpart => hparts part (List.mem_cons_of_mem _ hpart)) hrest.wordEnds
    have hword := hdotted.word hfirst hends
    rw [String.ofList_toList] at hword
    rw [List.append_assoc]
    exact hword

/-- An integer. -/
theorem reads_integer (hdigits : ∀ x ∈ c :: cs, x.isDigit = true) :
    Reads (c :: cs)
      [.literal ⟨String.ofList (c :: cs), .integer (Decimal.ofDigits (c :: cs))⟩] := by
  refine reads_of_scanNext? (visible_of_isIdentContinue ?_) rfl fun rest hrest => ?_
  · exact isIdentContinue_of_isDigit (hdigits c (by simp))
  · exact scanNext?_of_scanNumber? (hdigits c (by simp)) (scanNumber?_integer hdigits hrest)

/-- A decimal. -/
theorem reads_decimal (hwhole : ∀ x ∈ c :: cs, x.isDigit = true)
    (hfraction : ∀ x ∈ d :: ds, x.isDigit = true) :
    Reads (c :: (cs ++ '.' :: d :: ds)) [.literal ⟨String.ofList (c :: (cs ++ '.' :: d :: ds)),
      .decimal (decimalOf (c :: cs) (d :: ds) 0)⟩] := by
  have hdigit := hwhole c (by simp)
  refine reads_of_scanNext? (visible_of_isIdentContinue (isIdentContinue_of_isDigit hdigit)) rfl
    fun rest hrest => scanNext?_of_scanNumber? hdigit ?_
  simpa using scanNumber?_decimal hwhole hfraction hrest

end Pieces

end SpinGlass.Lexer

import SpinGlass.Program.Grammar
import SpinGlass.Proofs.Program.Lexing

/-!
# Numbers in program text

A finite coefficient is written as digits with at most one point, after an optional minus sign. The
front end reads from that text the same float as a reader of the bare number, so a float whose
digits read back to it survives in a program.
-/

namespace SpinGlass

open Lexer (Reads reads_integer reads_decimal decimalOf)

/-- Digits, or digits around a point, and their value. -/
inductive Numeral : List Char → Decimal → Prop
  | integer {c : Char} {cs : List Char} (hdigits : ∀ x ∈ c :: cs, x.isDigit = true) :
      Numeral (c :: cs) ⟨Decimal.ofDigits (c :: cs), 0⟩
  | decimal {c d : Char} {cs ds : List Char} (hwhole : ∀ x ∈ c :: cs, x.isDigit = true)
      (hfraction : ∀ x ∈ d :: ds, x.isDigit = true) :
      Numeral (c :: (cs ++ '.' :: d :: ds)) (decimalOf (c :: cs) (d :: ds) 0)

section Writing

/-- The digits of a natural number. -/
theorem exists_digits (n : Nat) :
    ∃ c cs, (toString n).toList = c :: cs ∧ (∀ x ∈ c :: cs, x.isDigit = true) ∧
      Decimal.ofDigits (c :: cs) = n := by
  have htext : (toString n).toList = Nat.toDigits 10 n := Nat.toList_repr
  obtain ⟨c, cs, hcs⟩ := List.exists_cons_of_ne_nil (Nat.toDigits_ne_nil (n := n) (b := 10))
  refine ⟨c, cs, htext.trans hcs, fun x hx => ?_, ?_⟩
  · rw [← hcs] at hx
    exact Nat.isDigit_of_mem_toDigits (by decide) (by decide) hx
  · rw [← hcs]
    exact Nat.ofDigitChars_toDigits (by decide) (by decide)

theorem isDigit_of_mem_zeros {n : Nat} {x : Char} (hx : x ∈ (Decimal.zeros n).toList) :
    x.isDigit = true := by
  rw [Decimal.zeros, String.toList_ofList] at hx
  rw [List.eq_of_mem_replicate hx]
  decide

/-- Every decimal is written as a numeral. -/
theorem exists_numeral_positional (d : Decimal) : ∃ d', Numeral d.positional.toList d' := by
  obtain ⟨c, cs, htext, hdigits, -⟩ := exists_digits d.digits
  rw [Decimal.positional]
  by_cases hexponent : 0 ≤ d.exponent
  · rw [if_pos hexponent, String.toList_append, htext, List.cons_append]
    refine ⟨_, .integer fun x hx => ?_⟩
    rw [← List.cons_append] at hx
    rcases List.mem_append.mp hx with hx | hx
    · exact hdigits x hx
    · exact isDigit_of_mem_zeros hx
  · rw [if_neg hexponent]
    generalize hplaces : (-d.exponent).toNat = places
    generalize hall : (Decimal.zeros (places + 1 - (toString d.digits).length) ++
      toString d.digits).toList = all
    have hdigit : ∀ x ∈ all, x.isDigit = true := by
      intro x hx
      rw [← hall, String.toList_append, htext] at hx
      rcases List.mem_append.mp hx with hx | hx
      · exact isDigit_of_mem_zeros hx
      · exact hdigits x hx
    have hlength : places + 1 ≤ all.length := by
      rw [← hall, String.toList_append, List.length_append, Decimal.zeros, String.toList_ofList,
        List.length_replicate, String.length_toList]
      omega
    have hplaces : 1 ≤ places := by omega
    have hwhole : all.take (all.length - places) ≠ [] := by
      rw [Ne, ← List.length_eq_zero_iff, List.length_take]
      omega
    have hfraction : all.drop (all.length - places) ≠ [] := by
      rw [Ne, ← List.length_eq_zero_iff, List.length_drop]
      omega
    obtain ⟨a, as, has⟩ := List.exists_cons_of_ne_nil hwhole
    obtain ⟨b, bs, hbs⟩ := List.exists_cons_of_ne_nil hfraction
    refine ⟨decimalOf (a :: as) (b :: bs) 0, ?_⟩
    have hnumeral : Numeral (a :: (as ++ '.' :: b :: bs)) (decimalOf (a :: as) (b :: bs) 0) := by
      refine .decimal (fun x hx => hdigit x ?_) fun x hx => hdigit x ?_
      · exact List.mem_of_mem_take (has ▸ hx)
      · exact List.mem_of_mem_drop (hbs ▸ hx)
    simp only [hall, has, hbs, String.toList_append, String.toList_ofList]
    simpa using hnumeral

theorem ne_nan_inf_of_isFinite {x : Float} (h : x.isFinite = true) :
    x.isNaN = false ∧ x.isInf = false := by
  change x.toModel.unpack.isFinite = true at h
  change x.toModel.unpack.isNaN = false ∧ x.toModel.unpack.isInf = false
  cases hx : x.toModel.unpack with
  | zero | finite => exact ⟨rfl, rfl⟩
  | infinity | notANumber =>
    rw [hx] at h
    cases h

/-- A minus sign, or none. -/
def signText (negative : Bool) : List Char := if negative then ['-'] else []

/-- A finite float is written as a sign and a numeral. -/
theorem exists_plainText_eq {x : Float} (h : x.isFinite = true) :
    ∃ negative cs d, Numeral cs d ∧ (plainText x).toList = signText negative ++ cs := by
  obtain ⟨hnan, hinf⟩ := ne_nan_inf_of_isFinite h
  obtain ⟨d, hd⟩ := exists_numeral_positional (Decimal.shortest .up x)
  refine ⟨Coefficient.isSignNegative x, _, d, hd, ?_⟩
  simp only [plainText, hnan, hinf, Bool.false_eq_true, if_false, String.toList_append]
  cases Coefficient.isSignNegative x <;> rfl

end Writing

section Reading

variable {cs : List Char} {d : Decimal} {text : String} {negative : Bool}

/-- A float with its sign changed, or not. -/
def signed (negative : Bool) (x : Float) : Float := if negative then -x else x

theorem spanDigits_append {xs rest : List Char} (hxs : ∀ x ∈ xs, x.isDigit = true)
    (hrest : ∀ c tail, rest = c :: tail → c.isDigit = false) :
    Decimal.spanDigits (xs ++ rest) = (xs, rest) := Lexer.span_append hxs hrest

theorem spanDigits_self {xs : List Char} (hxs : ∀ x ∈ xs, x.isDigit = true) :
    Decimal.spanDigits xs = (xs, []) := by
  have hspan : Decimal.spanDigits (xs ++ []) = (xs, []) := spanDigits_append hxs (by simp)
  rwa [List.append_nil] at hspan

theorem filter_isDigit {xs : List Char} (hxs : ∀ x ∈ xs, x.isDigit = true) :
    xs.filter Char.isDigit = xs := List.filter_eq_self.mpr hxs

/-- A bare reader finds the value of a numeral. -/
theorem Numeral.readUnsigned? (h : Numeral cs d) : Decimal.readUnsigned? cs = some d := by
  cases h with
  | @integer c cs hdigits =>
    simp [Decimal.readUnsigned?, spanDigits_self hdigits]
  | @decimal c d cs ds hwhole hfraction =>
    have hspan : Decimal.spanDigits (c :: (cs ++ '.' :: d :: ds)) = (c :: cs, '.' :: d :: ds) := by
      refine spanDigits_append hwhole fun x tail heq => ?_
      cases heq
      decide
    simp only [Decimal.readUnsigned?, hspan, spanDigits_self hfraction, decimalOf,
      filter_isDigit hwhole, filter_isDigit hfraction]
    simp

theorem Numeral.exists_isDigit (h : Numeral cs d) :
    ∃ c tail, cs = c :: tail ∧ c.isDigit = true := by
  cases h with
  | integer hdigits => exact ⟨_, _, rfl, hdigits _ List.mem_cons_self⟩
  | decimal hwhole => exact ⟨_, _, rfl, hwhole _ List.mem_cons_self⟩

/-- A numeral is none of the words for values without digits. -/
theorem Numeral.readFloat? (h : Numeral cs d) (htext : text.toList = signText negative ++ cs) :
    readFloat? text = some (signed negative d.toFloat) := by
  obtain ⟨c, tail, hcs, hdigit⟩ := h.exists_isDigit
  have hfacts : ∀ x ∈ Lexer.decimalDigits,
      x ≠ '-' ∧ x ≠ '+' ∧ x.toLower ≠ 'i' ∧ x.toLower ≠ 'n' :=
    Lexer.forall_mem_of_all (by decide)
  obtain ⟨hminus, hplus, hi, hn⟩ := hfacts c (Lexer.mem_of_isDigit hdigit)
  have hword (word : String)
      (hhead : word.toList.head? = some 'i' ∨ word.toList.head? = some 'n') :
      (String.ofList (cs.map Char.toLower) == word) = false := by
    rw [beq_eq_false_iff_ne]
    rintro rfl
    simp [hcs, hi, hn] at hhead
  have hinf := hword "inf" (by simp)
  have hinfinity := hword "infinity" (by simp)
  have hnan := hword "nan" (by simp)
  rw [SpinGlass.readFloat?, htext]
  cases negative with
  | true => simp [signText, signed, hinf, hinfinity, hnan, h.readUnsigned?]
  | false =>
    rw [hcs] at hinf hinfinity hnan h ⊢
    simp only [List.map_cons, String.ofList_cons, beq_eq_false_iff_ne] at hinf hinfinity hnan
    simp [signText, signed, hminus, hplus, hinf, hinfinity, hnan, h.readUnsigned?]

/-- The tokens of a number. -/
def numberTokens (negative joint : Bool) (l : Literal) : List Token :=
  if negative then [.punct '-' joint, .literal l] else [.literal l]

/-- A sign and a numeral are the tokens of a number, and its value is found from them. -/
theorem Numeral.exists_reads (h : Numeral cs d) (negative : Bool) :
    ∃ joint l, Reads (signText negative ++ cs) (numberTokens negative joint l) ∧
      Grammar.parseNumber (numberTokens negative joint l) =
        .ok (signed negative d.toFloat, []) := by
  obtain ⟨l, hreads, hparse⟩ : ∃ l : Literal, Reads cs [.literal l] ∧ ∀ negative joint,
      Grammar.parseNumber (numberTokens negative joint l) =
        .ok (signed negative d.toFloat, []) := by
    cases h with
    | integer hdigits =>
      exact ⟨_, reads_integer hdigits, fun negative joint => by cases negative <;> rfl⟩
    | decimal hwhole hfraction =>
      exact ⟨_, reads_decimal hwhole hfraction, fun negative joint => by cases negative <;> rfl⟩
  cases negative with
  | false => exact ⟨false, l, hreads, hparse false false⟩
  | true =>
    obtain ⟨joint, hjoint⟩ := hreads.punct (c := '-') (by decide) (by decide) (by decide)
    exact ⟨joint, l, hjoint, hparse true joint⟩

/-- A finite coefficient whose digits read back to it is read from its text. -/
theorem exists_reads_plainText {x : Float} (hfinite : x.isFinite = true)
    (hread : SpinGlass.readFloat? (plainText x) = some x) :
    ∃ negative joint l, Reads (plainText x).toList (numberTokens negative joint l) ∧
      Grammar.parseNumber (numberTokens negative joint l) = .ok (x, []) := by
  obtain ⟨negative, cs, d, hnumeral, htext⟩ := exists_plainText_eq hfinite
  obtain ⟨joint, l, hreads, hparse⟩ := hnumeral.exists_reads negative
  have hvalue := (hnumeral.readFloat? htext).symm.trans hread
  rw [Option.some.injEq] at hvalue
  refine ⟨negative, joint, l, ?_, ?_⟩
  · rw [htext]
    exact hreads
  · rw [hparse, hvalue]

end Reading

end SpinGlass

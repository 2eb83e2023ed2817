import SpinGlass.Expr.Eval
import SpinGlass.Proofs.Program.Numbers
import SpinGlass.Proofs.Program.Parse

/-!
# Reading a listed program

A program that is listed statement by statement, each followed by a semicolon, reads back as the
same program. Only a negative literal in an assertion comes back in another shape, as the negation
of a positive one, and that has the same value.
-/

namespace SpinGlass

open Lexer (Reads Lexes reads_name reads_integer dottedTokens lexemesOf)
open Grammar (Derives Dotted Spells)

section Listing

/-- A name of identifiers joined by dots, the first of them none of the words in `avoid`. -/
def IsName (avoid : List String) (name : String) : Prop :=
  ∃ first parts, (∀ part ∈ first :: parts, Text.isIdent part.toList = true) ∧ first ∉ avoid ∧
    name = ".".intercalate (first :: parts)

namespace Expr

/-- The expression that the text of an expression is read as. -/
def reread : Expr → Expr
  | num n => if n < 0 then .unary .neg (.num (-n)) else .num n
  | var name => .var name
  | unary op e => .unary op e.reread
  | binary op a b => .binary op a.reread b.reread

/-- The literals can be negated, and no name can be taken for a truth value. -/
def Printable : Expr → Prop
  | num n => Int64.minValue < n
  | var name => IsName ["true", "false"] name
  | unary _ e => e.Printable
  | binary _ a b => a.Printable ∧ b.Printable

/-- An expression that is read back has the same value. -/
theorem eval_reread (e : Expr) (env : String → Option Bool) : e.reread.eval env = e.eval env := by
  induction e with
  | num n =>
    rw [reread]
    split
    · simp [eval, Except.map, UnaryOp.apply]
    · rfl
  | var name => rfl
  | unary op e ih => rw [reread, eval, eval, ih]
  | binary op a b iha ihb => cases op <;> simp only [reread, eval, iha, ihb]

end Expr

namespace Statement

/-- A statement as it is written in a program: as it is listed, without the mark of an assertion,
and ended by a semicolon. -/
def source : Statement Float → String
  | assert e => String.ofList ((assert e).text.toList.drop 1) ++ ";"
  | s => s.text ++ ";"

/-- The statement that the text of a statement is read as. -/
def reread : Statement Float → Statement Float
  | assert e => .assert e.reread
  | s => s

/-- The coefficient of a statement, if it has one. -/
def coefficient? : Statement Float → Option Float
  | weight _ value => some value
  | strength _ _ value => some value
  | _ => none

/-- The names are names, the first of a statement cannot be taken for the word of an assertion, and
the coefficient is finite. -/
def Printable : Statement Float → Prop
  | weight var value => IsName ["assert"] var ∧ value.isFinite = true
  | strength a b value => IsName ["assert"] a ∧ IsName [] b ∧ value.isFinite = true
  | chain a b => IsName ["assert"] a ∧ IsName [] b
  | pin var _ => IsName ["assert"] var
  | assert e => e.Printable

end Statement

/-- The text of a program. -/
def Program.source (program : Program Float) : String :=
  String.join (program.map Statement.source)

end Listing

section Names

theorem dotted_dottedTokens (first : String) (parts : List String) :
    Dotted first (dottedTokens parts) (".".intercalate (first :: parts)) := by
  induction parts generalizing first with
  | nil => exact .done first
  | cons part parts ih =>
    have hstep : ".".intercalate (first :: part :: parts) =
        ".".intercalate ((first ++ "." ++ part) :: parts) := rfl
    rw [hstep]
    exact .more false (ih (first ++ "." ++ part))

end Names

section Expressions

open Lexer

variable {e : Expr}

/-- Parentheses are put around the text of an expression. -/
theorem Expr.textAt_eq (e : Expr) (least : Nat) :
    e.textAt least = if e.precedence < least then "(" ++ e.text ++ ")" else e.text := by
  have htext : e.text = e.textAt 0 := rfl
  rw [htext]
  cases e <;> simp [Expr.textAt]

/-- An operator is written as one punctuation character or two. -/
theorem BinaryOp.symbol_cases (op : BinaryOp) :
    (∃ c, op.symbol.toList = [c] ∧ c ∈ punctuation ∧ c ≠ '\'') ∨
      ∃ c d, op.symbol.toList = [c, d] ∧ (c ∈ punctuation ∧ c ≠ '\'' ∧ c ≠ '/') ∧
        d ∈ punctuation ∧ d ≠ '\'' ∧ d ≠ '/' := by
  cases op
  case shl | shr | le | ge | eq | ne | and | or => exact .inr ⟨_, _, rfl, by decide, by decide⟩
  all_goals exact .inl ⟨_, rfl, by decide, by decide⟩

/-- The tokens of an expression where nothing binds looser than it does. -/
def ReadsBack (e : Expr) : Prop :=
  ∃ tokens, Reads e.text.toList tokens ∧ Derives (min e.precedence 11 - 1) tokens e.reread

/-- Parentheses make up for an operator that binds too loose. -/
theorem ReadsBack.textAt (h : ReadsBack e) {least : Nat} (hleast : least ≤ 11) :
    ∃ tokens, Reads (e.textAt least).toList tokens ∧ Derives (least - 1) tokens e.reread := by
  obtain ⟨tokens, hreads, hderives⟩ := h
  rw [Expr.textAt_eq]
  by_cases hloose : e.precedence < least
  · rw [if_pos hloose]
    refine ⟨_, by simpa using hreads.group, ?_⟩
    have hgroup := Derives.group (hderives.loosen (Nat.zero_le _))
    exact hgroup.loosen (show least - 1 ≤ 10 by omega)
  · rw [if_neg hloose]
    exact ⟨tokens, hreads, hderives.loosen (by omega)⟩

theorem readsBack_name {name : String} (h : IsName ["true", "false"] name) :
    ReadsBack (.var name) := by
  obtain ⟨first, parts, hparts, hfirst, rfl⟩ := h
  have htruth : ∀ b, first ≠ Statement.truthText b := by
    rintro b rfl
    cases b <;> simp [Statement.truthText] at hfirst
  exact ⟨_, reads_name hparts, .name htruth (dotted_dottedTokens first parts)⟩

/-- Digits are a literal. -/
theorem exists_reads_nat {n : Nat} (hn : n < 2 ^ 63) :
    ∃ tokens, Reads (toString n).toList tokens ∧
      Derives Grammar.levels.length tokens (.num (Int64.ofNat n)) := by
  obtain ⟨c, cs, htext, hdigits, hvalue⟩ := exists_digits n
  rw [htext]
  refine ⟨_, reads_integer hdigits, .integer ?_ hn⟩
  rw [hvalue]

/-- A literal is read as itself, or as the negation of its opposite. -/
theorem readsBack_num {n : Int64} (h : Int64.minValue < n) : ReadsBack (.num n) := by
  have htext : (Expr.num n).text = toString n.toInt := rfl
  have hmin : -2 ^ 63 < n.toInt := by simpa [Int64.lt_iff_toInt_lt] using h
  have hmax : n.toInt < 2 ^ 63 := n.toInt_lt
  rw [ReadsBack, htext, Expr.reread]
  by_cases hneg : n < 0
  · have hvalue : n.toInt < 0 := by simpa [Int64.lt_iff_toInt_lt] using hneg
    obtain ⟨m, hm⟩ : ∃ m : Nat, n.toInt = Int.negSucc m := Int.eq_negSucc_of_lt_zero hvalue
    obtain ⟨tokens, hreads, hderives⟩ := exists_reads_nat (n := m + 1) (by omega)
    obtain ⟨joint, hminus⟩ := hreads.punct (c := '-') (by decide) (by decide) (by decide)
    have hnegate : Int64.ofNat (m + 1) = -n := by
      rw [← Int64.ofInt_toInt n, hm, ← Int64.ofInt_neg]
      rfl
    have hsign : (toString (Int.negSucc m)).toList = '-' :: (toString (m + 1)).toList := by
      have hspell : toString (Int.negSucc m) = "-" ++ toString (m + 1) := rfl
      rw [hspell, String.toList_append]
      rfl
    rw [if_pos hneg, hm, hsign, ← hnegate]
    exact ⟨_, hminus, .unary joint rfl hderives⟩
  · have hvalue : 0 ≤ n.toInt := by simpa [Int64.lt_iff_toInt_lt] using hneg
    obtain ⟨m, hm⟩ : ∃ m : Nat, n.toInt = m := Int.eq_ofNat_of_zero_le hvalue
    have hsame : Int64.ofNat m = n := by
      rw [← Int64.ofInt_toInt n, hm]
      rfl
    obtain ⟨tokens, hreads, hderives⟩ := exists_reads_nat (n := m) (by omega)
    rw [if_neg hneg, hm, ← hsame]
    exact ⟨tokens, hreads, hderives⟩

theorem readsBack_unary {op : UnaryOp} (h : ReadsBack e) : ReadsBack (.unary op e) := by
  obtain ⟨tokens, hreads, hderives⟩ := h.textAt (le_refl 11)
  obtain ⟨c, hsymbol, hvisible, hc, hquote⟩ :
      ∃ c, op.symbol.toList = [c] ∧ Visible c ∧ c ∈ punctuation ∧ c ≠ '\'' := by
    cases op <;> exact ⟨_, rfl, by decide, by decide, by decide⟩
  obtain ⟨joint, hpunct⟩ := hreads.punct hvisible hc hquote
  have htext : (Expr.unary op e).text.toList = c :: (e.textAt 11).toList := by
    rw [Expr.text, Expr.textAt, if_neg (Nat.not_lt_zero _)]
    simp [hsymbol, UnaryOp.precedence]
  rw [ReadsBack, htext]
  exact ⟨_, hpunct, .unary joint hsymbol hderives⟩

theorem readsBack_binary {op : BinaryOp} {a b : Expr} (ha : ReadsBack a) (hb : ReadsBack b) :
    ReadsBack (.binary op a b) := by
  have hle := Grammar.precedence_le op
  obtain ⟨n, hn⟩ : ∃ n, op.precedence = n + 1 := ⟨op.precedence - 1, by cases op <;> rfl⟩
  obtain ⟨ops, hlevel, hop⟩ := Grammar.mem_level_iff.mpr hn
  obtain ⟨s, hs, hleft⟩ := ha.textAt (show op.precedence ≤ 11 by omega)
  obtain ⟨t, ht, hright⟩ := hb.textAt (show op.precedence + 1 ≤ 11 by omega)
  have htext : (Expr.binary op a b).text.toList = (a.textAt op.precedence).toList ++
      ' ' :: (op.symbol.toList ++ ' ' :: (b.textAt (op.precedence + 1)).toList) := by
    rw [Expr.text, Expr.textAt, if_neg (Nat.not_lt_zero _)]
    simp
  have hlevel' : min (Expr.binary op a b).precedence 11 - 1 = n := by
    change min op.precedence 11 - 1 = n
    omega
  rw [hn] at hleft hright
  rw [ReadsBack, htext, hlevel']
  rcases op.symbol_cases with ⟨c, hsymbol, hc, hquote⟩ |
    ⟨c, d, hsymbol, ⟨hc, hquote, hslash⟩, hd, hquote', hslash'⟩
  · rw [hsymbol]
    refine ⟨_, hs.single ht hc hquote, ?_⟩
    have hspells : Spells op [.punct c false] t := .single false t hsymbol (by simp)
    simpa [Expr.reread] using Derives.binary hlevel hop hleft hspells hright
  · rw [hsymbol]
    refine ⟨_, hs.pair ht hc hquote hslash hd hquote' hslash', ?_⟩
    have hspells : Spells op [.punct c true, .punct d false] t := .pair false t hsymbol
    simpa [Expr.reread] using Derives.binary hlevel hop hleft hspells hright

/-- The text of an expression is a sentence of the grammar. -/
theorem readsBack (h : e.Printable) : ReadsBack e := by
  induction e with
  | num n => exact readsBack_num h
  | var name => exact readsBack_name h
  | unary op e ih => exact readsBack_unary (ih h)
  | binary op a b iha ihb => exact readsBack_binary (iha h.1) (ihb h.2)

end Expressions

section Statements

open Lexer

/-- No token ends a statement. -/
def Unended (tokens : List Token) : Prop := ∀ joint, Token.punct ';' joint ∉ tokens

theorem Unended.append {s t : List Token} (hs : Unended s) (ht : Unended t) : Unended (s ++ t) :=
  fun joint hmem => (List.mem_append.mp hmem).elim (hs joint) (ht joint)

theorem unended_dottedTokens (parts : List String) : Unended (dottedTokens parts) := by
  intro joint hmem
  simp [dottedTokens] at hmem

theorem unended_numberTokens (negative joint : Bool) (l : Literal) :
    Unended (numberTokens negative joint l) := by
  intro joint' hmem
  cases negative <;> simp [numberTokens] at hmem

/-- A sentence of the grammar is no end of a statement. -/
theorem unended_of_derives {n : Nat} {tokens : List Token} {e : Expr} (h : Derives n tokens e) :
    Unended tokens := by
  induction h with
  | @binary n ops op left spelling right a b hlevel hop ha hspelling hb iha ihb =>
    refine (iha.append ?_).append ihb
    have hfree : ';' ∉ op.symbol.toList := by cases op <;> decide
    intro joint hmem
    cases hspelling with
    | pair j right hsymbol =>
      rw [hsymbol] at hfree
      simp only [List.mem_cons, Token.punct.injEq, List.not_mem_nil, or_false] at hmem hfree
      exact hfree (hmem.imp And.left And.left)
    | single j right hsymbol =>
      rw [hsymbol] at hfree
      simp only [List.mem_singleton, Token.punct.injEq] at hmem hfree
      exact hfree hmem.1
  | tighter hlevel he ih => exact ih
  | @unary op c tokens e j hop he ih =>
    intro joint hmem
    rcases List.mem_cons.mp hmem with heq | hmem
    · cases heq
      cases op <;> simp [UnaryOp.symbol] at hop
    · exact ih joint hmem
  | integer | truth | group => simp [Unended]
  | @name first full more hfirst hmore =>
    clear hfirst
    intro joint hmem
    induction hmore with
    | done name => simp at hmem
    | more j hrest ih => exact ih (by simpa using hmem)

/-- A name is read wherever nothing continues it. -/
theorem IsName.exists_reads {avoid : List String} {name : String} (h : IsName avoid name) :
    ∃ first more, first ∉ avoid ∧ Reads name.toList (.ident first :: more) ∧
      Unended (.ident first :: more) ∧
      ∀ rest, (∀ joint part after, rest ≠ .punct '.' joint :: .ident part :: after) →
        Grammar.parseName (.ident first :: (more ++ rest)) = .ok (name, rest) := by
  obtain ⟨first, parts, hparts, hfirst, rfl⟩ := h
  refine ⟨first, dottedTokens parts, hfirst, reads_name hparts, ?_, fun rest hrest => ?_⟩
  · have hhead : Unended [.ident first] := by simp [Unended]
    exact hhead.append (unended_dottedTokens parts)
  · rw [Grammar.parseName, (dotted_dottedTokens first parts).moreName hrest]

theorem ne_assert {first : String} {tokens : List Token} (h : first ∉ ["assert"]) (t : Token)
    (rest : List Token) : .ident first :: tokens ≠ .ident "assert" :: t :: rest := by
  intro heq
  cases heq
  exact h List.mem_cons_self

theorem numberTokens_ne_dot (negative joint : Bool) (l : Literal) (joint' : Bool) (part : String)
    (after : List Token) :
    numberTokens negative joint l ≠ .punct '.' joint' :: .ident part :: after := by
  cases negative <;> simp [numberTokens]

/-- The text of a statement, but for its end, is read as the statement. -/
def ReadsStatement (s : Statement Float) : Prop :=
  ∃ body tokens, s.source.toList = body ++ [';'] ∧ Reads body tokens ∧ Unended tokens ∧
    Program.parseStatement tokens = .ok s.reread

theorem readsStatement_weight {var : String} {value : Float} (hvar : IsName ["assert"] var)
    (hfinite : value.isFinite = true) (hread : readFloat? (plainText value) = some value) :
    ReadsStatement (.weight var value) := by
  obtain ⟨first, more, hfirst, hreads, hfree, hname⟩ := hvar.exists_reads
  obtain ⟨negative, joint, l, hnumber, hparse⟩ := exists_reads_plainText hfinite hread
  refine ⟨_, _, ?_, hreads.append hnumber, hfree.append (unended_numberTokens _ _ _), ?_⟩
  · simp [Statement.source, Statement.text]
  · have hgrammar : Grammar.parseStatement (.ident first ::
        (more ++ numberTokens negative joint l)) = .ok (.weight var value) := by
      rw [Grammar.parseStatement.eq_2 _ (ne_assert hfirst),
        hname _ (numberTokens_ne_dot negative joint l)]
      cases negative <;> exact bind_eq_ok.mpr ⟨_, rfl, bind_eq_ok.mpr ⟨(value, []), hparse, rfl⟩⟩
    rw [List.cons_append, Program.parseStatement, hgrammar]
    simp [Statement.isFinite, hfinite, Statement.reread]

theorem readsStatement_strength {a b : String} {value : Float} (ha : IsName ["assert"] a)
    (hb : IsName [] b) (hfinite : value.isFinite = true)
    (hread : readFloat? (plainText value) = some value) :
    ReadsStatement (.strength a b value) := by
  obtain ⟨first, more, hfirst, hreads, hfree, hname⟩ := ha.exists_reads
  obtain ⟨first', more', -, hreads', hfree', hname'⟩ := hb.exists_reads
  obtain ⟨negative, joint, l, hnumber, hparse⟩ := exists_reads_plainText hfinite hread
  refine ⟨_, _, ?_, hreads.append (hreads'.append hnumber),
    hfree.append (hfree'.append (unended_numberTokens _ _ _)), ?_⟩
  · simp [Statement.source, Statement.text]
  · have hgrammar : Grammar.parseStatement (.ident first ::
        (more ++ .ident first' :: (more' ++ numberTokens negative joint l))) =
        .ok (.strength a b value) := by
      rw [Grammar.parseStatement.eq_2 _ (ne_assert hfirst), hname _ (by simp)]
      have hsecond := hname' _ (numberTokens_ne_dot negative joint l)
      exact bind_eq_ok.mpr ⟨_, rfl, bind_eq_ok.mpr ⟨_, hsecond,
        bind_eq_ok.mpr ⟨(value, []), hparse, rfl⟩⟩⟩
    rw [List.cons_append, List.cons_append, Program.parseStatement, hgrammar]
    simp [Statement.isFinite, hfinite, Statement.reread]

theorem readsStatement_chain {a b : String} (ha : IsName ["assert"] a) (hb : IsName [] b) :
    ReadsStatement (.chain a b) := by
  obtain ⟨first, more, hfirst, hreads, hfree, hname⟩ := ha.exists_reads
  obtain ⟨first', more', -, hreads', hfree', hname'⟩ := hb.exists_reads
  have hequals : Unended [.punct '=' false] := by simp [Unended]
  refine ⟨_, _, ?_, hreads.single (c := '=') hreads' (by decide) (by decide),
    hfree.append (hequals.append hfree'), ?_⟩
  · simp [Statement.source, Statement.text]
  · have hgrammar : Grammar.parseStatement (.ident first ::
        (more ++ .punct '=' false :: .ident first' :: more')) = .ok (.chain a b) := by
      rw [Grammar.parseStatement.eq_2 _ (ne_assert hfirst), hname _ (by simp)]
      have hsecond := hname' [] (by simp)
      rw [List.append_nil] at hsecond
      exact bind_eq_ok.mpr ⟨_, rfl, bind_eq_ok.mpr ⟨_, hsecond, rfl⟩⟩
    rw [List.cons_append, Program.parseStatement, hgrammar]
    simp [Statement.isFinite, Statement.reread]

theorem readsStatement_pin {var : String} (value : Bool) (hvar : IsName ["assert"] var) :
    ReadsStatement (.pin var value) := by
  obtain ⟨first, more, hfirst, hreads, hfree, hname⟩ := hvar.exists_reads
  have htruth : Reads (Statement.truthText value).toList [.ident (Statement.truthText value)] := by
    have hword : Text.isIdent (Statement.truthText value).toList = true := by
      cases value <;> decide
    simpa using reads_word hword
  have hends : Unended [.punct ':' true, .punct '=' false, .ident (Statement.truthText value)] := by
    simp [Unended]
  refine ⟨_, _, ?_, hreads.pair (c := ':') (d := '=') htruth (by decide) (by decide) (by decide)
    (by decide) (by decide) (by decide), hfree.append hends, ?_⟩
  · simp [Statement.source, Statement.text]
  · have hgrammar : Grammar.parseStatement (.ident first :: (more ++
        [.punct ':' true, .punct '=' false, .ident (Statement.truthText value)])) =
        .ok (.pin var value) := by
      rw [Grammar.parseStatement.eq_2 _ (ne_assert hfirst), hname _ (by simp)]
      cases value <;> rfl
    rw [List.cons_append, Program.parseStatement, hgrammar]
    simp [Statement.isFinite, Statement.reread]

theorem readsStatement_assert {e : Expr} (h : e.Printable) : ReadsStatement (.assert e) := by
  obtain ⟨tokens, hreads, hderives⟩ := (readsBack h).textAt (Nat.zero_le 11)
  have hident : Text.isIdent "assert".toList = true := by decide
  have hword : Reads "assert".toList [.ident "assert"] := by simpa using reads_word hident
  have hends : Unended [.ident "assert"] := by simp [Unended]
  refine ⟨_, _, ?_, hword.append hreads, hends.append (unended_of_derives hderives), ?_⟩
  · simp [Statement.source, Statement.text, Expr.text]
  · obtain ⟨t, rest, rfl⟩ := List.exists_cons_of_ne_nil hderives.ne_nil
    have hgrammar : Grammar.parseStatement (.ident "assert" :: t :: rest) =
        .ok (.assert e.reread) := by
      rw [Grammar.parseStatement, Grammar.parseWholeExpr_eq_ok.mpr hderives]
      rfl
    rw [List.singleton_append, Program.parseStatement, hgrammar]
    rfl

/-- Every statement with printable parts is read back. -/
theorem readsStatement {s : Statement Float} (h : s.Printable)
    (hread : ∀ x ∈ s.coefficient?, readFloat? (plainText x) = some x) : ReadsStatement s := by
  cases s with
  | weight var value => exact readsStatement_weight h.1 h.2 (hread value rfl)
  | strength a b value => exact readsStatement_strength h.1 h.2.1 h.2.2 (hread value rfl)
  | chain a b => exact readsStatement_chain h.1 h.2
  | pin var value => exact readsStatement_pin value h
  | assert e => exact readsStatement_assert h

end Statements

section Programs

open Lexer

/-- A semicolon ends the statement that has been gathered. -/
theorem splitStatements_append {tokens rest : List Token} {statements : List (List Token)}
    {joint : Bool} (hfree : Unended tokens) {current : List Token} (hne : current ++ tokens ≠ [])
    (hrest : Grammar.splitStatements [] rest = .ok statements) :
    Grammar.splitStatements current.reverse (tokens ++ .punct ';' joint :: rest) =
      .ok ((current ++ tokens) :: statements) := by
  induction tokens generalizing current with
  | nil =>
    rw [List.append_nil] at hne
    simp [Grammar.splitStatements, hne, hrest]
  | cons t tokens ih =>
    have hstep : Grammar.splitStatements current.reverse
        (t :: (tokens ++ .punct ';' joint :: rest)) =
        Grammar.splitStatements (t :: current.reverse) (tokens ++ .punct ';' joint :: rest) := by
      rw [Grammar.splitStatements]
      rintro joint' rfl
      exact hfree joint' List.mem_cons_self
    have htail := ih (fun joint' hmem => hfree joint' (List.mem_cons_of_mem _ hmem))
      (show (current ++ [t]) ++ tokens ≠ [] by simp)
    rw [List.reverse_append, List.append_assoc] at htail
    rw [List.cons_append, hstep]
    exact htail

/-- The text of a program is the tokens of its statements. -/
theorem exists_lexes_source {program : Program Float}
    (h : ∀ s ∈ program, ReadsStatement s) :
    ∃ tokens statements, Lexes (Program.source program).toList (lexemesOf tokens) ∧
      Grammar.splitStatements [] tokens = .ok statements ∧
      statements.mapM Program.parseStatement = .ok (program.map Statement.reread) := by
  induction program with
  | nil => exact ⟨[], [], lexes_nil, rfl, rfl⟩
  | cons s program ih =>
    obtain ⟨tokens, statements, hlexes, hsplit, hparse⟩ :=
      ih fun s' hs' => h s' (List.mem_cons_of_mem _ hs')
    obtain ⟨body, used, hbody, hreads, hfree, hstatement⟩ := h s List.mem_cons_self
    have hne : used ≠ [] := by
      rintro rfl
      cases hstatement
    have hend := hlexes.punct (c := ';') (by decide) (by decide) (.inl (by decide))
    have htext : (Program.source (s :: program)).toList =
        s.source.toList ++ (Program.source program).toList := by
      simp [Program.source, String.toList_join]
    refine ⟨used ++ .punct ';' (startsPunct (Program.source program).toList) :: tokens,
      used :: statements, ?_, splitStatements_append hfree (show [] ++ used ≠ [] from hne) hsplit,
      ?_⟩
    · have hwhole := hreads.lexes _ _ ⟨';', _, rfl, by decide⟩ hend
      rw [htext, hbody]
      simpa [lexemesOf_append, lexemesOf, tokenLexemes] using hwhole
    · rw [List.mapM_cons, hstatement, hparse]
      rfl

/-- A program that is written out reads back as itself, but for the shape of negative literals, and
these keep their values. The names are names that the grammar cannot take for words of its own, the
coefficients are finite, and their digits read back to them. -/
theorem Program.parse_source {program : Program Float} (hprintable : ∀ s ∈ program, s.Printable)
    (hread : ∀ s ∈ program, ∀ x ∈ s.coefficient?, readFloat? (plainText x) = some x) :
    Program.parse (Program.source program) = .ok (program.map Statement.reread) ∧
      ∀ (e : Expr) (env : String → Option Bool), e.reread.eval env = e.eval env := by
  refine ⟨?_, Expr.eval_reread⟩
  have hstatements : ∀ s ∈ program, ReadsStatement s := fun s hs =>
    readsStatement (hprintable s hs) (hread s hs)
  obtain ⟨tokens, statements, hlexes, hsplit, hparse⟩ := exists_lexes_source hstatements
  have hstart : ∀ tail, (Program.source program).toList ≠ '\uFEFF' :: tail := by
    intro tail heq
    cases program with
    | nil => cases heq
    | cons s program =>
      obtain ⟨body, used, hbody, hreads, -, -⟩ := hstatements s List.mem_cons_self
      obtain ⟨c, cs, rfl, hc⟩ := hreads.starts
      simp [Program.source, String.toList_join, hbody] at heq
      exact hc.2.2 heq.1
  have htokens := tokens?_of_lexes hstart hlexes
  simp only [Program.parse, htokens, Program.ofTokens, hsplit, hparse]

/-- Five statements, with a coefficient that no binary fraction equals and a negative literal. -/
theorem Program.parse_source_negatedLiteral :
    Program.parse "a.b -0.1;x assert 1.5;x = y;a.b := true;assert x - !(-3 < y);" =
      .ok [.weight "a.b" (-0.1), .strength "x" "assert" 1.5, .chain "x" "y", .pin "a.b" true,
        .assert (.binary .sub (.var "x")
          (.unary .not (.binary .lt (.unary .neg (.num 3)) (.var "y"))))] := by
  obtain ⟨program, hprogram⟩ : ∃ program : Program Float, program =
      [.weight "a.b" (-0.1), .strength "x" "assert" 1.5, .chain "x" "y", .pin "a.b" true,
        .assert (.binary .sub (.var "x")
          (.unary .not (.binary .lt (.num (-3)) (.var "y"))))] := ⟨_, rfl⟩
  have hprintable : ∀ s ∈ program, s.Printable := by
    have hword {avoid : List String} {name : String} (hident : Text.isIdent name.toList = true)
        (hname : name ∉ avoid) : IsName avoid name := ⟨name, [], by simpa using hident, hname, rfl⟩
    have hdotted : IsName ["assert"] "a.b" := ⟨"a", ["b"], by decide, by decide, rfl⟩
    have hx : IsName ["assert"] "x" := hword (by decide) (by decide)
    have hx' : IsName ["true", "false"] "x" := hword (by decide) (by decide)
    have hy : IsName ["true", "false"] "y" := hword (by decide) (by decide)
    have hsecond : IsName [] "assert" ∧ IsName [] "y" :=
      ⟨hword (by decide) (by decide), hword (by decide) (by decide)⟩
    have hfinite : (-0.1 : Float).isFinite = true ∧ (1.5 : Float).isFinite = true := by
      decide +kernel
    have hliteral : Int64.minValue < -3 := by decide
    simp only [hprogram, List.forall_mem_cons, Statement.Printable, Expr.Printable]
    exact ⟨⟨hdotted, hfinite.1⟩, ⟨hx, hsecond.1, hfinite.2⟩, ⟨hx, hsecond.2⟩, hdotted,
      ⟨hx', hliteral, hy⟩, by simp⟩
  have hread : ∀ s ∈ program, ∀ x ∈ s.coefficient?, readFloat? (plainText x) = some x := by
    have hvalues : readFloat? (plainText (-0.1)) = some (-0.1) ∧
        readFloat? (plainText 1.5) = some 1.5 := by decide +kernel
    simp [hprogram, Statement.coefficient?, hvalues]
  have htext : Program.source program =
      "a.b -0.1;x assert 1.5;x = y;a.b := true;assert x - !(-3 < y);" := by
    rw [hprogram]
    decide +kernel
  have h := (Program.parse_source hprintable hread).1
  rw [htext, hprogram] at h
  exact h

end Programs

end SpinGlass

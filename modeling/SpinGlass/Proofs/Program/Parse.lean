import SpinGlass.Proofs.Program.Layers
import SpinGlass.Proofs.Success

/-!
# Parsing assertions

The parser climbs binding strengths where the grammar has layers. It reads a list of tokens exactly
if the grammar derives it, and builds the tree of the derivation. Every call of the parser uses up
tokens, so its fuel never runs out.
-/

namespace SpinGlass.Grammar

/-- The operator at the head of the tokens, if there is one, binds looser than `bound`. -/
def OpBelow (bound : Nat) (tokens : List Token) : Prop :=
  ∀ op right, infixOp? tokens = some (op, right) → op.precedence < bound

section Unfolding

variable {fuel least : Nat} {lhs e : Expr} {tokens rest : List Token}

theorem opBelow_of_le {bound : Nat} (hbound : 11 ≤ bound) : OpBelow bound tokens :=
  fun op _ _ => (Nat.lt_succ_of_le (precedence_le op)).trans_le hbound

/-- An expression is an operand and what continues it. -/
theorem parseExpr_succ : parseExpr (fuel + 1) least tokens =
    parsePrefix fuel tokens >>= fun (lhs, rest) => parseInfix fuel least lhs rest := rfl

/-- An expression ends where no operator binds tight enough. -/
theorem parseInfix_of_opBelow (h : OpBelow least tokens) :
    parseInfix (fuel + 1) least lhs tokens = .ok (lhs, tokens) := by
  unfold parseInfix
  cases hop : infixOp? tokens with
  | none => rfl
  | some found =>
    obtain ⟨op, right⟩ := found
    simp [h op right hop]

/-- An operator that binds tight enough continues an expression. -/
theorem parseInfix_of_infixOp? {op : BinaryOp} {right : List Token}
    (hop : infixOp? tokens = some (op, right)) (hleast : least ≤ op.precedence) :
    parseInfix (fuel + 1) least lhs tokens =
      parseExpr fuel (op.precedence + 1) right >>= fun (rhs, rest) =>
        parseInfix fuel least (.binary op lhs rhs) rest := by
  rw [parseInfix, hop]
  simp only [Nat.not_lt.mpr hleast, if_false]

/-- An expression either ends or goes on with an operator. -/
theorem parseInfix_eq_ok (h : parseInfix (fuel + 1) least lhs tokens = .ok (e, rest)) :
    (OpBelow least tokens ∧ e = lhs ∧ rest = tokens) ∨
      ∃ op right rhs between, infixOp? tokens = some (op, right) ∧ least ≤ op.precedence ∧
        parseExpr fuel (op.precedence + 1) right = .ok (rhs, between) ∧
        parseInfix fuel least (.binary op lhs rhs) between = .ok (e, rest) := by
  by_cases hend : OpBelow least tokens
  · rw [parseInfix_of_opBelow hend] at h
    cases h
    exact .inl ⟨hend, rfl, rfl⟩
  · simp only [OpBelow, not_forall, Nat.not_lt] at hend
    obtain ⟨op, right, hop, hleast⟩ := hend
    rw [parseInfix_of_infixOp? hop hleast] at h
    obtain ⟨⟨rhs, between⟩, hrhs, h⟩ := bind_eq_ok.mp h
    exact .inr ⟨op, right, rhs, between, hop, hleast, hrhs, h⟩

/-- A prefix operator stands before an operand. -/
theorem parsePrefix_unary {op : UnaryOp} {c : Char} {joint : Bool} (hop : op.symbol.toList = [c]) :
    parsePrefix (fuel + 1) (.punct c joint :: tokens) =
      parseExpr fuel UnaryOp.precedence tokens >>= fun (e, rest) => .ok (.unary op e, rest) := by
  cases op <;> simp [UnaryOp.symbol] at hop <;> obtain rfl := hop <;> rfl

/-- An integer literal in range is read. -/
theorem parseInteger_eq_ok {l : Literal} :
    parseInteger l = .ok e ↔ ∃ n, l.value = .integer n ∧ n < 2 ^ 63 ∧ e = .num (Int64.ofNat n) := by
  unfold parseInteger
  rw [show UInt64.size / 2 = 2 ^ 63 from rfl]
  cases l.value with
  | integer n =>
    simp only
    by_cases hn : n < 2 ^ 63
    · rw [if_pos hn]
      simp only [Except.ok.injEq, LiteralValue.integer.injEq, exists_eq_left', hn, true_and,
        eq_comm]
    · rw [if_neg hn]
      simp only [reduceCtorEq, LiteralValue.integer.injEq, exists_eq_left', hn, false_and]
  | decimal | other => simp

end Unfolding

section Soundness

/-- What the parser reads, the grammar derives. The three parts go by recursion on the fuel: an
expression, its continuation after a left operand of level `n`, and an operand. -/
theorem derives_of_parse (fuel : Nat) :
    (∀ least tokens e rest, least ≤ 11 → parseExpr fuel least tokens = .ok (e, rest) →
      ∃ used, tokens = used ++ rest ∧ Derives (least - 1) used e ∧ OpBelow least rest) ∧
    (∀ least n lhs left tokens e rest, least ≤ n + 1 → Derives n left lhs →
      OpBelow (n + 2) tokens → parseInfix fuel least lhs tokens = .ok (e, rest) →
      ∃ used, tokens = used ++ rest ∧ Derives (least - 1) (left ++ used) e ∧
        OpBelow least rest) ∧
    ∀ tokens e rest, parsePrefix fuel tokens = .ok (e, rest) →
      ∃ used, tokens = used ++ rest ∧ Derives levels.length used e := by
  induction fuel with
  | zero =>
    refine ⟨fun _ _ _ _ _ h => ?_, fun _ _ _ _ _ _ _ _ _ _ h => ?_, fun _ _ _ h => ?_⟩
    · simp [parseExpr] at h
    · simp [parseInfix] at h
    · simp [parsePrefix] at h
  | succ fuel ih =>
    obtain ⟨ihExpr, ihInfix, ihPrefix⟩ := ih
    refine ⟨fun least tokens e rest hleast h => ?_,
      fun least n lhs left tokens e rest hleast hlhs hbelow h => ?_, fun tokens e rest h => ?_⟩
    · rw [parseExpr_succ] at h
      obtain ⟨⟨lhs, between⟩, hprefix, hinfix⟩ := bind_eq_ok.mp h
      obtain ⟨left, rfl, hlhs⟩ := ihPrefix _ _ _ hprefix
      obtain ⟨used, rfl, hused, hrest⟩ := ihInfix least levels.length lhs left between e rest
        hleast hlhs (opBelow_of_le (by decide)) hinfix
      exact ⟨left ++ used, (List.append_assoc ..).symm, hused, hrest⟩
    · rcases parseInfix_eq_ok h with ⟨hend, rfl, rfl⟩ | 
          ⟨op, right, rhs, between, hop, hop', hrhs, hinfix⟩
      · exact ⟨[], rfl, by simpa using hlhs.loosen (Nat.sub_le_of_le_add hleast), hend⟩
      · obtain ⟨spelling, rfl, hspelling⟩ := exists_spells_of_infixOp? hop
        have hle := precedence_le op
        have hpos : 1 ≤ op.precedence := by cases op <;> decide
        obtain ⟨k, hk⟩ : ∃ k, op.precedence = k + 1 := ⟨op.precedence - 1, by omega⟩
        obtain ⟨ops, hops, hmem⟩ := mem_level_iff.mpr hk
        obtain ⟨used, rfl, hused, hbetween⟩ := ihExpr _ _ _ _ (by omega) hrhs
        have hloose := hbelow op _ hop
        have hspelling := (spells_append hused.ne_nil).mp hspelling
        -- the new left operand is of the level of its operator
        have hbinary : Derives k (left ++ spelling ++ used) (.binary op lhs rhs) := by
          refine .binary hops hmem (hlhs.loosen (by omega)) hspelling ?_
          simpa [hk] using hused
        obtain ⟨more, rfl, hmore, hrest⟩ := ihInfix least k _ _ _ _ _ (by omega) hbinary
          (by simpa [hk] using hbetween) hinfix
        exact ⟨spelling ++ used ++ more, by simp, by simpa using hmore, hrest⟩
    · unfold parsePrefix at h
      split at h
      · cases h
      · next joint rest' =>
        obtain ⟨⟨operand, between⟩, hoperand, h⟩ := bind_eq_ok.mp h
        cases h
        obtain ⟨used, rfl, hused, _⟩ := ihExpr _ _ _ _ le_rfl hoperand
        exact ⟨_ :: used, rfl, .unary joint (by simp [UnaryOp.symbol]) hused⟩
      · next joint rest' =>
        obtain ⟨⟨operand, between⟩, hoperand, h⟩ := bind_eq_ok.mp h
        cases h
        obtain ⟨used, rfl, hused, _⟩ := ihExpr _ _ _ _ le_rfl hoperand
        exact ⟨_ :: used, rfl, .unary joint (by simp [UnaryOp.symbol]) hused⟩
      · next inner rest' =>
        obtain ⟨⟨operand, after⟩, hoperand, h⟩ := bind_eq_ok.mp h
        obtain ⟨whole, hend, h⟩ := bind_eq_ok.mp h
        cases h
        obtain ⟨used, rfl, hused, _⟩ := ihExpr _ _ _ _ (Nat.zero_le _) hoperand
        cases after with
        | nil =>
          cases hend
          exact ⟨[_], rfl, by simpa using Derives.group hused⟩
        | cons t after => cases hend
      · cases h
        exact ⟨[_], rfl, .truth true⟩
      · cases h
        exact ⟨[_], rfl, .truth false⟩
      · next name rest' htrue hfalse =>
        cases h
        obtain ⟨more, hrest, hmore⟩ := exists_dotted name rest'
        refine ⟨.ident name :: more, by rw [List.cons_append, ← hrest], .name (fun b => ?_) hmore⟩
        cases b
        · exact hfalse
        · exact htrue
      · next l rest' =>
        obtain ⟨whole, hinteger, h⟩ := bind_eq_ok.mp h
        cases h
        obtain ⟨n, hvalue, hn, rfl⟩ := parseInteger_eq_ok.mp hinteger
        exact ⟨[_], rfl, .integer hvalue hn⟩
      · cases h

end Soundness

section Completeness

/-- Tokens that may follow an expression of level `n`: none, or an operator that binds no
tighter. -/
def Follows (n : Nat) (rest : List Token) : Prop :=
  rest = [] ∨ ∃ op right, infixOp? rest = some (op, right) ∧ op.precedence ≤ n + 1

theorem Follows.mono {m n : Nat} {rest : List Token} (h : Follows m rest) (hmn : m ≤ n) :
    Follows n rest :=
  h.imp id fun ⟨op, right, hop, hle⟩ => ⟨op, right, hop, by omega⟩

theorem Follows.opBelow {n : Nat} {rest : List Token} (h : Follows n rest) :
    OpBelow (n + 2) rest := by
  intro op right hop
  rcases h with rfl | ⟨op', right', hop', hle⟩
  · cases hop
  · rw [hop'] at hop
    cases hop
    omega

/-- What follows an expression does not continue a name. -/
theorem Follows.ne_dot {n : Nat} {rest : List Token} (h : Follows n rest) (joint : Bool)
    (part : String) (after : List Token) : rest ≠ .punct '.' joint :: .ident part :: after := by
  rintro rfl
  rcases h with h | ⟨op, right, hop, _⟩
  · cases h
  · cases hop

/-- The parser reads an operand before anything that may follow. -/
theorem parsePrefix_name {fuel : Nat} {first full : String} {more rest : List Token}
    (hfirst : ∀ b, first ≠ Statement.truthText b) (hmore : Dotted first more full)
    (hrest : Follows levels.length rest) :
    parsePrefix (fuel + 1) (.ident first :: more ++ rest) = .ok (.var full, rest) := by
  have htrue : first ≠ "true" := hfirst true
  have hfalse : first ≠ "false" := hfirst false
  rw [List.cons_append, parsePrefix]
  · rw [hmore.moreName hrest.ne_dot]
  · rintro rfl
    exact htrue rfl
  · rintro rfl
    exact hfalse rfl

/-- The parser gets past what the grammar derives: it is left with the tree as its left operand, and
with at least the fuel that the rest of the tokens asks for. -/
theorem exists_parseInfix_of_derives {n : Nat} {tokens : List Token} {e : Expr}
    (h : Derives n tokens e) (least fuel : Nat) (rest : List Token) (hleast : least ≤ n + 1)
    (hrest : Follows n rest) (hfuel : 2 * tokensWeight tokens + 1 ≤ fuel) :
    ∃ left, fuel + 1 ≤ left + 2 * tokensWeight tokens ∧
      parseExpr fuel least (tokens ++ rest) = parseInfix left least e rest := by
  induction h generalizing least fuel rest with
  | @binary n ops op left spelling right a b hlevel hop ha hspelling hb iha ihb =>
    have hprec := mem_level_iff.mp ⟨ops, hlevel, hop⟩
    have hone := one_le_tokensWeight hspelling.ne_nil
    simp only [tokensWeight_append] at hfuel ⊢
    have hfound : infixOp? (spelling ++ (right ++ rest)) = some (op, right ++ rest) :=
      infixOp?_of_spells ((spells_append hb.ne_nil).mpr hspelling)
    have hfollows : Follows n (spelling ++ (right ++ rest)) :=
      .inr ⟨op, _, hfound, hprec.le⟩
    obtain ⟨fuel₁, hfuel₁, ha⟩ := iha least fuel _ hleast hfollows (by omega)
    obtain ⟨fuel₁, rfl⟩ : ∃ k, fuel₁ = k + 1 := ⟨fuel₁ - 1, by omega⟩
    obtain ⟨fuel₂, hfuel₂, hb⟩ := ihb (op.precedence + 1) fuel₁ rest
      (by omega) (hrest.mono (Nat.le_succ n)) (by omega)
    obtain ⟨fuel₂, rfl⟩ : ∃ k, fuel₂ = k + 1 := ⟨fuel₂ - 1, by omega⟩
    rw [parseInfix_of_opBelow (by simpa [hprec] using hrest.opBelow)] at hb
    refine ⟨fuel₁, by omega, ?_⟩
    rw [List.append_assoc, List.append_assoc, ha, parseInfix_of_infixOp? hfound (by omega), hb]
    rfl
  | tighter hlevel he ih =>
    exact ih least fuel rest (by omega) (hrest.mono (Nat.le_succ _)) hfuel
  | @unary op c tokens e joint hop he ih =>
    simp only [tokensWeight, Token.weight] at hfuel ⊢
    obtain ⟨fuel, rfl⟩ : ∃ k, fuel = k + 2 := ⟨fuel - 2, by omega⟩
    obtain ⟨left, hleft, heq⟩ := ih 11 fuel rest le_rfl hrest
      (by omega)
    obtain ⟨left, rfl⟩ : ∃ k, left = k + 1 := ⟨left - 1, by omega⟩
    rw [parseInfix_of_opBelow (opBelow_of_le le_rfl)] at heq
    refine ⟨fuel + 1, by omega, ?_⟩
    rw [parseExpr_succ, List.cons_append, parsePrefix_unary hop,
      show UnaryOp.precedence = 11 from rfl, heq]
    rfl
  | @integer l n hvalue hn =>
    simp only [tokensWeight, Token.weight] at hfuel ⊢
    obtain ⟨fuel, rfl⟩ : ∃ k, fuel = k + 2 := ⟨fuel - 2, by omega⟩
    refine ⟨fuel + 1, by omega, ?_⟩
    rw [parseExpr_succ, List.cons_append, parsePrefix,
      parseInteger_eq_ok.mpr ⟨n, hvalue, hn, rfl⟩]
    rfl
  | truth b =>
    simp only [tokensWeight, Token.weight] at hfuel ⊢
    obtain ⟨fuel, rfl⟩ : ∃ k, fuel = k + 2 := ⟨fuel - 2, by omega⟩
    refine ⟨fuel + 1, by omega, ?_⟩
    cases b <;> rfl
  | @name first full more hfirst hmore =>
    simp only [tokensWeight, Token.weight] at hfuel ⊢
    obtain ⟨fuel, rfl⟩ : ∃ k, fuel = k + 2 := ⟨fuel - 2, by omega⟩
    refine ⟨fuel + 1, by omega, ?_⟩
    rw [parseExpr_succ, parsePrefix_name hfirst hmore hrest]
    rfl
  | @group inner e he ih =>
    simp only [tokensWeight, Token.weight] at hfuel ⊢
    obtain ⟨fuel, rfl⟩ : ∃ k, fuel = k + 2 := ⟨fuel - 2, by omega⟩
    obtain ⟨left, hleft, heq⟩ := ih 0 fuel [] (Nat.zero_le _)
      (.inl rfl) (by omega)
    obtain ⟨left, rfl⟩ : ∃ k, left = k + 1 := ⟨left - 1, by omega⟩
    rw [List.append_nil, parseInfix_of_opBelow (fun _ _ hop => by cases hop)] at heq
    refine ⟨fuel + 1, by omega, ?_⟩
    rw [parseExpr_succ, List.cons_append, parsePrefix, heq]
    rfl

end Completeness

section Fuel

/-- A reading uses up tokens: an expression and an operand at least one, a continuation none or
more. -/
theorem tokensWeight_lt_of_parsePrefix {fuel : Nat} {tokens rest : List Token} {e : Expr}
    (h : parsePrefix fuel tokens = .ok (e, rest)) : tokensWeight rest < tokensWeight tokens := by
  obtain ⟨used, rfl, hused⟩ := (derives_of_parse fuel).2.2 _ _ _ h
  have hone := one_le_tokensWeight hused.ne_nil
  rw [tokensWeight_append]
  omega

theorem tokensWeight_lt_of_parseExpr {fuel least : Nat} {tokens rest : List Token} {e : Expr}
    (hleast : least ≤ 11) (h : parseExpr fuel least tokens = .ok (e, rest)) :
    tokensWeight rest < tokensWeight tokens := by
  obtain ⟨used, rfl, hused, _⟩ := (derives_of_parse fuel).1 _ _ _ _ hleast h
  have hone := one_le_tokensWeight hused.ne_nil
  rw [tokensWeight_append]
  omega

/-- With fuel for the tokens, more fuel makes no difference. -/
theorem parse_succ_fuel (fuel : Nat) :
    (∀ least tokens, least ≤ 11 → 2 * tokensWeight tokens + 2 ≤ fuel →
      parseExpr (fuel + 1) least tokens = parseExpr fuel least tokens) ∧
    (∀ least lhs tokens, 2 * tokensWeight tokens + 1 ≤ fuel →
      parseInfix (fuel + 1) least lhs tokens = parseInfix fuel least lhs tokens) ∧
    ∀ tokens, 2 * tokensWeight tokens + 1 ≤ fuel →
      parsePrefix (fuel + 1) tokens = parsePrefix fuel tokens := by
  induction fuel with
  | zero => exact ⟨by omega, by omega, by omega⟩
  | succ fuel ih =>
    obtain ⟨ihExpr, ihInfix, ihPrefix⟩ := ih
    refine ⟨fun least tokens hleast hfuel => ?_, fun least lhs tokens hfuel => ?_,
      fun tokens hfuel => ?_⟩
    · rw [parseExpr_succ, parseExpr_succ]
      refine bind_congr_ok (ihPrefix tokens (by omega)) fun ⟨lhs, rest⟩ hprefix => ?_
      have hlt := tokensWeight_lt_of_parsePrefix hprefix
      exact ihInfix least lhs rest (by omega)
    · by_cases hend : OpBelow least tokens
      · rw [parseInfix_of_opBelow hend, parseInfix_of_opBelow hend]
      · simp only [OpBelow, not_forall, Nat.not_lt] at hend
        obtain ⟨op, right, hop, hleast⟩ := hend
        rw [parseInfix_of_infixOp? hop hleast, parseInfix_of_infixOp? hop hleast]
        obtain ⟨spelling, rfl, hspelling⟩ := exists_spells_of_infixOp? hop
        have hone := one_le_tokensWeight hspelling.ne_nil
        have hle := precedence_le op
        rw [tokensWeight_append] at hfuel
        refine bind_congr_ok (ihExpr _ right (by omega) (by omega)) fun ⟨rhs, rest⟩ hrhs => ?_
        have hlt := tokensWeight_lt_of_parseExpr (by omega) hrhs
        exact ihInfix least _ rest (by omega)
    · have hprefix : ∀ rest, tokensWeight rest + 1 ≤ tokensWeight tokens →
          parseExpr (fuel + 1) UnaryOp.precedence rest = parseExpr fuel UnaryOp.precedence rest :=
        fun rest hrest => ihExpr _ rest le_rfl (by omega)
      cases tokens with
      | nil => rfl
      | cons t rest =>
        simp only [tokensWeight] at hfuel hprefix
        have hone := one_le_weight t
        have hrest := hprefix rest (by omega)
        cases t with
        | ident name =>
          by_cases htrue : name = "true"
          · rw [htrue]
            rfl
          · by_cases hfalse : name = "false"
            · rw [hfalse]
              rfl
            · rw [parsePrefix, parsePrefix] <;> simp_all
        | literal l => rfl
        | punct c joint =>
          unfold parsePrefix
          split <;> simp_all
        | group delimiter inner =>
          simp only [Token.weight] at hfuel
          cases delimiter with
          | parenthesis =>
            rw [parsePrefix, parsePrefix, ihExpr 0 inner (Nat.zero_le _) (by omega)]
          | bracket | brace => rfl

/-- With fuel for the tokens, all fuel gives one result. -/
theorem parseExpr_fuel {fuel : Nat} {least : Nat} {tokens : List Token} (hleast : least ≤ 11)
    (hfuel : 2 * tokensWeight tokens + 2 ≤ fuel) (extra : Nat) :
    parseExpr (fuel + extra) least tokens = parseExpr fuel least tokens := by
  induction extra with
  | zero => rfl
  | succ extra ih =>
    rw [← ih]
    exact (parse_succ_fuel (fuel + extra)).1 least tokens hleast (by omega)

end Fuel

/-- An expression that uses up its tokens derives from them, and the other way round. -/
theorem parseExpr_nil_iff {fuel : Nat} {tokens : List Token} {e : Expr}
    (hfuel : 2 * tokensWeight tokens + 1 ≤ fuel) :
    parseExpr fuel 0 tokens = .ok (e, []) ↔ Derives 0 tokens e := by
  constructor
  · intro h
    obtain ⟨used, rfl, hused, _⟩ := (derives_of_parse fuel).1 _ _ _ _ (Nat.zero_le _) h
    rwa [List.append_nil]
  · intro h
    obtain ⟨left, hleft, heq⟩ :=
      exists_parseInfix_of_derives h 0 fuel [] (Nat.zero_le _) (.inl rfl) hfuel
    obtain ⟨left, rfl⟩ : ∃ k, left = k + 1 := ⟨left - 1, by omega⟩
    rw [List.append_nil] at heq
    rw [heq, parseInfix_of_opBelow fun _ _ hop => by cases hop]

/-- The parser reads exactly the sentences of the grammar and returns their trees. -/
theorem parseWholeExpr_eq_ok {tokens : List Token} {e : Expr} :
    parseWholeExpr tokens = .ok e ↔ Derives 0 tokens e := by
  have hfuel : 2 * tokensWeight tokens + 1 ≤ 2 * tokensWeight tokens + 3 := by omega
  rw [← parseExpr_nil_iff hfuel]
  unfold parseWholeExpr
  constructor
  · intro h
    obtain ⟨⟨parsed, rest⟩, hparsed, h⟩ := bind_eq_ok.mp h
    cases rest with
    | nil =>
      cases h
      exact hparsed
    | cons t rest => cases h
  · intro h
    exact bind_eq_ok.mpr ⟨(e, []), h, rfl⟩

/-- The parser accepts exactly the layered grammar: a list of tokens is a sentence exactly if it is
read, the tree that is returned is the only one, and any other list ends with an error. The error is
never one of missing fuel, since more fuel makes no difference. -/
theorem parseWholeExpr_iff_derives (tokens : List Token) :
    (∀ e, parseWholeExpr tokens = .ok e ↔ Derives 0 tokens e) ∧
      {e | Derives 0 tokens e}.Subsingleton ∧
      ((∃ error, parseWholeExpr tokens = .error error) ↔ ¬ ∃ e, Derives 0 tokens e) ∧
      ∀ extra, (parseExpr (2 * tokensWeight tokens + 3 + extra) 0 tokens >>= fun (e, rest) =>
        parseEnd e rest) = parseWholeExpr tokens := by
  refine ⟨fun e => parseWholeExpr_eq_ok, fun e he e' he' => ?_, ?_, fun extra => ?_⟩
  · have hsame := (parseWholeExpr_eq_ok.mpr he).symm.trans (parseWholeExpr_eq_ok.mpr he')
    exact Except.ok.inj hsame
  · simp only [← parseWholeExpr_eq_ok]
    cases parseWholeExpr tokens <;> simp
  · rw [parseExpr_fuel (Nat.zero_le _) (by omega)]
    rfl

end SpinGlass.Grammar

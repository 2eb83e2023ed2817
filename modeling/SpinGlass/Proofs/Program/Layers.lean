import SpinGlass.Program.Grammar
import Mathlib.Tactic.Common
import Mathlib.Tactic.IntervalCases

/-!
# The layered grammar of assertions

Ten levels of infix operators, each associating to the left, above them the prefix operators, and
above these the atoms. An operator of two characters is a joint pair of punctuation characters, and
an operator of one character is read only where no such pair stands. The grammar is stated over
lists of tokens without regard to how they are parsed.
-/

namespace SpinGlass.Grammar

/-- The infix operators by level, the loosest first. -/
def levels : List (List BinaryOp) :=
  [[.or], [.and], [.bitOr], [.bitXor], [.bitAnd], [.eq, .ne], [.lt, .le, .gt, .ge], [.shl, .shr],
    [.add, .sub], [.mul, .div, .rem]]

/-- `used` are the tokens of an infix operator in front of the tokens of its right operand. -/
inductive Spells (op : BinaryOp) : (used right : List Token) → Prop
  | pair {c d : Char} (joint : Bool) (right : List Token) (hop : op.symbol.toList = [c, d]) :
      Spells op [.punct c true, .punct d joint] right
  | single {c : Char} (joint : Bool) (right : List Token) (hop : op.symbol.toList = [c])
      (hfree : joint = true → ∀ d j rest, right = .punct d j :: rest →
        ∀ pair : BinaryOp, pair.symbol.toList ≠ [c, d]) :
      Spells op [.punct c joint] right

/-- The tokens that continue a name, dots and identifiers in turn, and the whole name. -/
inductive Dotted : String → List Token → String → Prop
  | done (name : String) : Dotted name [] name
  | more {name part full : String} {rest : List Token} (joint : Bool)
      (hrest : Dotted (name ++ "." ++ part) rest full) :
      Dotted name (.punct '.' joint :: .ident part :: rest) full

/-- The tokens of an expression whose infix operators are of level `n` or tighter, and its tree.
With no level left, at `levels.length`, it is an operand. -/
inductive Derives : Nat → List Token → Expr → Prop
  | binary {n : Nat} {ops : List BinaryOp} {op : BinaryOp} {left spelling right : List Token}
      {a b : Expr} (hlevel : levels[n]? = some ops) (hop : op ∈ ops) (ha : Derives n left a)
      (hspelling : Spells op spelling right) (hb : Derives (n + 1) right b) :
      Derives n (left ++ spelling ++ right) (.binary op a b)
  | tighter {n : Nat} {tokens : List Token} {e : Expr} (hlevel : n < levels.length)
      (he : Derives (n + 1) tokens e) : Derives n tokens e
  | unary {op : UnaryOp} {c : Char} {tokens : List Token} {e : Expr} (joint : Bool)
      (hop : op.symbol.toList = [c]) (he : Derives levels.length tokens e) :
      Derives levels.length (.punct c joint :: tokens) (.unary op e)
  | integer {l : Literal} {n : Nat} (hvalue : l.value = .integer n) (hn : n < 2 ^ 63) :
      Derives levels.length [.literal l] (.num (Int64.ofNat n))
  | truth (b : Bool) :
      Derives levels.length [.ident (Statement.truthText b)] (.num (if b then 1 else 0))
  | name {first full : String} {more : List Token} (hfirst : ∀ b, first ≠ Statement.truthText b)
      (hmore : Dotted first more full) :
      Derives levels.length (.ident first :: more) (.var full)
  | group {inner : List Token} {e : Expr} (he : Derives 0 inner e) :
      Derives levels.length [.group .parenthesis inner] e

section Operators

variable {op : BinaryOp} {c d : Char} {tokens used right rest : List Token}

/-- The pairs that are operators are those that one is written as. -/
theorem pairOp?_eq_some_iff : pairOp? c d = some op ↔ op.symbol.toList = [c, d] := by
  constructor
  · intro h
    unfold pairOp? at h
    split at h <;> cases h <;> simp [BinaryOp.symbol]
  · intro h
    cases op <;> simp [BinaryOp.symbol] at h <;> obtain ⟨rfl, rfl⟩ := h <;> rfl

theorem pairOp?_eq_none_iff : pairOp? c d = none ↔ ∀ op : BinaryOp, op.symbol.toList ≠ [c, d] := by
  rw [Option.eq_none_iff_forall_ne_some]
  exact forall_congr' fun op => not_congr pairOp?_eq_some_iff

theorem singleOp?_eq_some_iff : singleOp? c = some op ↔ op.symbol.toList = [c] := by
  constructor
  · intro h
    unfold singleOp? at h
    split at h <;> cases h <;> simp [BinaryOp.symbol]
  · intro h
    cases op <;> simp [BinaryOp.symbol] at h <;> obtain rfl := h <;> rfl

/-- The operator that stands in front of a list of tokens is the one that is found there. -/
theorem infixOp?_of_spells (h : Spells op used right) :
    infixOp? (used ++ right) = some (op, right) := by
  cases h with
  | pair joint right hop => simp [infixOp?, pairOp?_eq_some_iff.mpr hop]
  | @single c joint right hop hfree =>
    have hsingle := singleOp?_eq_some_iff.mpr hop
    cases right with
    | nil => simp [infixOp?, hsingle]
    | cons t right =>
      cases t with
      | punct d j =>
        cases joint with
        | false => simp [infixOp?, hsingle]
        | true =>
          have hpair := pairOp?_eq_none_iff.mpr (hfree rfl d j right rfl)
          simp [infixOp?, hsingle, hpair]
      | ident | literal | group => simp [infixOp?, hsingle]

/-- An operator that is found has its tokens in front. -/
theorem exists_spells_of_infixOp? (h : infixOp? tokens = some (op, right)) :
    ∃ used, tokens = used ++ right ∧ Spells op used right := by
  unfold infixOp? at h
  split at h
  · next c joint rest =>
    simp only at h
    split at h
    · next d j after =>
      split at h
      · next hpair =>
        cases h
        exact ⟨_, rfl, .pair j _ (pairOp?_eq_some_iff.mp hpair)⟩
      · next joint _ _ hpair =>
        obtain ⟨found, hfound, heq⟩ := Option.map_eq_some_iff.mp h
        cases heq
        refine ⟨[.punct c joint], rfl, .single joint _ (singleOp?_eq_some_iff.mp hfound) ?_⟩
        intro hjoint d' j' rest' heq pair hsymbol
        cases heq
        exact hpair pair hjoint (pairOp?_eq_some_iff.mpr hsymbol)
    · next hrest =>
      obtain ⟨found, hfound, heq⟩ := Option.map_eq_some_iff.mp h
      cases heq
      refine ⟨[.punct c joint], rfl, .single joint _ (singleOp?_eq_some_iff.mp hfound) ?_⟩
      rintro - d j rest' rfl
      exact absurd rfl (hrest d j rest')
  · cases h

/-- What follows the right operand does not matter to how its operator is read. -/
theorem spells_append (hright : right ≠ []) :
    Spells op used (right ++ rest) ↔ Spells op used right := by
  obtain ⟨t, tail, rfl⟩ := List.exists_cons_of_ne_nil hright
  constructor
  · rintro (⟨joint, _, hop⟩ | ⟨joint, _, hop, hfree⟩)
    · exact .pair joint _ hop
    · refine .single joint _ hop fun hjoint d j more heq => ?_
      cases heq
      exact hfree hjoint d j _ rfl
  · rintro (⟨joint, _, hop⟩ | ⟨joint, _, hop, hfree⟩)
    · exact .pair joint _ hop
    · refine .single joint _ hop fun hjoint d j more heq => ?_
      cases heq
      exact hfree hjoint d j _ rfl

theorem Spells.ne_nil (h : Spells op used right) : used ≠ [] := by
  cases h <;> simp

/-- Binding strength counts the levels. -/
theorem mem_level_iff {n : Nat} :
    (∃ ops, levels[n]? = some ops ∧ op ∈ ops) ↔ op.precedence = n + 1 := by
  constructor
  · rintro ⟨ops, hops, hop⟩
    have hn : n < 10 := (List.getElem?_eq_some_iff.mp hops).1
    interval_cases n <;> cases hops <;> simp at hop <;>
      rcases hop with rfl | rfl | rfl | rfl <;> rfl
  · intro h
    obtain rfl : n = op.precedence - 1 := by omega
    cases op <;> exact ⟨_, rfl, by simp⟩

theorem precedence_le (op : BinaryOp) : op.precedence ≤ 10 := by
  cases op <;> decide

end Operators

section Shape

/-- An expression has tokens. -/
theorem Derives.ne_nil {n : Nat} {tokens : List Token} {e : Expr} (h : Derives n tokens e) :
    tokens ≠ [] := by
  induction h with
  | binary hlevel hop ha hspelling hb iha ihb => simp [iha]
  | tighter hlevel he ih => exact ih
  | unary | integer | truth | name | group => exact List.cons_ne_nil _ _

/-- There are as many levels as binding strengths. -/
theorem Derives.level_le {n : Nat} {tokens : List Token} {e : Expr} (h : Derives n tokens e) :
    n ≤ 10 := by
  cases h with
  | binary hlevel => exact (List.getElem?_eq_some_iff.mp hlevel).1.le
  | tighter hlevel => exact hlevel.le
  | unary | integer | truth | name | group => exact le_rfl

/-- What derives at a level derives at every looser one. -/
theorem Derives.loosen {m n : Nat} {tokens : List Token} {e : Expr} (h : Derives n tokens e)
    (hmn : m ≤ n) : Derives m tokens e := by
  induction hmn using Nat.decreasingInduction with
  | self => exact h
  | of_succ k hk ih => exact .tighter (hk.trans_le h.level_le) ih

theorem Dotted.moreName {name full : String} {more rest : List Token} (h : Dotted name more full)
    (hrest : ∀ joint part after, rest ≠ .punct '.' joint :: .ident part :: after) :
    Grammar.moreName name (more ++ rest) = (full, rest) := by
  induction h with
  | done name =>
    rw [List.nil_append]
    unfold Grammar.moreName
    split
    · exact absurd rfl (hrest _ _ _)
    · rfl
  | more joint _ ih => simpa [Grammar.moreName] using ih

/-- The continuation of a name is found with the name. -/
theorem exists_dotted (name : String) (tokens : List Token) :
    ∃ more, tokens = more ++ (moreName name tokens).2 ∧
      Dotted name more (moreName name tokens).1 := by
  fun_induction moreName name tokens with
  | case1 name joint part rest ih =>
    obtain ⟨more, hrest, hmore⟩ := ih
    refine ⟨.punct '.' joint :: .ident part :: more, ?_, .more joint hmore⟩
    rw [List.cons_append, List.cons_append, ← hrest]
  | case2 name tokens => exact ⟨[], rfl, .done name⟩

theorem tokensWeight_append (xs ys : List Token) :
    tokensWeight (xs ++ ys) = tokensWeight xs + tokensWeight ys := by
  induction xs with
  | nil => simp [tokensWeight]
  | cons t rest ih =>
    rw [List.cons_append, tokensWeight, tokensWeight, ih]
    omega

theorem one_le_weight (t : Token) : 1 ≤ t.weight := by
  cases t <;> simp [Token.weight]

theorem one_le_tokensWeight {tokens : List Token} (h : tokens ≠ []) : 1 ≤ tokensWeight tokens := by
  obtain ⟨t, rest, rfl⟩ := List.exists_cons_of_ne_nil h
  have hone := one_le_weight t
  rw [tokensWeight]
  omega

end Shape

end SpinGlass.Grammar

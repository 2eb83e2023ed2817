import SpinGlass.Proofs.Expr.Names

/-!
# Results that wait for no bit

A name without a bit is an error of its own kind. Where an expression has any other result, a value
or an error, it was reached without the bits that are missing, and stays the same whatever they are.
-/

namespace SpinGlass

namespace EvalError

/-- A second result is that of the first wherever the first is settled. -/
def Keeps (x x' : Except EvalError Int64) : Prop := Settled x → x' = x

theorem Keeps.refl (x : Except EvalError Int64) : Keeps x x := fun _ => rfl

/-- Steps that keep results do so one after the other: a settled error of the first step is the
result, and a value of it is where the second step starts in both. -/
theorem Keeps.bind {x x' : Except EvalError Int64} {f f' : Int64 → Except EvalError Int64}
    (hx : Keeps x x') (hf : ∀ a, Keeps (f a) (f' a)) : Keeps (x >>= f) (x' >>= f') := by
  intro h
  obtain ⟨hfirst, hsecond⟩ := settled_bind_iff.mp h
  exact (bind_congr_ok (hx hfirst).symm fun a ha => (hf a (hsecond a ha)).symm).symm

/-- A condition that both sides test alike decides alike. -/
theorem Keeps.ite {c : Prop} [Decidable c] {x x' y y' : Except EvalError Int64} (hx : Keeps x x')
    (hy : Keeps y y') : Keeps (if c then x else y) (if c then x' else y') := by
  split
  · exact hx
  · exact hy

end EvalError

namespace Expr

open EvalError

variable {env env' : String → Option Bool}

/-- More bits keep the result of an expression. -/
theorem keeps_eval {e : Expr}
    (hbits : ∀ name ∈ e.names, ∀ b, env name = some b → env' name = some b) :
    Keeps (e.eval env) (e.eval env') := by
  induction e with
  | num n => exact .refl _
  | var name =>
    intro h
    cases hbit : env name with
    | none => exact absurd (by simp [eval, hbit]) (h name)
    | some b => simp [eval, hbit, hbits name (mem_names_var.mpr rfl) b hbit]
  | unary op e ih =>
    have hunary : ∀ env, (unary op e).eval env = e.eval env >>= fun x => .ok (op.apply x) :=
      fun _ => rfl
    rw [hunary, hunary]
    exact (ih hbits).bind fun _ => .refl _
  | binary op a b iha ihb =>
    have ha := iha fun name hname => hbits name (mem_names_binary.mpr (.inl hname))
    have hb := ihb fun name hname => hbits name (mem_names_binary.mpr (.inr hname))
    -- what a short-circuit operator does if it does not skip its second operand
    have hsecond := hb.bind fun y => .refl (pure (truthValue (y != 0)))
    cases op with
    | and => exact ha.bind fun x => .ite (.refl _) hsecond
    | or => exact ha.bind fun x => .ite (.refl _) hsecond
    | _ => exact ha.bind fun x => hb.bind fun y => .refl _

/-- An expression that has a value, or an error other than a missing bit, has the same under every
environment with the same bits for its names and perhaps more. So an assertion passes, fails or
divides by zero whatever the missing bits are. -/
theorem eval_eq_of_settled {e : Expr}
    (hbits : ∀ name ∈ e.names, ∀ b, env name = some b → env' name = some b)
    (hsettled : ∀ name, e.eval env ≠ .error (.unknown name)) :
    e.eval env' = e.eval env ∧ e.check env' = e.check env := by
  have heval := keeps_eval hbits hsettled
  refine ⟨heval, ?_⟩
  unfold check
  rw [heval]

/-- The quotient of one and what `A || B` exceeds one by. -/
def shortQuotient : Expr :=
  .binary .div (.num 1) (.binary .sub (.binary .or (.var "A") (.var "B")) (.num 1))

/-- If `A` is true, `A || B` is one and the quotient fails, whether `B` has no bit or is false. -/
theorem eval_eq_of_settled_shortQuotient : ∃ env env' : String → Option Bool,
    env "B" = none ∧ env' "B" = some false ∧
      shortQuotient.eval env = .error .divideByZero ∧
      shortQuotient.eval env' = .error .divideByZero ∧
      (shortQuotient.check env').error = some "division by zero" := by
  let env : String → Option Bool := fun name => if name = "A" then some true else none
  let env' : String → Option Bool := fun name => some (name == "A")
  have hbits : ∀ name ∈ shortQuotient.names, ∀ b, env name = some b → env' name = some b := by
    intro name _ b hb
    simp only [env, Option.ite_none_right_eq_some] at hb
    simp [env', hb.1, ← hb.2]
  have heval : shortQuotient.eval env = .error .divideByZero := by decide
  obtain ⟨hsame, hcheck⟩ := eval_eq_of_settled hbits fun name h => by simp [heval] at h
  refine ⟨env, env', rfl, rfl, heval, hsame.trans heval, ?_⟩
  rw [hcheck, check, heval]
  rfl

end Expr

end SpinGlass

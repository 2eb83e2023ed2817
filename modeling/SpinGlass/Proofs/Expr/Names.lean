import SpinGlass.Expr.Eval
import SpinGlass.Proofs.Success
import SpinGlass.Proofs.Table.Lookup

/-!
# The names of an expression

An expression reads the bits of its names and no others. So if all its names have a bit, it does not
fail for want of one.
-/

namespace SpinGlass

/-- The wording of an error begins with a quoted name exactly if the name has no bit. -/
theorem EvalError.head?_message {e : EvalError} :
    e.message.toList.head? = "`".toList.head? ↔ ∃ name, e = .unknown name := by
  cases e <;> simp [message, toString]

/-- A result for which no bit is missing: a value, or an error of another kind. -/
def EvalError.Settled (x : Except EvalError Int64) : Prop := ∀ name, x ≠ .error (.unknown name)

namespace EvalError

variable {x y : Except EvalError Int64} {f : Int64 → Except EvalError Int64}

theorem settled_ok (n : Int64) : Settled (.ok n) := fun _ h => nomatch h

/-- Two steps are settled if the first is, and the second on its value. -/
theorem settled_bind_iff : Settled (x >>= f) ↔ Settled x ∧ ∀ a, x = .ok a → Settled (f a) := by
  simp only [Settled, ne_eq, bind_eq_error, not_or, not_exists, not_and, forall_and]
  exact and_congr_right fun _ => ⟨fun h a ha name => h name a ha, fun h name a ha => h a ha name⟩

theorem Settled.bind (hx : Settled x) (hf : ∀ a, Settled (f a)) : Settled (x >>= f) :=
  settled_bind_iff.mpr ⟨hx, fun a _ => hf a⟩

theorem Settled.ite {c : Prop} [Decidable c] (hx : Settled x) (hy : Settled y) :
    Settled (if c then x else y) := by
  split
  · exact hx
  · exact hy

end EvalError

open EvalError

/-- An operator on two values does not fail for want of one. -/
theorem BinaryOp.settled_apply (op : BinaryOp) (x y : Int64) : Settled (op.apply x y) := by
  have hdivide : ∀ f, Settled (divide f x y) := fun f =>
    .ite (fun _ h => nomatch h) (.ite (fun _ h => nomatch h) (settled_ok _))
  have hshift : ∀ f, Settled (shift f x y) := fun f => .ite (settled_ok _) fun _ h => nomatch h
  cases op with
  | div => exact hdivide _
  | rem => exact hdivide _
  | shl => exact hshift _
  | shr => exact hshift _
  | _ => exact settled_ok _

namespace Expr

variable {name : String}

/-- A name is in a set that an expression was added to if it was there or is in the expression. -/
theorem contains_addNames {e : Expr} {seen : KeySet String} :
    (e.addNames seen).contains name = true ↔ name ∈ e.names ∨ seen.contains name = true := by
  unfold names
  rw [KeySet.mem_toList_iff]
  induction e generalizing seen with
  | num n => simp [addNames, KeySet.contains_empty]
  | var other => simp [addNames, KeySet.contains_insert_iff, KeySet.contains_empty]
  | unary op e ih => exact ih
  | binary op a b iha ihb =>
    simp only [addNames]
    rw [ihb, iha, @ihb (a.addNames .empty), or_assoc]

@[simp] theorem mem_names_var {other : String} : name ∈ (var other).names ↔ name = other := by
  simp [names, addNames, KeySet.mem_toList_iff, KeySet.contains_insert_iff, KeySet.contains_empty]

@[simp] theorem mem_names_unary {op : UnaryOp} {e : Expr} :
    name ∈ (unary op e).names ↔ name ∈ e.names := Iff.rfl

@[simp] theorem mem_names_binary {op : BinaryOp} {a b : Expr} :
    name ∈ (binary op a b).names ↔ name ∈ a.names ∨ name ∈ b.names := by
  rw [names, KeySet.mem_toList_iff, addNames, contains_addNames, or_comm, ← KeySet.mem_toList_iff]
  rfl

/-- The value of an expression depends on the bits of its names. -/
theorem eval_congr {f g : String → Option Bool} {e : Expr} (h : ∀ name ∈ e.names, f name = g name) :
    e.eval f = e.eval g := by
  induction e with
  | num n => rfl
  | var name =>
    unfold eval
    rw [h name (mem_names_var.mpr rfl)]
  | unary op e ih =>
    unfold eval
    rw [ih h]
  | binary op a b iha ihb =>
    have ha := iha fun name hname => h name (mem_names_binary.mpr (.inl hname))
    have hb := ihb fun name hname => h name (mem_names_binary.mpr (.inr hname))
    -- the short-circuit operators are evaluated apart from the others
    cases op <;> simp only [eval, ha, hb]

/-- An expression whose names all have a bit does not fail for want of one. -/
theorem settled_eval {env : String → Option Bool} {e : Expr}
    (h : ∀ name ∈ e.names, ∃ b, env name = some b) : Settled (e.eval env) := by
  induction e with
  | num n => exact settled_ok n
  | var name =>
    obtain ⟨b, hb⟩ := h name (mem_names_var.mpr rfl)
    unfold eval
    rw [hb]
    exact settled_ok _
  | unary op e ih => exact (ih h).bind fun _ => settled_ok _
  | binary op a b iha ihb =>
    have ha := iha fun name hname => h name (mem_names_binary.mpr (.inl hname))
    have hb := ihb fun name hname => h name (mem_names_binary.mpr (.inr hname))
    -- what a short-circuit operator does if it does not skip its second operand
    have hsecond := hb.bind fun y => settled_ok (truthValue (y != 0))
    cases op with
    | and => exact ha.bind fun x => .ite (settled_ok _) hsecond
    | or => exact ha.bind fun x => .ite (settled_ok _) hsecond
    | _ => exact ha.bind fun x => hb.bind fun y => BinaryOp.settled_apply _ x y

/-- So its outcome is not that a name has no value. -/
theorem error_check_ne_unknown {env : String → Option Bool} {e : Expr}
    (h : ∀ name ∈ e.names, ∃ b, env name = some b) (name : String) :
    (e.check env).error ≠ some (EvalError.unknown name).message := by
  unfold check
  cases heval : e.eval env with
  | ok n => simp
  | error error =>
    intro hmessage
    have hhead : error.message.toList.head? = "`".toList.head? := by
      rw [Option.some.inj hmessage]
      exact EvalError.head?_message.mpr ⟨name, rfl⟩
    obtain ⟨other, rfl⟩ := EvalError.head?_message.mp hhead
    exact settled_eval h other heval

end Expr

end SpinGlass

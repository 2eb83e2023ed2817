import SpinGlass.Expr.Basic

/-!
# Evaluating assertions

Arithmetic wraps around in 64 bits. An operand without a value, a division that has no result
and a shift out of range are errors; a short-circuit operator skips the errors of the operand
that it skips.
-/

namespace SpinGlass

/-- Why an assertion has no value. -/
inductive EvalError where
  /-- A name without a bit. -/
  | unknown (name : String)
  | divideByZero
  /-- A quotient outside the 64-bit integers. -/
  | overflow (x y : Int64)
  /-- A shift by less than zero or more than 63 places. -/
  | badShift (amount : Int64)
  deriving DecidableEq

/-- The wording of an evaluation error. -/
def EvalError.message : EvalError → String
  | unknown name => s!"`{name}` has no value in this solution"
  | divideByZero => "division by zero"
  | overflow x y => s!"dividing {x.toInt} by {y.toInt} overflows"
  | badShift amount => s!"shift amount {amount.toInt} out of range"

/-- The integer of a truth value. -/
def truthValue (b : Bool) : Int64 := if b then 1 else 0

namespace UnaryOp

/-- The result of a prefix operator. -/
def apply : UnaryOp → Int64 → Int64
  | not, x => truthValue (x == 0)
  | neg, x => -x

end UnaryOp

namespace BinaryOp

/-- A quotient or remainder, guarded against the two cases that have none. -/
def divide (op : Int64 → Int64 → Int64) (x y : Int64) : Except EvalError Int64 :=
  if y == 0 then .error .divideByZero
  else if x == Int64.minValue && y == -1 then .error (.overflow x y)
  else .ok (op x y)

/-- A shift, guarded against amounts out of range. -/
def shift (op : Int64 → Int64 → Int64) (x y : Int64) : Except EvalError Int64 :=
  if 0 ≤ y && y < 64 then .ok (op x y) else .error (.badShift y)

/-- The result of an infix operator on two values. -/
def apply (op : BinaryOp) (x y : Int64) : Except EvalError Int64 :=
  match op with
  | mul => .ok (x * y)
  | div => divide (· / ·) x y
  | rem => divide (· % ·) x y
  | add => .ok (x + y)
  | sub => .ok (x - y)
  | shl => shift (· <<< ·) x y
  | shr => shift (· >>> ·) x y
  | lt => .ok (truthValue (x < y))
  | le => .ok (truthValue (x ≤ y))
  | gt => .ok (truthValue (y < x))
  | ge => .ok (truthValue (y ≤ x))
  | eq => .ok (truthValue (x == y))
  | ne => .ok (truthValue (x != y))
  | bitAnd => .ok (x &&& y)
  | bitXor => .ok (x ^^^ y)
  | bitOr => .ok (x ||| y)
  | and => .ok (truthValue (x != 0 && y != 0))
  | or => .ok (truthValue (x != 0 || y != 0))

end BinaryOp

/-- The outcome of checking one assertion on one solution. -/
structure AssertOutcome where
  text : String
  passed : Bool
  /-- Set when there is no value, which is different from the value zero. -/
  error : Option String
  deriving DecidableEq

namespace Expr

/-- The value of an expression over bits, from left to right. -/
def eval (env : String → Option Bool) : Expr → Except EvalError Int64
  | num n => .ok n
  | var name =>
    match env name with
    | some b => .ok (truthValue b)
    | none => .error (.unknown name)
  | unary op e => (e.eval env).map op.apply
  | binary .and a b => do
    if (← a.eval env) == 0 then return 0
    return truthValue ((← b.eval env) != 0)
  | binary .or a b => do
    if (← a.eval env) != 0 then return 1
    return truthValue ((← b.eval env) != 0)
  | binary op a b => do
    let x ← a.eval env
    let y ← b.eval env
    op.apply x y

/-- Checks an assertion: any value but zero passes. -/
def check (env : String → Option Bool) (e : Expr) : AssertOutcome :=
  match e.eval env with
  | .ok v => ⟨e.text, v != 0, none⟩
  | .error error => ⟨e.text, false, some error.message⟩

end Expr

end SpinGlass

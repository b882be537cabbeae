import Plc.Evaluation.Error

/-!
The binary operators on values. `&&` and `||` are no part of it: they may leave their right operand
unevaluated.
-/

namespace Plc

inductive DivisionScale where
  /-- The scale of the dividend. -/
  | dividend
  | fixed (scale : Nat)
  deriving DecidableEq, Repr, Inhabited

def DivisionScale.scaleFor (rule : DivisionScale) (dividend : Decimal) : Int :=
  match rule with
  | .dividend => dividend.scale
  | .fixed scale => scale

namespace Operation

abbrev Result (α : Type) := Except RuntimeError α

def mismatch {α : Type} (op : Operator) (l r : Value) : Result α :=
  .error (.operands op l.kind r.kind)

/-- Integers divide toward zero. -/
def integers (op : Operator) (a b : Int) : Result Value :=
  match op with
  | .subtract => .ok (.integer (a - b))
  | .multiply => .ok (.integer (a * b))
  | _ => if b = 0 then .error .divisionByZero else .ok (.integer (a.tdiv b))

def decimals (rule : DivisionScale) (op : Operator) (a b : Decimal) : Except Halt Value :=
  match op with
  | .subtract => .ok (.decimal (a.sub b))
  | .multiply =>
    match a.mul? b with
    | some d => .ok (.decimal d)
    | none => .error .overflow
  | _ =>
    if b.isZero then .error (.error .divisionByZero)
    else
      match a.divide b (rule.scaleFor a) with
      | .ok q => .ok (.decimal q)
      | .error .overflow => .error .overflow
      | .error .tooFar => .error (.error .divisionScale)

/-- Subtraction, multiplication and division. An integer beside a decimal becomes one. -/
def arithmetic (rule : DivisionScale) (op : Operator) (l r : Value) : Except Halt Value :=
  match l, r with
  | .integer a, .integer b => (integers op a b).mapError .error
  | .decimal a, .decimal b => decimals rule op a b
  | .integer a, .decimal b => decimals rule op (.ofInt a) b
  | .decimal a, .integer b => decimals rule op a (.ofInt b)
  | _, _ => (mismatch op l r).mapError .error

/-- `base ^ n`, computed on the magnitude. -/
def integerPower (base : Int) (n : Nat) : Int :=
  let magnitude := Int.ofNat (Nat.pow base.natAbs n)
  if base < 0 ∧ n % 2 = 1 then -magnitude else magnitude

def power (l r : Value) : Result Value :=
  match l, r with
  | .integer base, .integer n =>
    if n < 0 then .error (.negativeExponent n)
    else if (maxUInt32 : Int) < n then .error (.largeExponent n)
    else .ok (.integer (integerPower base n.toNat))
  | _, _ => mismatch .power l r

/-- Which orders satisfy a comparison. -/
def holds : Operator → Ordering → Bool
  | .less, o => o.isLT
  | .lessEqual, o => o.isLE
  | .greater, o => o.isGT
  | _, o => o.isGE

def comparison (op : Operator) (l r : Value) : Result Value :=
  match l.compare? r with
  | some o => .ok (.boolean (holds op o))
  | none => mismatch op l r

def sum (l r : Value) : Result Value :=
  match l, r with
  | .integer a, .integer b => .ok (.integer (a + b))
  | .decimal a, .decimal b => .ok (.decimal (a.add b))
  | _, _ => mismatch .add l r

def text (h : Heap) (v : Value) : Except Halt String :=
  match v.text? h h.size with
  | some s => .ok s
  | none => .error .exhausted

def equal (h : Heap) (l r : Value) : Except Halt Bool :=
  match l.equal? h h.size r with
  | some b => .ok b
  | none => .error .exhausted

/-- Whether storing `v` in the list at `target` would let that list reach itself. -/
def closesCycle (h : Heap) (target : Nat) (v : Value) : Except Halt Bool :=
  match v.reaches? h target h.size with
  | some b => .ok b
  | none => .error .exhausted

/-- A string takes the text of anything at either side. -/
def addition (h : Heap) (l r : Value) : Except Halt Value :=
  match l, r with
  | .string a, _ => do
    let b ← text h r
    .ok (.string (a ++ b))
  | _, .string b => do
    let a ← text h l
    .ok (.string (a ++ b))
  | _, _ => (sum l r).mapError .error

def apply (rule : DivisionScale) (h : Heap) (op : Operator) (l r : Value) : Except Halt Value :=
  match op with
  | .equal => (equal h l r).map .boolean
  | .notEqual => (equal h l r).map fun b => .boolean !b
  | .less | .lessEqual | .greater | .greaterEqual => (comparison op l r).mapError .error
  | .add => addition h l r
  | .subtract | .multiply | .divide => arithmetic rule op l r
  | .power => (power l r).mapError .error
  | .and | .or => (mismatch op l r).mapError .error

end Operation

end Plc

import Plc.Limits

/-!
Decimals of any size. A decimal is an unscaled integer `u` and a scale `s` and denotes
`u * 10 ^ (-s)`. Several decimals denote one number: trailing zeros are kept, so every operation
also fixes the scale of its result. A product and a quotient compute that scale with 64 bits, and
there is none where these are too few. Comparison is of the numbers.
-/

namespace Plc

structure Decimal where
  unscaled : Int
  scale : Int
  deriving DecidableEq, Repr, Inhabited

namespace Decimal

def tenTo (n : Nat) : Int := Int.ofNat (Nat.pow 10 n)

def ofInt (n : Int) : Decimal := ⟨n, 0⟩

def isZero (d : Decimal) : Bool := d.unscaled == 0

/-- The unscaled integer of the same number at `scale`, which is at least the scale of `d`. -/
def unscaledAt (d : Decimal) (scale : Int) : Int :=
  d.unscaled * tenTo (scale - d.scale).toNat

def commonScale (a b : Decimal) : Int := max a.scale b.scale

def neg (d : Decimal) : Decimal := ⟨-d.unscaled, d.scale⟩

/-- The sum is written at the larger scale, also when one operand is zero. -/
def add (a b : Decimal) : Decimal :=
  let s := commonScale a b
  ⟨a.unscaledAt s + b.unscaledAt s, s⟩

/-- Subtracting a zero, and subtracting from one, keep the scale of the other operand. -/
def sub (a b : Decimal) : Decimal :=
  if b.isZero then a
  else if a.isZero then b.neg
  else
    let s := commonScale a b
    ⟨a.unscaledAt s - b.unscaledAt s, s⟩

/-- The largest scale at which a written-out one is recognised as a unit. -/
def unitScaleLimit : Int := 38

/-- A one written at a scale from 0 to `unitScaleLimit`. -/
def isUnit (d : Decimal) : Bool :=
  decide (0 ≤ d.scale) && decide (d.scale ≤ unitScaleLimit) && d.unscaled == tenTo d.scale.toNat

/-- A unit factor leaves the other factor as it is written; all other scales add. There is no
product where their sum does not have 64 bits. -/
def mul? (a b : Decimal) : Option Decimal :=
  if a.isUnit then some b
  else if b.isUnit then some a
  else (int64? (a.scale + b.scale)).map fun scale => ⟨a.unscaled * b.unscaled, scale⟩

/-- The integer nearest to `n / d`, and of two nearest the one farther from zero. -/
def roundedQuotient (n d : Int) : Int :=
  n.sign * d.sign * (((2 * n.natAbs + d.natAbs) / (2 * d.natAbs) : Nat) : Int)

/-- Why there is no quotient: the places by which the point moves do not have 64 bits, or they are
more than `maxUInt32`. -/
inductive Refusal where
  | overflow
  | tooFar
  deriving DecidableEq, Repr

/-- By how many places the point moves in `a / b` at `scale`. Each of the two steps has 64 bits. -/
def shift? (a b : Decimal) (scale : Int) : Option Int :=
  (int64? (scale - a.scale)).bind fun moved => int64? (moved + b.scale)

/-- The rounded quotient of `a` and `b` where the point moves by `shift` places. -/
def shiftedQuotient (a b shift : Int) : Int :=
  let factor := tenTo shift.natAbs
  if 0 ≤ shift then roundedQuotient (a * factor) b else roundedQuotient a (b * factor)

/-- `a / b` rounded to `scale`, for `b` other than zero. -/
def divide (a b : Decimal) (scale : Int) : Except Refusal Decimal :=
  match shift? a b scale with
  | none => .error .overflow
  | some shift =>
    if shift.natAbs ≤ maxUInt32 then .ok ⟨shiftedQuotient a.unscaled b.unscaled shift, scale⟩
    else .error .tooFar

/-- The order of `a * 10 ^ k` and `b`. The power is not computed where it alone exceeds `b`. -/
def compareShifted (a b : Int) (k : Nat) : Ordering :=
  if a = 0 then Ord.compare 0 b
  else if b.natAbs.log2 < k then Ord.compare a 0
  else Ord.compare (a * tenTo k) b

def compare (a b : Decimal) : Ordering :=
  if a.scale ≤ b.scale then compareShifted a.unscaled b.unscaled (b.scale - a.scale).toNat
  else (compareShifted b.unscaled a.unscaled (a.scale - b.scale).toNat).swap

/-- The smallest magnitude that rounds to infinity in the binary64 format. It has 309 digits. -/
def overflow : Int := Int.ofNat (twoTo 1024 - twoTo 970)

/-- Whether the number rounds to a finite binary64 value. -/
def isFinite64 (d : Decimal) : Bool :=
  let n := Int.ofNat d.unscaled.natAbs
  if 0 ≤ d.scale then decide (n < overflow) || decide (n < overflow * tenTo d.scale.toNat)
  else d.isZero || (decide (-308 ≤ d.scale) && decide (n * tenTo (-d.scale).toNat < overflow))

end Decimal

end Plc

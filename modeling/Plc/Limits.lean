/-!
The fixed sizes that bound some numbers of the language: integer literals and exit values have 32
bits and a sign, exponents and numbers of decimal places have 32 bits without one, and the scales of
decimals have 64 bits and a sign.
-/

namespace Plc

def twoTo (n : Nat) : Nat := Nat.pow 2 n

/-- Whether `n` has 32 bits with its sign. -/
def isInt32 (n : Int) : Bool := decide (-(twoTo 31 : Int) ≤ n) && decide (n < twoTo 31)

def maxUInt32 : Nat := twoTo 32 - 1

/-- `n` has 64 bits with its sign. -/
def FitsInt64 (n : Int) : Prop := -(twoTo 63 : Int) ≤ n ∧ n < twoTo 63

instance (n : Int) : Decidable (FitsInt64 n) := inferInstanceAs (Decidable (_ ∧ _))

def int64? (n : Int) : Option Int := if FitsInt64 n then some n else none

theorem int64?_of_fits {n : Int} (fits : FitsInt64 n) : int64? n = some n := if_pos fits

theorem int64?_eq_some_iff {n m : Int} : int64? n = some m ↔ FitsInt64 n ∧ m = n := by
  unfold int64?
  split <;> simp_all [eq_comm]

end Plc

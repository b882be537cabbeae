import Plc.Decimal

/-!
Numbers as text. The text of a decimal is positional: it keeps trailing zeros, never uses an
exponent, and has a point exactly when the scale is positive. What is read may have a sign, gaps
between digits, at most one point and an exponent; the scale is the number of digits behind the
point less the exponent.
-/

namespace Plc

def digitsOf (n : Nat) : List Char := (Nat.repr n).toList

def digits? (cs : List Char) : Option Nat :=
  if cs.isEmpty || !cs.all Char.isDigit then none
  else some (cs.foldl (fun n c => 10 * n + (c.toNat - '0'.toNat)) 0)

/-- What may stand anywhere in a numeral but at its start, and counts for nothing. -/
def gap : Char := '_'

def numeral? : List Char → Option Nat
  | [] => none
  | c :: cs => if c = gap then none else digits? (c :: cs.filter (· ≠ gap))

/-- Whether a number is negative, and what follows its sign. -/
def splitSign : List Char → Bool × List Char
  | '-' :: cs => (true, cs)
  | '+' :: cs => (false, cs)
  | cs => (false, cs)

def signed (negative : Bool) (n : Nat) : Int := if negative then -(n : Int) else n

def integer? (cs : List Char) : Option Int :=
  let (negative, body) := splitSign cs
  (numeral? body).map (signed negative)

namespace Decimal

def zeros (n : Nat) : List Char := List.replicate n '0'

/-- The digits of `n`, padded so that at least one stands in front of `places` others. -/
def paddedDigits (n places : Nat) : List Char :=
  let ds := digitsOf n
  zeros (places + 1 - ds.length) ++ ds

def text (d : Decimal) : String :=
  if d.scale ≤ 0 then toString d.unscaled ++ String.ofList (zeros d.scale.natAbs)
  else
    let places := d.scale.toNat
    let ds := paddedDigits d.unscaled.natAbs places
    let whole := ds.length - places
    let sign := if d.unscaled < 0 then ['-'] else []
    String.ofList (sign ++ ds.take whole ++ '.' :: ds.drop whole)

/-- The most zeros that are written out behind the digits where an exponent is allowed. -/
def trailingZeroLimit : Int := 15

/-- Positional text, but digits and an exponent when very many zeros would follow. -/
def shortText (d : Decimal) : String :=
  if d.scale < -trailingZeroLimit then toString d.unscaled ++ "e+" ++ toString (-d.scale)
  else d.text

/-- An integer, in whose text a point may stand. -/
def mantissa? (cs : List Char) : Option Decimal :=
  let whole := cs.takeWhile (· ≠ '.')
  let fraction := cs.drop (whole.length + 1)
  (integer? (whole ++ fraction)).map fun n => ⟨n, fraction.countP (· ≠ gap)⟩

def isExponentMark (c : Char) : Bool := c == 'e' || c == 'E'

/-- An exponent, in which there are no gaps. -/
def exponent? (cs : List Char) : Option Int := if gap ∈ cs then none else integer? cs

def ofText? (cs : List Char) : Option Decimal :=
  let front := cs.takeWhile (!isExponentMark ·)
  match cs.drop front.length with
  | [] => mantissa? front
  | _ :: behind => do
    let d ← mantissa? front
    let e ← exponent? behind
    let scale ← int64? (d.scale - e)
    some ⟨d.unscaled, scale⟩

end Decimal

end Plc

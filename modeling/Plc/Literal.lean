import Plc.Decimal.Text
import Plc.Text.Escape
import Plc.Token

/-!
Literals, and how the text of a token denotes one.
-/

namespace Plc

inductive Literal where
  | nil
  | boolean (b : Bool)
  | character (c : Char)
  | string (s : String)
  | integer (n : Int)
  | decimal (d : Decimal)
  deriving DecidableEq, Repr, Inhabited

namespace Literal

/-- The text without its first and its last character, which are the quotes. -/
def unquoted (text : String) : List Char := (text.toList.drop 1).dropLast

def ofWord? : String → Option Literal
  | "NIL" => some .nil
  | "TRUE" => some (.boolean true)
  | "FALSE" => some (.boolean false)
  | _ => none

def ofInteger? (text : String) : Option Literal := (integer? text.toList).map .integer

def ofDecimal? (text : String) : Option Literal := (Decimal.ofText? text.toList).map .decimal

/-- A character literal stands for exactly one character. -/
def ofCharacter? (text : String) : Option Literal :=
  match Escape.decode (unquoted text) with
  | [c] => some (.character c)
  | _ => none

def ofString (text : String) : Literal := .string (String.ofList (Escape.decode (unquoted text)))

end Literal

end Plc

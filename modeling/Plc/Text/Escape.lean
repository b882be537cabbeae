/-!
The escapes of character and string literals: a backslash and one letter stand for one character.
-/

namespace Plc.Escape

/-- Each letter that may follow a backslash, with the character that the pair stands for. -/
def table : List (Char × Char) :=
  [('b', '\x08'), ('n', '\n'), ('r', '\r'), ('t', '\t'), ('\'', '\''), ('"', '"'), ('\\', '\\')]

def isLetter (c : Char) : Bool := (table.lookup c).isSome

/-- A letter outside the table stands for itself. -/
def meaning (c : Char) : Char := (table.lookup c).getD c

/-- The text that a literal's body stands for. A backslash at the very end stands for itself. -/
def decode : List Char → List Char
  | [] => []
  | '\\' :: c :: cs => meaning c :: decode cs
  | c :: cs => c :: decode cs

end Plc.Escape

/-!
Lines of a text. A line ends at a line feed, at a carriage return, or at the two in this order,
which together are one break. Positions count lines and columns from one.
-/

namespace Plc

def isLineBreak (c : Char) : Bool := c == '\n' || c == '\r'

/-- The lines of a text of which `line`, backwards, has been read. Behind the last break there is a
line only if it has a character. -/
def linesFrom (line : List Char) : List Char → List (List Char)
  | [] => if line.isEmpty then [] else [line.reverse]
  | '\r' :: '\n' :: cs => line.reverse :: linesFrom [] cs
  | c :: cs => if isLineBreak c then line.reverse :: linesFrom [] cs else linesFrom (c :: line) cs

def linesOf (cs : List Char) : List (List Char) := linesFrom [] cs

structure Position where
  line : Nat
  column : Nat
  deriving DecidableEq, Repr, Inhabited

namespace Position

def after (p : Position) (c : Char) (next : Option Char) : Position :=
  if isLineBreak c && !(c == '\r' && next == some '\n') then ⟨p.line + 1, 1⟩
  else ⟨p.line, p.column + 1⟩

def locateFrom (p : Position) : List Char → (offset : Nat) → Position
  | c :: cs, offset + 1 => locateFrom (p.after c cs.head?) cs offset
  | _, _ => p

/-- The position of an offset; past the end there is only the end. -/
def locate (cs : List Char) (offset : Nat) : Position := locateFrom ⟨1, 1⟩ cs offset

end Position

end Plc

/-!
Tokens. Keywords are identifier tokens and every punctuation mark is an operator token; the grammar
tells them apart by their text. Offsets count characters.
-/

namespace Plc

namespace Token

inductive Kind where
  | identifier
  | integer
  | decimal
  | character
  | string
  | operator
  deriving DecidableEq, Repr, Inhabited

def Kind.text : Kind → String
  | .identifier => "identifier"
  | .integer => "integer"
  | .decimal => "decimal"
  | .character => "character"
  | .string => "string"
  | .operator => "operator"

end Token

structure Token where
  kind : Token.Kind
  text : String
  offset : Nat
  deriving DecidableEq, Repr, Inhabited

namespace Token

/-- The offset of the first character after the token. -/
def stop (t : Token) : Nat := t.offset + t.text.length

def isOperator (t : Token) (text : String) : Bool := t.kind == .operator && t.text == text

def isKeyword (t : Token) (text : String) : Bool := t.kind == .identifier && t.text == text

def display (t : Token) : String := t.kind.text ++ " '" ++ t.text ++ "'"

end Token

end Plc

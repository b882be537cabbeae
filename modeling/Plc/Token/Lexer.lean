import Plc.Token
import Plc.Text.Escape
import Plc.Text.Line

/-!
From source text to tokens. At each position that is not blank the first character decides the kind
of the token, and the token is the longest one of that kind. The first malformed lexeme ends the
whole with its cause and the offset where it goes wrong.
-/

namespace Plc

inductive LexError where
  | leadingZeros
  | emptyCharacter
  | unterminatedCharacter
  | unterminatedString
  /-- A backslash before a character that is no escape letter, or before the end of the source. -/
  | invalidEscape (letter : Option Char)
  deriving DecidableEq, Repr, Inhabited

def LexError.message : LexError → String
  | .leadingZeros => "Leading zeros are not permitted"
  | .emptyCharacter => "Empty character literal"
  | .unterminatedCharacter => "Unterminated character literal"
  | .unterminatedString => "Unterminated string"
  | .invalidEscape none => "Invalid escape sequence"
  | .invalidEscape (some c) => "Invalid escape sequence '\\" ++ c.toString ++ "'"

namespace Lexer

def isBlank (c : Char) : Bool :=
  c == ' ' || c == '\t' || c == '\n' || c == '\r' || c == '\x0b' || c == '\x0c'

/-- An ASCII letter or `@`, which only the first character of an identifier may be. -/
def isWordStart (c : Char) : Bool := c == '@' || c.isAlpha

def isWordPart (c : Char) : Bool := c.isAlphanum || c == '_' || c == '-'

/-- A digit, or `-` before a digit other than zero, or `-0.` before a digit. -/
def startsNumber : List Char → Bool
  | '-' :: '0' :: '.' :: d :: _ => d.isDigit
  | '-' :: d :: _ => d.isDigit && d != '0'
  | c :: _ => c.isDigit
  | [] => false

/-- A kind and a length for the lexeme at the head of the text, or a cause and how far into the
lexeme it lies. -/
abbrev Scan (α : Type) := Except (LexError × Nat) α

def word (cs : List Char) : Nat := 1 + ((cs.drop 1).takeWhile isWordPart).length

/-- The length of a point and the digits behind it; zero where no digit follows the point. -/
def fraction : List Char → Nat
  | '.' :: d :: cs => if d.isDigit then 2 + (cs.takeWhile Char.isDigit).length else 0
  | _ => 0

def number (cs : List Char) : Scan (Token.Kind × Nat) :=
  let sign := if cs.head? = some '-' then 1 else 0
  let body := cs.drop sign
  let whole := (body.takeWhile Char.isDigit).length
  if body.head? = some '0' && 1 < whole then .error (.leadingZeros, 0)
  else
    let places := fraction (body.drop whole)
    .ok (if places = 0 then .integer else .decimal, sign + whole + places)

/-- The quote that ends a character literal, after `length` characters of it. -/
def closingQuote (length : Nat) : List Char → Scan Nat
  | '\'' :: _ => .ok (length + 1)
  | _ => .error (.unterminatedCharacter, length)

/-- The length of a character literal, from the text after its opening quote. -/
def character : List Char → Scan Nat
  | '\'' :: _ => .error (.emptyCharacter, 1)
  | ['\\'] => .error (.invalidEscape none, 1)
  | '\\' :: c :: cs =>
    if Escape.isLetter c then closingQuote 3 cs else .error (.invalidEscape (some c), 1)
  | c :: cs => if isLineBreak c then .error (.unterminatedCharacter, 1) else closingQuote 2 cs
  | [] => .error (.unterminatedCharacter, 1)

/-- The length of a string literal, from the text after its first `length` characters. -/
def string (length : Nat) : List Char → Scan Nat
  | [] => .error (.unterminatedString, length)
  | '"' :: _ => .ok (length + 1)
  | ['\\'] => .error (.invalidEscape none, length)
  | '\\' :: c :: cs =>
    if Escape.isLetter c then string (length + 2) cs
    else .error (.invalidEscape (some c), length)
  | c :: cs =>
    if isLineBreak c then .error (.unterminatedString, length) else string (length + 1) cs

/-- Four operators have two characters; any other character is one by itself. -/
def operator : List Char → Nat
  | '!' :: '=' :: _ => 2
  | '=' :: '=' :: _ => 2
  | '&' :: '&' :: _ => 2
  | '|' :: '|' :: _ => 2
  | _ => 1

def lexeme (cs : List Char) : Scan (Token.Kind × Nat) :=
  let first := cs.headD ' '
  if isWordStart first then .ok (.identifier, word cs)
  else if startsNumber cs then number cs
  else if first = '\'' then (character (cs.drop 1)).map (.character, ·)
  else if first = '"' then (string 1 (cs.drop 1)).map (.string, ·)
  else .ok (.operator, operator cs)

/-- The tokens of the text that starts at `offset`, of which the first `skip` characters belong to
a token already read. -/
def tokensFrom (offset skip : Nat) : List Char → Except (LexError × Nat) (List Token)
  | [] => .ok []
  | c :: cs =>
    match skip with
    | skip + 1 => tokensFrom (offset + 1) skip cs
    | 0 =>
      if isBlank c then tokensFrom (offset + 1) 0 cs
      else
        match lexeme (c :: cs) with
        | .error (cause, inside) => .error (cause, offset + inside)
        | .ok (kind, length) =>
          match tokensFrom (offset + 1) (length - 1) cs with
          | .error e => .error e
          | .ok rest =>
            .ok (⟨kind, String.ofList ((c :: cs).take length), offset⟩ :: rest)

end Lexer

def Token.ofSource (source : String) : Except (LexError × Nat) (List Token) :=
  Lexer.tokensFrom 0 0 source.toList

end Plc

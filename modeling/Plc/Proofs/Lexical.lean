import Plc.Token.Lexer

/-!
The lexical grammar: which texts are lexemes of which kind, what it is to be cut into tokens, and in
what way the beginning of a text can fail to be one. Nothing here says how far a reader looks ahead.
-/

namespace Plc.Lexical

def blanks : List Char := [' ', '\t', '\n', '\r', '\x0b', '\x0c']

def quotes : List Char := ['\'', '"']

def escapeLetters : List Char := ['b', 'n', 'r', 't', '\'', '"', '\\']

def operatorPairs : List (List Char) := [['!', '='], ['=', '='], ['&', '&'], ['|', '|']]

def Digits (cs : List Char) : Prop := ∀ c ∈ cs, c.isDigit = true

inductive Counting : List Char → Prop where
  | digits {d : Char} {ds : List Char} (first : d.isDigit = true) (nonzero : d ≠ '0')
      (others : Digits ds) : Counting (d :: ds)

inductive Whole : List Char → Prop where
  | zero : Whole ['0']
  | counting {cs : List Char} (digits : Counting cs) : Whole cs

def Sign (cs : List Char) : Prop := cs = [] ∨ cs = ['-']

inductive Piece (quote : Char) : List Char → Prop where
  | plain {c : Char} (other : c ∉ [quote, '\\', '\n', '\r']) : Piece quote [c]
  | escape {c : Char} (letter : c ∈ escapeLetters) : Piece quote ['\\', c]

inductive Pieces (quote : Char) : List Char → Prop where
  | nil : Pieces quote []
  | cons {piece body : List Char} (first : Piece quote piece) (others : Pieces quote body) :
      Pieces quote (piece ++ body)

inductive Lexeme : Token.Kind → List Char → Prop where
  | identifier {c : Char} {cs : List Char} (first : c = '@' ∨ c.isAlpha = true)
      (others : ∀ d ∈ cs, d.isAlphanum = true ∨ d = '_' ∨ d = '-') : Lexeme .identifier (c :: cs)
  | zero : Lexeme .integer ['0']
  | integer {sign digits : List Char} (signed : Sign sign) (counting : Counting digits) :
      Lexeme .integer (sign ++ digits)
  | decimal {sign whole places : List Char} (signed : Sign sign) (before : Whole whole)
      (some : places ≠ []) (behind : Digits places) :
      Lexeme .decimal (sign ++ (whole ++ '.' :: places))
  | character {piece : List Char} (inner : Piece '\'' piece) :
      Lexeme .character ('\'' :: (piece ++ ['\'']))
  | string {body : List Char} (inner : Pieces '"' body) : Lexeme .string ('"' :: (body ++ ['"']))
  | pair {cs : List Char} (known : cs ∈ operatorPairs) : Lexeme .operator cs
  | single {c : Char} (solid : c ∉ blanks) (unquoted : c ∉ quotes) (start : c ≠ '@')
      (letter : c.isAlpha = false) (digit : c.isDigit = false) : Lexeme .operator [c]

/-- A lexeme at the head of the text, and none there is longer. -/
structure Longest (cs : List Char) (kind : Token.Kind) (text : List Char) : Prop where
  start : text <+: cs
  lexeme : Lexeme kind text
  longest : ∀ other more, more <+: cs → Lexeme other more → more.length ≤ text.length

def LeadingZeros (cs : List Char) : Prop := ∃ d ds, cs = '0' :: d :: ds ∧ d.isDigit = true

def EndsLine (cs : List Char) : Prop := ∀ c ∈ cs.head?, c = '\n' ∨ c = '\r'

def NoEscape (cs : List Char) : Prop := ∀ c ∈ cs.head?, c ∉ escapeLetters

/-- No lexeme starts the text, for this cause and that many characters into it. -/
inductive Malformed : List Char → LexError → Nat → Prop where
  | zeros {cs : List Char} (zeros : LeadingZeros cs) : Malformed cs .leadingZeros 0
  | emptyCharacter {cs : List Char} : Malformed ('\'' :: '\'' :: cs) .emptyCharacter 1
  | noCharacter {cs : List Char} (ends : EndsLine cs) :
      Malformed ('\'' :: cs) .unterminatedCharacter 1
  | openCharacter {piece cs : List Char} (inner : Piece '\'' piece)
      (goesOn : cs.head? ≠ some '\'') :
      Malformed ('\'' :: (piece ++ cs)) .unterminatedCharacter (1 + piece.length)
  | characterEscape {cs : List Char} (bad : NoEscape cs) :
      Malformed ('\'' :: '\\' :: cs) (.invalidEscape cs.head?) 1
  | openString {body cs : List Char} (inner : Pieces '"' body) (ends : EndsLine cs) :
      Malformed ('"' :: (body ++ cs)) .unterminatedString (1 + body.length)
  | stringEscape {body cs : List Char} (inner : Pieces '"' body) (bad : NoEscape cs) :
      Malformed ('"' :: (body ++ '\\' :: cs)) (.invalidEscape cs.head?) (1 + body.length)

def OpensNothing (cs : List Char) : Prop :=
  ∃ c ∈ quotes, cs.head? = some c ∧ ∀ kind text, text <+: cs → ¬ Lexeme kind text

/-- The tokens cover the text: each is the longest lexeme where it stands, and no number there has a
zero too many; they follow one another, and what is outside them is blank. -/
structure Tiling (cs : List Char) (ts : List Token) : Prop where
  increasing : ts.Pairwise fun a b => a.offset < b.offset ∧ a.stop ≤ b.offset
  longest : ∀ t ∈ ts, Longest (cs.drop t.offset) t.kind t.text.toList
  clean : ∀ t ∈ ts, ¬ LeadingZeros (cs.drop t.offset)
  blank : ∀ (i : Nat) (c : Char), cs[i]? = some c →
    (∀ t ∈ ts, ¬ (t.offset ≤ i ∧ i < t.stop)) → c ∈ blanks

end Plc.Lexical

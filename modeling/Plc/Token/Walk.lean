import Plc.Cursor
import Plc.Token.Lexer

/-!
Tokens by walking over the characters one by one. Behind the end a look shows the character zero,
which may also stand in the text. Every loop goes on as long as what it sees and its turns let it.
-/

namespace Plc

abbrev Lexer.Walk (α : Type) := Cursor Char (LexError × Nat) α

namespace Lexer.Walk

open Cursor (place atEnd entry step advance since fault spent)

def peekAt (distance : Nat) : Walk Char := do
  return (← Cursor.peekAt distance).getD '\x00'

def peek : Walk Char := peekAt 0

def accept (c : Char) : Walk Bool := do
  if ← atEnd then pure false
  else if (← entry) == c then
    step
    pure true
  else pure false

/-- On to the first character that fails the test. -/
def pass (test : Char → Bool) : Nat → Walk Unit
  | 0 => spent
  | turns + 1 => do
    if test (← peek) then
      let _ ← advance
      pass test turns
    else pure ()

def tokenFrom (start : Nat) (kind : Token.Kind) : Walk Token := do
  let text ← since start
  pure ⟨kind, String.ofList text, start⟩

def startsNumber : Walk Bool := do
  let c ← peek
  if c.isDigit then pure true
  else if c == '-' then
    let d ← peekAt 1
    if d == '0' then
      let point ← peekAt 2
      let place ← peekAt 3
      pure (point == '.' && place.isDigit)
    else pure d.isDigit
  else pure false

def word (start turns : Nat) : Walk Token := do
  let _ ← advance
  pass isWordPart turns
  tokenFrom start .identifier

def fraction (start turns : Nat) : Walk Token := do
  let point ← peek
  let place ← peekAt 1
  if point == '.' && place.isDigit then
    let _ ← advance
    pass Char.isDigit turns
    tokenFrom start .decimal
  else tokenFrom start .integer

def number (start turns : Nat) : Walk Token := do
  let _ ← accept '-'
  if ← accept '0' then
    if (← peek).isDigit then fault (.leadingZeros, start)
    else fraction start turns
  else
    pass Char.isDigit turns
    fraction start turns

def escape : Walk Unit := do
  let backslash ← place
  let _ ← advance
  let c ← peek
  if Escape.isLetter c then
    let _ ← advance
  else if ← atEnd then fault (.invalidEscape none, backslash)
  else fault (.invalidEscape (some c), backslash)

def closeCharacter (start : Nat) : Walk Token := do
  if ← accept '\'' then tokenFrom start .character
  else fault (.unterminatedCharacter, ← place)

def character (start : Nat) : Walk Token := do
  let _ ← advance
  let c ← peek
  if c == '\'' then fault (.emptyCharacter, ← place)
  else if c == '\\' then
    escape
    closeCharacter start
  else if isLineBreak c then fault (.unterminatedCharacter, ← place)
  else if ← atEnd then fault (.unterminatedCharacter, ← place)
  else
    let _ ← advance
    closeCharacter start

/-- A string literal behind its opening quote. -/
def stringRest (start : Nat) : Nat → Walk Token
  | 0 => spent
  | turns + 1 => do
    if ← atEnd then fault (.unterminatedString, ← place)
    else
      let c ← peek
      if c == '"' then
        let _ ← advance
        tokenFrom start .string
      else if isLineBreak c then fault (.unterminatedString, ← place)
      else if c == '\\' then
        escape
        stringRest start turns
      else
        let _ ← advance
        stringRest start turns

def string (start turns : Nat) : Walk Token := do
  let _ ← advance
  stringRest start turns

def operator (start : Nat) : Walk Token := do
  let c ← advance
  if c == '!' || c == '=' then
    let _ ← accept '='
  else if c == '&' then
    let _ ← accept '&'
  else if c == '|' then
    let _ ← accept '|'
  tokenFrom start .operator

/-- The token at the place, where there must be a character. -/
def token (turns : Nat) : Walk Token := do
  let start ← place
  let c ← peek
  if isWordStart c then word start turns
  else if ← startsNumber then number start turns
  else if c == '\'' then character start
  else if c == '"' then string start turns
  else operator start

def tokens : Nat → Walk (List Token)
  | 0 => spent
  | turns + 1 => do
    if ← atEnd then pure []
    else if isBlank (← peek) then
      let _ ← advance
      tokens turns
    else
      let first ← token turns
      let others ← tokens turns
      pure (first :: others)

end Lexer.Walk

end Plc

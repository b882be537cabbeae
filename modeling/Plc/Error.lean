import Plc.Evaluation.Error
import Plc.Parser.Basic
import Plc.Token.Lexer
import Plc.Typing.Error

/-!
Errors of the four phases. Only errors in the text know an offset.
-/

namespace Plc

inductive Phase where
  | lex
  | parse
  | analysis
  | runtime
  deriving DecidableEq, Repr, Inhabited

def Phase.text : Phase → String
  | .lex => "Lex Error"
  | .parse => "Parse Error"
  | .analysis => "Analysis Error"
  | .runtime => "Runtime Error"

inductive Error where
  | lex (cause : LexError) (offset : Nat)
  | parse (cause : ParseError) (offset : Nat)
  | analysis (cause : TypeError)
  | runtime (cause : RuntimeError)
  deriving DecidableEq, Repr, Inhabited

namespace Error

def phase : Error → Phase
  | lex .. => .lex
  | parse .. => .parse
  | analysis _ => .analysis
  | runtime _ => .runtime

def message : Error → String
  | lex cause _ => cause.message
  | parse cause _ => cause.message
  | analysis cause => cause.message
  | runtime cause => cause.message

def offset? : Error → Option Nat
  | lex _ offset | parse _ offset => some offset
  | analysis _ | runtime _ => none

end Error

end Plc

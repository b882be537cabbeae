import Plc.Token

/-!
Reading a token list from the front. A parser answers a result and the tokens it left, or a fault:
what was wrong and the tokens from the offending one on. No parser drops a token before it has
accepted it, so the tokens of a fault tell where it lies.
-/

namespace Plc

/-- The places of the grammar where one particular thing must stand. -/
inductive Wanted where
  | declaration
  | globalName
  | valInitializer
  | globalEnd
  | listOpening
  | listClosing
  | functionName
  | parametersOpening
  | parameterName
  | parameterColon
  | parameterType
  | parametersClosing
  | bodyOpening
  | bodyClosing
  | typeName
  | blockEnd
  | localName
  | localEnd
  | ifOpening
  | ifClosing
  | caseColon
  | switchClosing
  | whileOpening
  | whileClosing
  | returnEnd
  | assignmentEnd
  | statementEnd
  | expression
  | groupClosing
  | argumentsClosing
  | indexClosing
  deriving DecidableEq, Repr, Inhabited

def Wanted.phrase : Wanted → String
  | .declaration => "a global or function declaration"
  | .globalName => "global name"
  | .valInitializer => "'=' after VAL name"
  | .globalEnd => "';' after global declaration"
  | .listOpening => "'[' to start a list"
  | .listClosing => "']' after list elements"
  | .functionName => "function name"
  | .parametersOpening => "'(' after function name"
  | .parameterName => "parameter name"
  | .parameterColon => "':' after parameter name"
  | .parameterType => "parameter type"
  | .parametersClosing => "')' after parameters"
  | .bodyOpening => "'DO' before function body"
  | .bodyClosing => "'END' after function body"
  | .typeName => "type name after ':'"
  | .blockEnd => "'END'"
  | .localName => "variable name after 'LET'"
  | .localEnd => "';' after declaration"
  | .ifOpening => "'DO' after if condition"
  | .ifClosing => "'END' after if statement"
  | .caseColon => "':' after case value"
  | .switchClosing => "'END' after switch statement"
  | .whileOpening => "'DO' after while condition"
  | .whileClosing => "'END' after while body"
  | .returnEnd => "';' after return value"
  | .assignmentEnd => "';' after assignment"
  | .statementEnd => "'=' or ';' after expression"
  | .expression => "expression"
  | .groupClosing => "')' after expression"
  | .argumentsClosing => "')' after arguments"
  | .indexClosing => "']' after list index"

inductive ParseError where
  | expected (what : Wanted)
  | globalAfterFunction
  /-- A local declaration with neither a type nor a value. -/
  | bareDeclaration
  | defaultNotLast
  | invalidInteger (text : String)
  | invalidDecimal (text : String)
  | invalidCharacter
  deriving DecidableEq, Repr, Inhabited

def ParseError.message : ParseError → String
  | .expected what => "Expected " ++ what.phrase
  | .globalAfterFunction => "Global declarations must precede all functions"
  | .bareDeclaration => "Declaration requires a type or an initial value"
  | .defaultNotLast => "DEFAULT must be the last case of a switch"
  | .invalidInteger text => "Invalid integer literal '" ++ text ++ "'"
  | .invalidDecimal text => "Invalid decimal literal '" ++ text ++ "'"
  | .invalidCharacter => "Invalid character literal"

namespace Parser

structure Fault where
  cause : ParseError
  rest : List Token
  deriving Repr

end Parser

abbrev Parser (α : Type) := StateT (List Token) (Except Parser.Fault) α

namespace Parser

variable {α : Type}

def fail (cause : ParseError) : Parser α := fun ts => .error ⟨cause, ts⟩

def nextIs (test : Token → Bool) : Parser Bool := fun ts => .ok (ts.head?.any test, ts)

def accept (test : Token → Bool) : Parser Bool
  | t :: ts => if test t then .ok (true, ts) else .ok (false, t :: ts)
  | [] => .ok (false, [])

def require (test : Token → Bool) (what : Wanted) : Parser Unit
  | t :: ts => if test t then .ok ((), ts) else .error ⟨.expected what, t :: ts⟩
  | [] => .error ⟨.expected what, []⟩

def acceptOperator (text : String) : Parser Bool := accept (·.isOperator text)

def acceptKeyword (text : String) : Parser Bool := accept (·.isKeyword text)

def requireOperator (text : String) (what : Wanted) : Parser Unit :=
  require (·.isOperator text) what

def requireKeyword (text : String) (what : Wanted) : Parser Unit :=
  require (·.isKeyword text) what

/-- Any identifier will do as a name, keywords included. -/
def requireName (what : Wanted) : Parser String
  | t :: ts =>
    if t.kind = .identifier then .ok (t.text, ts) else .error ⟨.expected what, t :: ts⟩
  | [] => .error ⟨.expected what, []⟩

/-- One or more items with commas between them; `limit` exceeds their number. -/
def separated (item : Parser α) : (limit : Nat) → Parser (List α)
  | 0 => pure []
  | limit + 1 => do
    let first ← item
    if ← acceptOperator "," then
      let others ← separated item limit
      pure (first :: others)
    else pure [first]

/-- No items before a closing operator, or `separated` ones. -/
def listUntil (closing : String) (item : Parser α) (limit : Nat) : Parser (List α) := do
  if ← nextIs (·.isOperator closing) then pure [] else separated item limit

end Parser

end Plc

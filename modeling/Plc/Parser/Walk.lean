import Plc.Cursor
import Plc.Parser.Program

/-!
Programs by walking over the tokens one by one. A token is looked at before it is taken. What calls
itself goes on as long as what it sees and its turns let it.
-/

namespace Plc.Parser

abbrev Walk (α : Type) := Cursor Token (ParseError × Nat) α

namespace Walk

open Cursor (atEnd place peek advance spent)

variable {α : Type}

def fail (cause : ParseError) : Walk α := do
  match ← peek with
  | some t => Cursor.fault (cause, t.offset)
  | none => Cursor.fault (cause, ((← read).getLast?.map Token.stop).getD 0)

def nextIs (test : Token → Bool) : Walk Bool := do
  return (← peek).any test

def accept (test : Token → Bool) : Walk Bool := do
  if ← nextIs test then
    let _ ← advance
    pure true
  else pure false

def require (test : Token → Bool) (what : Wanted) : Walk Unit := do
  if ← nextIs test then
    let _ ← advance
  else fail (.expected what)

def acceptOperator (text : String) : Walk Bool := accept (·.isOperator text)

def acceptKeyword (text : String) : Walk Bool := accept (·.isKeyword text)

def requireOperator (text : String) (what : Wanted) : Walk Unit := require (·.isOperator text) what

def requireKeyword (text : String) (what : Wanted) : Walk Unit := require (·.isKeyword text) what

def requireName (what : Wanted) : Walk String := do
  if ← nextIs (·.kind == .identifier) then
    return (← advance).text
  else fail (.expected what)

def operatorOf : List Operator → Walk (Option Operator)
  | [] => pure none
  | op :: others => do
    if ← acceptOperator op.text then pure (some op) else operatorOf others

/-- The next token is `<` or `>`. -/
def orderingOperator (strict inclusive : Operator) : Walk (Option Operator) := do
  let t ← advance
  if ← accept (gluedEquals t) then pure (some inclusive) else pure (some strict)

def comparingOperator : Walk (Option Operator) := do
  if ← acceptOperator "==" then pure (some .equal)
  else if ← acceptOperator "!=" then pure (some .notEqual)
  else if ← nextIs (·.isOperator "<") then orderingOperator .less .lessEqual
  else if ← nextIs (·.isOperator ">") then orderingOperator .greater .greaterEqual
  else pure none

/-- The operators of all layers, the loosest first. -/
def layerOperators : List (Walk (Option Operator)) :=
  [operatorOf [.and, .or], comparingOperator, operatorOf [.add, .subtract],
    operatorOf [.multiply, .divide, .power]]

def literal (value : Option Literal) (cause : ParseError) (t : Token) : Walk Expr := do
  let _ ← advance
  match value with
  | some v => pure (.literal v none)
  | none => Cursor.fault (cause, t.offset)

mutual

/-- An expression of these layers. -/
def layers : List (Walk (Option Operator)) → Nat → Walk Expr
  | _, 0 => spent
  | [], turns + 1 => primary turns
  | operator :: tighter, turns + 1 => do
    let first ← layers tighter turns
    chain operator tighter first turns

def chain (operator : Walk (Option Operator)) (tighter : List (Walk (Option Operator))) :
    (left : Expr) → Nat → Walk Expr
  | _, 0 => spent
  | left, turns + 1 => do
    match ← operator with
    | none => pure left
    | some op =>
      let right ← layers tighter turns
      chain operator tighter (.binary op left right none) turns

def primary : Nat → Walk Expr
  | 0 => spent
  | turns + 1 => do
    match ← peek with
    | none => fail (.expected .expression)
    | some t =>
      match t.kind with
      | .identifier =>
        let _ ← advance
        match Literal.ofWord? t.text with
        | some v => pure (.literal v none)
        | none => named t.text turns
      | .integer => literal (Literal.ofInteger? t.text) (.invalidInteger t.text) t
      | .decimal => literal (Literal.ofDecimal? t.text) (.invalidDecimal t.text) t
      | .character => literal (Literal.ofCharacter? t.text) .invalidCharacter t
      | .string =>
        let _ ← advance
        pure (.literal (Literal.ofString t.text) none)
      | .operator =>
        if t.text = "(" then
          let _ ← advance
          let inner ← layers layerOperators turns
          requireOperator ")" .groupClosing
          pure (.group inner none)
        else fail (.expected .expression)

def named (name : String) : Nat → Walk Expr
  | 0 => spent
  | turns + 1 => do
    if ← acceptOperator "(" then
      let arguments ← expressionsUntil ")" turns
      requireOperator ")" .argumentsClosing
      pure (.call name arguments none none)
    else if ← acceptOperator "[" then
      let index ← layers layerOperators turns
      requireOperator "]" .indexClosing
      pure (.element name index none none)
    else pure (.access name none none)

def expressionsUntil (closing : String) : Nat → Walk (List Expr)
  | 0 => spent
  | turns + 1 => do
    if ← nextIs (·.isOperator closing) then pure [] else expressions turns

def expressions : Nat → Walk (List Expr)
  | 0 => spent
  | turns + 1 => do
    let first ← layers layerOperators turns
    if ← acceptOperator "," then
      let others ← expressions turns
      pure (first :: others)
    else pure [first]

end

def expression (turns : Nat) : Walk Expr := layers layerOperators turns

def typeAnnotation : Walk (Option String) := do
  if ← acceptOperator ":" then
    let name ← requireName .typeName
    pure (some name)
  else pure none

def initializer (value : Walk Expr) : Walk (Option Expr) := do
  if ← acceptOperator "=" then
    let e ← value
    pure (some e)
  else pure none

def declaration (turns : Nat) : Walk Stmt := do
  let name ← requireName .localName
  let typeName ← typeAnnotation
  let initial ← initializer (expression turns)
  if typeName.isNone && initial.isNone then fail .bareDeclaration
  requireOperator ";" .localEnd
  pure (.declaration name typeName initial none)

def returned (turns : Nat) : Walk Stmt := do
  let e ← expression turns
  requireOperator ";" .returnEnd
  pure (.return e)

def assignmentOrExpression (turns : Nat) : Walk Stmt := do
  let e ← expression turns
  if ← acceptOperator "=" then
    let assigned ← expression turns
    requireOperator ";" .assignmentEnd
    pure (.assignment e assigned)
  else
    requireOperator ";" .statementEnd
    pure (.expression e)

/-- The tokens are at their end, but none of the words that end the block has come. The last of them
is the one that is missed, so there must be one. -/
def unended (words : List String) : Walk α := do
  match words[words.length - 1]? with
  | some _ => fail (.expected .blockEnd)
  | none => throw (.outside (← place))

mutual

def statement : Nat → Walk Stmt
  | 0 => spent
  | turns + 1 => do
    if ← acceptKeyword "LET" then declaration turns
    else if ← acceptKeyword "IF" then conditional turns
    else if ← acceptKeyword "SWITCH" then switch turns
    else if ← acceptKeyword "WHILE" then loop turns
    else if ← acceptKeyword "RETURN" then returned turns
    else assignmentOrExpression turns

def block (words : List String) : Nat → Walk (List Stmt)
  | 0 => spent
  | turns + 1 => do
    if ← nextIs fun t => words.any t.isKeyword then pure []
    else if ← atEnd then unended words
    else
      let first ← statement turns
      let others ← block words turns
      pure (first :: others)

def conditional : Nat → Walk Stmt
  | 0 => spent
  | turns + 1 => do
    let condition ← expression turns
    requireKeyword "DO" .ifOpening
    let whenTrue ← block ["ELSE", "END"] turns
    let whenFalse ← if ← acceptKeyword "ELSE" then block ["END"] turns else pure []
    requireKeyword "END" .ifClosing
    pure (.conditional condition whenTrue whenFalse)

def valueCases : Nat → Walk (List Case)
  | 0 => spent
  | turns + 1 => do
    if ← acceptKeyword "CASE" then
      let e ← expression turns
      requireOperator ":" .caseColon
      let statements ← block caseTerminators turns
      let others ← valueCases turns
      pure (.arm (some e) statements :: others)
    else pure []

def defaultCase : Nat → Walk (List Case)
  | 0 => spent
  | turns + 1 => do
    if ← acceptKeyword "DEFAULT" then
      let statements ← block caseTerminators turns
      if ← nextIs (·.isKeyword "END") then pure [.arm none statements]
      else fail .defaultNotLast
    else pure []

def switch : Nat → Walk Stmt
  | 0 => spent
  | turns + 1 => do
    let condition ← expression turns
    let cases ← valueCases turns
    let default ← defaultCase turns
    requireKeyword "END" .switchClosing
    pure (.switch condition (cases ++ default))

def loop : Nat → Walk Stmt
  | 0 => spent
  | turns + 1 => do
    let condition ← expression turns
    requireKeyword "DO" .whileOpening
    let body ← block ["END"] turns
    requireKeyword "END" .whileClosing
    pure (.loop condition body)

end

def listLiteral (turns : Nat) : Walk Expr := do
  requireOperator "[" .listOpening
  let elements ← expressionsUntil "]" turns
  requireOperator "]" .listClosing
  pure (.list elements none)

def globalOf (keyword : String) (turns : Nat) : Walk Global := do
  let name ← requireName .globalName
  let typeName ← typeAnnotation
  let value ←
    if keyword = "LIST" then initializer (listLiteral turns)
    else if keyword = "VAR" then initializer (expression turns)
    else do
      requireOperator "=" .valInitializer
      let e ← expression turns
      pure (some e)
  requireOperator ";" .globalEnd
  pure ⟨name, typeName, keyword != "VAL", keyword == "LIST", value, none⟩

/-- A global. Its keyword must be next. -/
def global (turns : Nat) : Walk Global := do
  let keyword ← advance
  globalOf keyword.text turns

def parameter : Walk Parameter := do
  let name ← requireName .parameterName
  requireOperator ":" .parameterColon
  let typeName ← requireName .parameterType
  pure ⟨name, typeName⟩

def parameters : Nat → Walk (List Parameter)
  | 0 => spent
  | turns + 1 => do
    let first ← parameter
    if ← acceptOperator "," then
      let others ← parameters turns
      pure (first :: others)
    else pure [first]

def parameterList (turns : Nat) : Walk (List Parameter) := do
  if ← nextIs (·.isOperator ")") then pure [] else parameters turns

/-- A function. Its keyword has been seen, so that there is no fault for it. -/
def function (turns : Nat) : Walk Function := do
  requireKeyword "FUN" .declaration
  let name ← requireName .functionName
  requireOperator "(" .parametersOpening
  let ps ← parameterList turns
  requireOperator ")" .parametersClosing
  let returns ← typeAnnotation
  requireKeyword "DO" .bodyOpening
  let body ← block ["END"] turns
  requireKeyword "END" .bodyClosing
  pure ⟨name, ps, returns, body, none⟩

/-- Declarations up to the end of the tokens. Once there is a function, no global may come. -/
def declarations (late : Bool) : Nat → Walk Program
  | 0 => spent
  | turns + 1 => do
    if ← atEnd then pure ⟨[], []⟩
    else if ← nextIs fun t => globalKeywords.any t.isKeyword then
      if late then fail .globalAfterFunction
      else
        let first ← global turns
        let others ← declarations late turns
        pure ⟨first :: others.globals, others.functions⟩
    else if ← nextIs (·.isKeyword "FUN") then
      let first ← function turns
      let others ← declarations true turns
      pure ⟨others.globals, first :: others.functions⟩
    else fail (.expected .declaration)

def program (turns : Nat) : Walk Program := declarations false turns

end Walk

end Plc.Parser

import Plc.Parser.Expression

/-!
Statements and blocks. A block ends before the first keyword, in the place of a statement, that is
one of its terminators; there is a terminator for every block, so no block ends with the tokens.
-/

namespace Plc.Parser

def typeAnnotation : Parser (Option String) := do
  if ← acceptOperator ":" then
    let name ← requireName .typeName
    pure (some name)
  else pure none

def initializer (value : Parser Expr) : Parser (Option Expr) := do
  if ← acceptOperator "=" then
    let e ← value
    pure (some e)
  else pure none

/-- Statements up to a terminator, which is not read. -/
def block (terminators : List String) (statement : Parser Stmt) :
    (limit : Nat) → Parser (List Stmt)
  | 0 => fail (.expected .blockEnd)
  | limit + 1 => do
    if ← nextIs fun t => terminators.any t.isKeyword then pure []
    else if ← nextIs fun _ => true then
      let first ← statement
      let others ← block terminators statement limit
      pure (first :: others)
    else fail (.expected .blockEnd)

def declaration (value : Parser Expr) : Parser Stmt := do
  let name ← requireName .localName
  let typeName ← typeAnnotation
  let initial ← initializer value
  if typeName.isNone && initial.isNone then fail .bareDeclaration
  requireOperator ";" .localEnd
  pure (.declaration name typeName initial none)

def conditional (limit : Nat) (value : Parser Expr) (statement : Parser Stmt) : Parser Stmt := do
  let condition ← value
  requireKeyword "DO" .ifOpening
  let whenTrue ← block ["ELSE", "END"] statement limit
  let whenFalse ←
    if ← acceptKeyword "ELSE" then block ["END"] statement limit else pure []
  requireKeyword "END" .ifClosing
  pure (.conditional condition whenTrue whenFalse)

def caseTerminators : List String := ["CASE", "DEFAULT", "END"]

/-- The arms of a switch that have a value. -/
def valueCases (value : Parser Expr) (body : Parser (List Stmt)) :
    (limit : Nat) → Parser (List Case)
  | 0 => pure []
  | limit + 1 => do
    if ← acceptKeyword "CASE" then
      let e ← value
      requireOperator ":" .caseColon
      let statements ← body
      let others ← valueCases value body limit
      pure (.arm (some e) statements :: others)
    else pure []

/-- The default arm, if there is one; only `END` may follow it. -/
def defaultCase (body : Parser (List Stmt)) : Parser (List Case) := do
  if ← acceptKeyword "DEFAULT" then
    let statements ← body
    if ← nextIs (·.isKeyword "END") then pure [.arm none statements]
    else fail .defaultNotLast
  else pure []

def switch (limit : Nat) (value : Parser Expr) (statement : Parser Stmt) : Parser Stmt := do
  let condition ← value
  let body := block caseTerminators statement limit
  let cases ← valueCases value body limit
  let default ← defaultCase body
  requireKeyword "END" .switchClosing
  pure (.switch condition (cases ++ default))

def loop (limit : Nat) (value : Parser Expr) (statement : Parser Stmt) : Parser Stmt := do
  let condition ← value
  requireKeyword "DO" .whileOpening
  let body ← block ["END"] statement limit
  requireKeyword "END" .whileClosing
  pure (.loop condition body)

def returned (value : Parser Expr) : Parser Stmt := do
  let e ← value
  requireOperator ";" .returnEnd
  pure (.return e)

/-- A statement that starts with no keyword: an assignment or an expression by itself. -/
def assignmentOrExpression (value : Parser Expr) : Parser Stmt := do
  let e ← value
  if ← acceptOperator "=" then
    let assigned ← value
    requireOperator ";" .assignmentEnd
    pure (.assignment e assigned)
  else
    requireOperator ";" .statementEnd
    pure (.expression e)

def statement : (limit : Nat) → Parser Stmt
  | 0 => fail (.expected .expression)
  | limit + 1 => do
    let value := expression (limit + 1)
    if ← acceptKeyword "LET" then declaration value
    else if ← acceptKeyword "IF" then conditional (limit + 1) value (statement limit)
    else if ← acceptKeyword "SWITCH" then switch (limit + 1) value (statement limit)
    else if ← acceptKeyword "WHILE" then loop (limit + 1) value (statement limit)
    else if ← acceptKeyword "RETURN" then returned value
    else assignmentOrExpression value

end Plc.Parser

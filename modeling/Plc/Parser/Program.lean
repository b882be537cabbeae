import Plc.Parser.Statement

/-!
Whole programs: globals, then functions, up to the end of the tokens. An error is located at the
first token that fits nothing, or just behind the last token when more of them were needed.
-/

namespace Plc

namespace Parser

def globalKeywords : List String := ["LIST", "VAR", "VAL"]

def listLiteral (limit : Nat) : Parser Expr := do
  requireOperator "[" .listOpening
  let elements ← listUntil "]" (expression limit) limit
  requireOperator "]" .listClosing
  pure (.list elements none)

/-- A global from its keyword on. A list takes only list literals, a constant needs a value. -/
def globalOf (limit : Nat) (keyword : String) : Parser Global := do
  let name ← requireName .globalName
  let typeName ← typeAnnotation
  let value ←
    if keyword = "LIST" then initializer (listLiteral limit)
    else if keyword = "VAR" then initializer (expression limit)
    else do
      requireOperator "=" .valInitializer
      let e ← expression limit
      pure (some e)
  requireOperator ";" .globalEnd
  pure ⟨name, typeName, keyword != "VAL", keyword == "LIST", value, none⟩

def parameter : Parser Parameter := do
  let name ← requireName .parameterName
  requireOperator ":" .parameterColon
  let typeName ← requireName .parameterType
  pure ⟨name, typeName⟩

def function (limit : Nat) : Parser Function := do
  let name ← requireName .functionName
  requireOperator "(" .parametersOpening
  let parameters ← listUntil ")" parameter limit
  requireOperator ")" .parametersClosing
  let returns ← typeAnnotation
  requireKeyword "DO" .bodyOpening
  let body ← block ["END"] (statement limit) limit
  requireKeyword "END" .bodyClosing
  pure ⟨name, parameters, returns, body, none⟩

def globalKeyword : Parser (Option String)
  | t :: ts =>
    if globalKeywords.any t.isKeyword then .ok (some t.text, ts) else .ok (none, t :: ts)
  | [] => .ok (none, [])

def globals (limit : Nat) : (count : Nat) → Parser (List Global)
  | 0 => pure []
  | count + 1 => do
    match ← globalKeyword with
    | some keyword =>
      let first ← globalOf limit keyword
      let others ← globals limit count
      pure (first :: others)
    | none => pure []

/-- Functions up to the end of the tokens. No global is left in front of them. -/
def functions (limit : Nat) : (count : Nat) → Parser (List Function)
  | 0 => pure []
  | count + 1 => do
    if ← acceptKeyword "FUN" then
      let first ← function limit
      let others ← functions limit count
      pure (first :: others)
    else if ← nextIs fun t => globalKeywords.any t.isKeyword then
      fail .globalAfterFunction
    else if ← nextIs fun _ => true then fail (.expected .declaration)
    else pure []

def program (limit : Nat) : Parser Program := do
  let gs ← globals limit limit
  let fs ← functions limit limit
  pure ⟨gs, fs⟩

/-- The offset of the first token left, or the end of all tokens when none is left. -/
def faultOffset (all rest : List Token) : Nat :=
  match rest.head?, all.getLast? with
  | some t, _ => t.offset
  | none, some t => t.stop
  | none, none => 0

end Parser

def Program.ofTokens (ts : List Token) : Except (ParseError × Nat) Program :=
  match Parser.program (ts.length + 1) ts with
  | .ok (p, _) => .ok p
  | .error fault => .error (fault.cause, Parser.faultOffset ts fault.rest)

end Plc

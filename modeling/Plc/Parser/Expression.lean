import Plc.Parser.Basic
import Plc.Program

/-!
Expressions. Four layers of binary operators bind the tighter the later they come here: logical,
comparing, adding, multiplying. Each groups to the left. `limit` bounds nesting and repetition; any
number above that of the tokens is enough.
-/

namespace Plc.Parser

def operatorOf (table : List Operator) : Parser (Option Operator)
  | t :: ts =>
    match table.find? fun op => t.isOperator op.text with
    | some op => .ok (some op, ts)
    | none => .ok (none, t :: ts)
  | [] => .ok (none, [])

def logicalOperator : Parser (Option Operator) := operatorOf [.and, .or]

def addingOperator : Parser (Option Operator) := operatorOf [.add, .subtract]

def multiplyingOperator : Parser (Option Operator) := operatorOf [.multiply, .divide, .power]

/-- Whether `next` is an `=` that starts where `t` ends. -/
def gluedEquals (t next : Token) : Bool := next.isOperator "=" && next.offset == t.stop

/-- What `<` or `>`, which is `t`, means: an `=` behind it without a gap includes equality. -/
def orderingOperator (t : Token) (strict inclusive : Operator) : Parser (Option Operator)
  | next :: ts =>
    if gluedEquals t next then .ok (some inclusive, ts) else .ok (some strict, next :: ts)
  | [] => .ok (some strict, [])

def comparingOperator : Parser (Option Operator)
  | t :: ts =>
    if t.isOperator "==" then .ok (some .equal, ts)
    else if t.isOperator "!=" then .ok (some .notEqual, ts)
    else if t.isOperator "<" then orderingOperator t .less .lessEqual ts
    else if t.isOperator ">" then orderingOperator t .greater .greaterEqual ts
    else .ok (none, t :: ts)
  | [] => .ok (none, [])

def chain (operator : Parser (Option Operator)) (operand : Parser Expr) :
    (limit : Nat) → (left : Expr) → Parser Expr
  | 0, left => pure left
  | limit + 1, left => do
    match ← operator with
    | none => pure left
    | some op =>
      let right ← operand
      chain operator operand limit (.binary op left right none)

def layer (limit : Nat) (operator : Parser (Option Operator)) (operand : Parser Expr) :
    Parser Expr := do
  let first ← operand
  chain operator operand limit first

def layers (limit : Nat) (primary : Parser Expr) : Parser Expr :=
  layer limit logicalOperator <|
    layer limit comparingOperator <|
      layer limit addingOperator <|
        layer limit multiplyingOperator primary

/-- What may follow a name: arguments, an index, or nothing. -/
def named (limit : Nat) (nested : Parser Expr) (name : String) : Parser Expr := do
  if ← acceptOperator "(" then
    let arguments ← listUntil ")" nested limit
    requireOperator ")" .argumentsClosing
    pure (.call name arguments none none)
  else if ← acceptOperator "[" then
    let index ← nested
    requireOperator "]" .indexClosing
    pure (.element name index none none)
  else pure (.access name none none)

def literal (value : Option Literal) (cause : ParseError) (t : Token) (ts : List Token) :
    Except Fault (Expr × List Token) :=
  match value with
  | some v => .ok (.literal v none, ts)
  | none => .error ⟨cause, t :: ts⟩

def group (nested : Parser Expr) : Parser Expr := do
  let inner ← nested
  requireOperator ")" .groupClosing
  pure (.group inner none)

def primary (limit : Nat) (nested : Parser Expr) : Parser Expr
  | [] => .error ⟨.expected .expression, []⟩
  | t :: ts =>
    match t.kind with
    | .identifier =>
      match Literal.ofWord? t.text with
      | some v => .ok (.literal v none, ts)
      | none => named limit nested t.text ts
    | .integer => literal (Literal.ofInteger? t.text) (.invalidInteger t.text) t ts
    | .decimal => literal (Literal.ofDecimal? t.text) (.invalidDecimal t.text) t ts
    | .character => literal (Literal.ofCharacter? t.text) .invalidCharacter t ts
    | .string => .ok (.literal (Literal.ofString t.text) none, ts)
    | .operator =>
      if t.text = "(" then group nested ts else .error ⟨.expected .expression, t :: ts⟩

def expression : (limit : Nat) → Parser Expr
  | 0 => fail (.expected .expression)
  | limit + 1 => layers (limit + 1) (primary (limit + 1) (expression limit))

end Plc.Parser

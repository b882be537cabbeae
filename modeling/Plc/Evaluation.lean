import Plc.Machine

/-!
Evaluation. Operands and arguments are evaluated from left to right, blocks have scopes of their
own, and a function runs in a new scope inside the one it was defined in. `fuel` bounds the depth of
the work; when it is too small the evaluation ends as `exhausted`, and more of it changes no other
result.
-/

namespace Plc

/-- How a statement ends: the next one follows, or the function returns. -/
inductive Flow where
  | next
  | returned (value : Value)
  deriving Repr, Inhabited

namespace Eval

/-- Statements in turn, up to one that returns. -/
def sequence (execute : Stmt → Eval Flow) : List Stmt → Eval Flow
  | [] => pure .next
  | s :: ss => do
    match ← execute s with
    | .next => sequence execute ss
    | .returned value => pure (.returned value)

/-- The body of the first arm whose value equals `value`. -/
def matching (evaluate : Expr → Eval Value) (value : Value) :
    List Case → Eval (Option (List Stmt))
  | [] => pure none
  | .arm none _ :: others => matching evaluate value others
  | .arm (some e) body :: others => do
    let v ← evaluate e
    if ← onHeap fun h => Operation.equal h v value then pure (some body)
    else matching evaluate value others

def defaultBody (cases : List Case) : Option (List Stmt) :=
  (cases.find? fun c => c.value.isNone).map Case.body

def boolean : Value → Eval Bool
  | .boolean b => pure b
  | v => fail (.conditionNotBoolean v.kind)

/-- Parameters and arguments in pairs, as long as there are both. -/
def bindParameters : List Parameter → List Value → Eval Unit
  | p :: ps, v :: vs => do
    define p.name true v
    bindParameters ps vs
  | _, _ => pure ()

def print : List Value → Eval Value
  | [v] => do
    let line ← onHeap fun h => Operation.text h v
    printLine line
    pure .nil
  | vs => fail (.printArity vs.length)

variable (rule : DivisionScale)

mutual

def evaluate : (fuel : Nat) → Expr → Eval Value
  | 0, _ => throw .exhausted
  | fuel + 1, e =>
    match e with
    | .literal value _ => pure (.ofLiteral value)
    | .group inner _ => evaluate fuel inner
    | .binary op left right _ =>
      match op with
      | .and => do
        if ← condition fuel left then
          let b ← condition fuel right
          pure (.boolean b)
        else pure (.boolean false)
      | .or => do
        if ← condition fuel left then pure (.boolean true)
        else
          let b ← condition fuel right
          pure (.boolean b)
      | op => do
        let l ← evaluate fuel left
        let r ← evaluate fuel right
        onHeap fun h => Operation.apply rule h op l r
    | .access name _ _ => do
      let i ← cellNamed name
      let c ← cell i
      pure c.value
    | .element name index _ _ => do
      let i ← cellNamed name
      let c ← cell i
      let place ← listOf c
      let v ← evaluate fuel index
      let vs ← elements place
      let k ← position vs.length v
      pure (vs.getD k .nil)
    | .call name args _ _ => do
      let f ← callableNamed name args.length
      let vs ← args.mapM (evaluate fuel)
      invoke fuel f vs
    | .list es _ => do
      let vs ← es.mapM (evaluate fuel)
      newList vs

def condition : (fuel : Nat) → Expr → Eval Bool
  | 0, _ => throw .exhausted
  | fuel + 1, e => do
    let v ← evaluate fuel e
    boolean v

def invoke : (fuel : Nat) → Callable → List Value → Eval Value
  | 0, _, _ => throw .exhausted
  | fuel + 1, f, vs =>
    match f with
    | .print => print vs
    | .function declaration scope => do
      if !(← get).isAlive scope then fail (.outlivedScope declaration.name)
      let flow ← inChildOf scope do
        bindParameters declaration.parameters vs
        sequence (execute fuel) declaration.body
      match flow with
      | .returned v => pure v
      | .next => pure .nil

def execute : (fuel : Nat) → Stmt → Eval Flow
  | 0, _ => throw .exhausted
  | fuel + 1, s =>
    match s with
    | .expression e => do
      let _ ← evaluate fuel e
      pure .next
    | .declaration name _ value _ => do
      let v ← match value with
        | some e => evaluate fuel e
        | none => pure .nil
      define name true v
      pure .next
    | .assignment receiver value => do
      assign fuel receiver value
      pure .next
    | .conditional c whenTrue whenFalse => do
      let b ← condition fuel c
      inChild (sequence (execute fuel) (if b then whenTrue else whenFalse))
    | .switch c cases => do
      let v ← evaluate fuel c
      inChild do
        let body ← matching (evaluate fuel) v cases
        match body <|> defaultBody cases with
        | some body => inChild (sequence (execute fuel) body)
        | none => pure .next
    | .loop c body => repeatWhile fuel c body
    | .return e => do
      let v ← evaluate fuel e
      pure (.returned v)

/-- An element is stored only after its index and its value are known and checked. -/
def assign : (fuel : Nat) → (receiver value : Expr) → Eval Unit
  | 0, _, _ => throw .exhausted
  | fuel + 1, receiver, value =>
    match receiver with
    | .access name _ _ => do
      let i ← cellNamed name
      let c ← cell i
      if !c.mutable then fail (.immutable name)
      let v ← evaluate fuel value
      setCell i v
    | .element name index _ _ => do
      let i ← cellNamed name
      let c ← cell i
      let place ← listOf c
      let k ← evaluate fuel index
      let v ← evaluate fuel value
      if ← onHeap fun h => Operation.closesCycle h place v then fail (.selfContaining name)
      let vs ← elements place
      let k ← position vs.length k
      setElement place k v
    | _ => fail .badReceiver

/-- The body, in a new scope each time, for as long as the condition holds. -/
def repeatWhile : (fuel : Nat) → Expr → List Stmt → Eval Flow
  | 0, _, _ => throw .exhausted
  | fuel + 1, c, body => do
    if ← condition fuel c then
      match ← inChild (sequence (execute fuel) body) with
      | .next => repeatWhile fuel c body
      | .returned v => pure (.returned v)
    else pure .next

end

/-- A global without a value is an empty list or nil. -/
def defineGlobal (fuel : Nat) (g : Global) : Eval Unit := do
  let v ← match g.value with
    | some e => evaluate rule fuel e
    | none => if g.list then newList [] else pure .nil
  define g.name g.mutable v

def mainResult : Value → Eval Int
  | .integer n => pure n
  | v => fail (.mainResult v.kind)

/-- Globals and functions are defined in their order, then `main` is called. -/
def program (fuel : Nat) (p : Program) : Eval Int := do
  p.globals.forM (defineGlobal rule fuel)
  p.functions.forM defineFunction
  match (← get).scopes.findFunction? (← get).current "main" 0 with
  | none => fail .mainMissing
  | some main => do
    let v ← invoke rule fuel main []
    mainResult v

end Eval

end Plc

import Plc.Typing.Error
import Plc.Program

/-!
Typing. Every name of a program is resolved and every expression gets a type; the answer is the
program with these noted in its slots, or the first violation in reading order. What a program
defines stays in the scopes of the context also when a later part of it is refused.
-/

namespace Plc

/-- What the typing of a construct may look at: the scopes, the one it stands in, and the return
type of the function around it. -/
structure Context where
  scopes : Scopes Variable Signature
  current : Nat
  returns : Option Ty

abbrev Typing (α : Type) := EStateM TypeError Context α

namespace Typing

variable {α : Type}

def printSignature : Signature := ⟨"print", [.any], .nil⟩

def inChild (act : Typing α) : Typing α := fun c =>
  let inside := { c with scopes := c.scopes.addChild c.current, current := c.scopes.next }
  match act inside with
  | .ok a d => .ok a { d with current := c.current }
  | .error e d => .error e { d with current := c.current }

def returning (ty : Ty) (act : Typing α) : Typing α := fun c =>
  match act { c with returns := some ty } with
  | .ok a d => .ok a { d with returns := c.returns }
  | .error e d => .error e { d with returns := c.returns }

def defineVariable (v : Variable) : Typing Unit := fun c =>
  match c.scopes.defineVariable c.current v.name v with
  | .ok scopes => .ok () { c with scopes }
  | .error r => .error (.redefinition r) c

def defineFunction (s : Signature) : Typing Unit := fun c =>
  match c.scopes.defineFunction c.current s.name s.arity s with
  | .ok scopes => .ok () { c with scopes }
  | .error r => .error (.redefinition r) c

def variableNamed (name : String) : Typing Variable := do
  let c ← get
  match c.scopes.findVariable? c.current name with
  | some v => pure v
  | none => throw (.undefinedVariable name)

def functionNamed (name : String) (arity : Nat) : Typing Signature := do
  let c ← get
  match c.scopes.findFunction? c.current name arity with
  | some s => pure s
  | none => throw (.undefinedFunction name arity)

def typeNamed (name : String) : Typing Ty :=
  match Ty.ofName? name with
  | some ty => pure ty
  | none => throw (.unknownType name)

def requireAccepts (target actual : Ty) : Typing Unit :=
  if target.accepts actual then pure () else throw (.notAssignable target actual)

/-- Integer literals have 32 bits, decimal literals the range of binary64. -/
def literal : Literal → Typing Ty
  | .nil => pure .nil
  | .boolean _ => pure .boolean
  | .character _ => pure .character
  | .string _ => pure .string
  | .integer n => if isInt32 n then pure .integer else throw (.integerRange n)
  | .decimal d => if d.isFinite64 then pure .decimal else throw (.decimalRange d)

/-- Only an operator may stand directly in parentheses. -/
def requireBinary : Expr → Typing Unit
  | .binary .. => pure ()
  | _ => throw .groupWithoutOperator

mutual

def expr : Expr → Typing (Expr × Ty)
  | .literal value _ => do
    let ty ← literal value
    pure (.literal value (some ty), ty)
  | .group inner _ => do
    requireBinary inner
    let (inner, ty) ← expr inner
    pure (.group inner (some ty), ty)
  | .binary op left right _ => do
    let (left, leftTy) ← expr left
    let (right, rightTy) ← expr right
    match op.resultType? leftTy rightTy with
    | some ty => pure (.binary op left right (some ty), ty)
    | none => throw (.operands op leftTy rightTy)
  | .access name _ _ => do
    let v ← variableNamed name
    -- a list as a whole may stand only where anything may
    let ty := if v.list then .any else v.ty
    pure (.access name (some v) (some ty), ty)
  | .element name index _ _ => do
    let v ← variableNamed name
    if !v.list then throw (.notList name)
    let (index, indexTy) ← expr index
    if indexTy ≠ .integer then throw (.indexNotInteger indexTy)
    pure (.element name index (some v) (some v.ty), v.ty)
  | .call name args _ _ => do
    let s ← functionNamed name args.length
    let args ← arguments s.parameters args
    pure (.call name args (some s) (some s.returns), s.returns)
  | .list elements _ =>
    match elements with
    | [] => throw .emptyList
    | first :: others => do
      let (first, ty) ← expr first
      let others ← elementsOf ty others
      pure (.list (first :: others) (some ty), ty)

/-- Each argument is typed and compared with its parameter before the next one is typed. -/
def arguments : List Ty → List Expr → Typing (List Expr)
  | expected :: types, e :: es => do
    let (e, ty) ← expr e
    requireAccepts expected ty
    let es ← arguments types es
    pure (e :: es)
  | _, es => pure es

/-- The elements of a list after the first, whose type they share. -/
def elementsOf (expected : Ty) : List Expr → Typing (List Expr)
  | [] => pure []
  | e :: es => do
    let (e, ty) ← expr e
    if ty ≠ expected then throw (.mixedList expected ty)
    let es ← elementsOf expected es
    pure (e :: es)

end

/-- The initial value of `name` with its type. An empty list has no type but the declared one. -/
def initializer (name : String) (declared : Option Ty) : Expr → Typing (Expr × Ty)
  | .list [] _ =>
    match declared with
    | some ty => pure (.list [] (some ty), ty)
    | none => throw (.untypedEmptyList name)
  | e => expr e

/-- The type of a new variable, from the name of a type or from its value. -/
def declaredType (name : String) (typeName : Option String) (value : Option Expr) :
    Typing (Option Expr × Ty) := do
  let declared ← typeName.mapM typeNamed
  match value with
  | some e => do
    let (e, actual) ← initializer name declared e
    match declared with
    | some target => do
      requireAccepts target actual
      pure (some e, target)
    | none => pure (some e, actual)
  | none =>
    match declared with
    | some target => pure (none, target)
    | none => throw (.neitherTypeNorValue name)

def condition (statement : Conditional) (e : Expr) : Typing Expr := do
  let (e, ty) ← expr e
  if ty ≠ .boolean then throw (.conditionNotBoolean statement ty)
  pure e

/-- The value is typed before its receiver. -/
def assignment (receiver value : Expr) : Typing Stmt := do
  match receiver with
  | .access name _ _ => do
    let (value, valueTy) ← expr value
    let v ← variableNamed name
    if v.list then throw (.wholeListAssigned name)
    requireAccepts v.ty valueTy
    pure (.assignment (.access name (some v) (some v.ty)) value)
  | .element .. => do
    let (value, valueTy) ← expr value
    let (receiver, receiverTy) ← expr receiver
    requireAccepts receiverTy valueTy
    pure (.assignment receiver value)
  | _ => throw .badReceiver

/-- The value of an arm has the type of the condition. -/
def caseValue (conditionTy : Ty) : Option Expr → Typing (Option Expr)
  | some e => do
    let (e, ty) ← expr e
    if ty ≠ conditionTy then throw (.caseMismatch ty conditionTy)
    pure (some e)
  | none => pure none

mutual

def stmt : Stmt → Typing Stmt
  | .expression e =>
    match e with
    | .call .. => do
      let (e, _) ← expr e
      pure (.expression e)
    | _ => throw .statementNotCall
  | .declaration name typeName value _ => do
    let (value, ty) ← declaredType name typeName value
    let v := Variable.single name ty true
    defineVariable v
    pure (.declaration name typeName value (some v))
  | .assignment receiver value => assignment receiver value
  | .conditional c whenTrue whenFalse => do
    let c ← condition .if c
    if whenTrue.isEmpty then throw .emptyThen
    let whenTrue ← inChild (block whenTrue)
    let whenFalse ← if whenFalse.isEmpty then pure [] else inChild (block whenFalse)
    pure (.conditional c whenTrue whenFalse)
  | .switch c arms => do
    let (c, ty) ← expr c
    let arms ← cases ty arms
    pure (.switch c arms)
  | .loop c body => do
    let c ← condition .while c
    let body ← inChild (block body)
    pure (.loop c body)
  | .return value => do
    match (← get).returns with
    | none => throw .strayReturn
    | some expected => do
      let (value, actual) ← expr value
      requireAccepts expected actual
      pure (.return value)

def block : List Stmt → Typing (List Stmt)
  | [] => pure []
  | s :: ss => do
    let s ← stmt s
    let ss ← block ss
    pure (s :: ss)

/-- The arms of a switch over a value of type `ty`. Value and body of an arm share a scope. -/
def cases (ty : Ty) : List Case → Typing (List Case)
  | [] => pure []
  | .arm value body :: others => do
    if value.isNone && !others.isEmpty then throw .defaultNotLast
    let arm ← inChild do
      let value ← caseValue ty value
      let body ← block body
      pure (Case.arm value body)
    let others ← cases ty others
    pure (arm :: others)

end

def global (g : Global) : Typing Global := do
  let (value, ty) ← declaredType g.name g.typeName g.value
  let v := if g.list then Variable.ofList g.name ty else Variable.single g.name ty g.mutable
  defineVariable v
  pure { g with value, record := some v }

def defineParameters : List Parameter → List Ty → Typing Unit
  | p :: ps, ty :: types => do
    defineVariable (Variable.single p.name ty true)
    defineParameters ps types
  | _, _ => pure ()

/-- A function is defined before its body is typed, so it may call itself. -/
def function (f : Function) : Typing Function := do
  let types ← f.parameters.mapM fun p => typeNamed p.typeName
  let returns ← match f.returns with
    | some name => typeNamed name
    | none => pure .nil
  let s : Signature := ⟨f.name, types, returns⟩
  defineFunction s
  let body ← returning returns <| inChild do
    defineParameters f.parameters types
    block f.body
  pure { f with body, signature := some s }

/-- A program is run through `main`, which takes nothing and returns an integer. -/
def requireMain : Typing Unit := do
  let c ← get
  match c.scopes.findFunction? c.current "main" 0 with
  | some s => if s.returns = .integer then pure () else throw (.mainResult s.returns)
  | none => throw .mainMissing

def program (p : Program) : Typing Program := do
  let globals ← p.globals.mapM global
  let functions ← p.functions.mapM function
  requireMain
  pure ⟨globals, functions⟩

end Typing

namespace Context

/-- The scopes with a new global scope, in which `print` is known, inside `parent`. -/
def inside (scopes : Scopes Variable Signature) (parent : Nat) : Context :=
  let i := scopes.next
  ⟨(scopes.addChild parent).bindFunction i "print" 1 Typing.printSignature, i, none⟩

def fresh : Context := inside Scopes.single 0

end Context

def Program.check (p : Program) : Except TypeError Program :=
  match Typing.program p Context.fresh with
  | .ok p _ => .ok p
  | .error e _ => .error e

end Plc

import Plc.Typing

/-!
Typing in place. `Typing` answers with a new tree; here the slots of the tree that was given are
written instead, each as soon as all that it depends on has passed. An action that is refused leaves
its tree behind with the slots that were written before.
-/

namespace Plc

/-- An action on a tree of type `τ`. A refusal comes with the tree as it is then. -/
abbrev InPlace (τ α : Type) := EStateM (τ × TypeError) Context α

namespace InPlace

variable {σ τ α : Type}

def leaving (tree : τ) (act : Typing α) : InPlace τ α := fun c =>
  match act c with
  | .ok a d => .ok a d
  | .error e d => .error (tree, e) d

def within (wrap : σ → τ) (act : InPlace σ α) : InPlace τ α := fun c =>
  match act c with
  | .ok a d => .ok a d
  | .error (part, e) d => .error (wrap part, e) d

def inChild (act : InPlace τ α) : InPlace τ α := fun c =>
  let inside := { c with scopes := c.scopes.addChild c.current, current := c.scopes.next }
  match act inside with
  | .ok a d => .ok a { d with current := c.current }
  | .error e d => .error e { d with current := c.current }

def returning (ty : Ty) (act : InPlace τ α) : InPlace τ α := fun c =>
  match act { c with returns := some ty } with
  | .ok a d => .ok a { d with returns := c.returns }
  | .error e d => .error e { d with returns := c.returns }

def each (act : σ → InPlace σ σ) : List σ → InPlace (List σ) (List σ)
  | [] => pure []
  | a :: as => do
    let a ← within (· :: as) (act a)
    let as ← within (a :: ·) (each act as)
    pure (a :: as)

mutual

def expr : Expr → InPlace Expr (Expr × Ty)
  | .literal value slot => do
    let ty ← leaving (.literal value slot) (Typing.literal value)
    pure (.literal value (some ty), ty)
  | .group inner slot => do
    leaving (.group inner slot) (Typing.requireBinary inner)
    let (inner, ty) ← within (.group · slot) (expr inner)
    pure (.group inner (some ty), ty)
  | .binary op left right slot => do
    let (left, leftTy) ← within (.binary op · right slot) (expr left)
    let (right, rightTy) ← within (.binary op left · slot) (expr right)
    match op.resultType? leftTy rightTy with
    | some ty => pure (.binary op left right (some ty), ty)
    | none => throw (.binary op left right slot, .operands op leftTy rightTy)
  | .access name record slot => do
    let v ← leaving (.access name record slot) (Typing.variableNamed name)
    let ty := if v.list then .any else v.ty
    pure (.access name (some v) (some ty), ty)
  | .element name index record slot => do
    let v ← leaving (.element name index record slot) (Typing.variableNamed name)
    if !v.list then throw (.element name index record slot, .notList name)
    let (index, indexTy) ← within (.element name · record slot) (expr index)
    if indexTy ≠ .integer then
      throw (.element name index record slot, .indexNotInteger indexTy)
    pure (.element name index (some v) (some v.ty), v.ty)
  | .call name args signature slot => do
    let s ← leaving (.call name args signature slot) (Typing.functionNamed name args.length)
    let args ← within (.call name · signature slot) (arguments s.parameters args)
    pure (.call name args (some s) (some s.returns), s.returns)
  | .list elements slot =>
    match elements with
    | [] => throw (.list [] slot, .emptyList)
    | first :: others => do
      let (first, ty) ← within (fun first => .list (first :: others) slot) (expr first)
      let others ← within (fun others => .list (first :: others) slot) (elementsOf ty others)
      pure (.list (first :: others) (some ty), ty)

def arguments : List Ty → List Expr → InPlace (List Expr) (List Expr)
  | expected :: types, e :: es => do
    let (e, ty) ← within (· :: es) (expr e)
    leaving (e :: es) (Typing.requireAccepts expected ty)
    let es ← within (e :: ·) (arguments types es)
    pure (e :: es)
  | _, es => pure es

def elementsOf (expected : Ty) : List Expr → InPlace (List Expr) (List Expr)
  | [] => pure []
  | e :: es => do
    let (e, ty) ← within (· :: es) (expr e)
    if ty ≠ expected then throw (e :: es, .mixedList expected ty)
    let es ← within (e :: ·) (elementsOf expected es)
    pure (e :: es)

end

def initializer (name : String) (declared : Option Ty) : Expr → InPlace Expr (Expr × Ty)
  | .list [] slot =>
    match declared with
    | some ty => pure (.list [] (some ty), ty)
    | none => throw (.list [] slot, .untypedEmptyList name)
  | e => expr e

def declaredType (name : String) (typeName : Option String) (value : Option Expr) :
    InPlace (Option Expr) (Option Expr × Ty) := do
  let declared ← leaving value (typeName.mapM Typing.typeNamed)
  match value with
  | some e => do
    let (e, actual) ← within some (initializer name declared e)
    match declared with
    | some target => do
      leaving (some e) (Typing.requireAccepts target actual)
      pure (some e, target)
    | none => pure (some e, actual)
  | none =>
    match declared with
    | some target => pure (none, target)
    | none => throw (none, .neitherTypeNorValue name)

def condition (statement : Conditional) (e : Expr) : InPlace Expr Expr := do
  let (e, ty) ← expr e
  if ty ≠ .boolean then throw (e, .conditionNotBoolean statement ty)
  pure e

/-- Whether the receiver is a whole list is read from its slot, which is written before. -/
def assignment (receiver value : Expr) : InPlace Stmt Stmt := do
  match receiver with
  | .access .. | .element .. => do
    let (value, valueTy) ← within (.assignment receiver ·) (expr value)
    let (receiver, receiverTy) ← within (.assignment · value) (expr receiver)
    match receiver with
    | .access name (some v) _ =>
      if v.list then throw (.assignment receiver value, .wholeListAssigned name)
    | _ => pure ()
    leaving (.assignment receiver value) (Typing.requireAccepts receiverTy valueTy)
    pure (.assignment receiver value)
  | _ => throw (.assignment receiver value, .badReceiver)

def caseValue (conditionTy : Ty) : Option Expr → InPlace (Option Expr) (Option Expr)
  | some e => do
    let (e, ty) ← within some (expr e)
    if ty ≠ conditionTy then throw (some e, .caseMismatch ty conditionTy)
    pure (some e)
  | none => pure none

mutual

def stmt : Stmt → InPlace Stmt Stmt
  | .expression e =>
    match e with
    | .call .. => do
      let (e, _) ← within .expression (expr e)
      pure (.expression e)
    | _ => throw (.expression e, .statementNotCall)
  | .declaration name typeName value record => do
    let (value, ty) ← within (.declaration name typeName · record) (declaredType name typeName value)
    let v := Variable.single name ty true
    leaving (.declaration name typeName value record) (Typing.defineVariable v)
    pure (.declaration name typeName value (some v))
  | .assignment receiver value => assignment receiver value
  | .conditional c whenTrue whenFalse => do
    let c ← within (.conditional · whenTrue whenFalse) (condition .if c)
    if whenTrue.isEmpty then throw (.conditional c whenTrue whenFalse, .emptyThen)
    let whenTrue ← within (.conditional c · whenFalse) (inChild (block whenTrue))
    let whenFalse ←
      if whenFalse.isEmpty then pure []
      else within (.conditional c whenTrue ·) (inChild (block whenFalse))
    pure (.conditional c whenTrue whenFalse)
  | .switch c arms => do
    let (c, ty) ← within (.switch · arms) (expr c)
    let arms ← within (.switch c ·) (cases ty arms)
    pure (.switch c arms)
  | .loop c body => do
    let c ← within (.loop · body) (condition .while c)
    let body ← within (.loop c ·) (inChild (block body))
    pure (.loop c body)
  | .return value => do
    match (← get).returns with
    | none => throw (.return value, .strayReturn)
    | some expected => do
      let (value, actual) ← within .return (expr value)
      leaving (.return value) (Typing.requireAccepts expected actual)
      pure (.return value)

def block : List Stmt → InPlace (List Stmt) (List Stmt)
  | [] => pure []
  | s :: ss => do
    let s ← within (· :: ss) (stmt s)
    let ss ← within (s :: ·) (block ss)
    pure (s :: ss)

def cases (ty : Ty) : List Case → InPlace (List Case) (List Case)
  | [] => pure []
  | .arm value body :: others => do
    if value.isNone && !others.isEmpty then throw (.arm value body :: others, .defaultNotLast)
    let arm ← within (· :: others) <| inChild do
      let value ← within (.arm · body) (caseValue ty value)
      let body ← within (.arm value ·) (block body)
      pure (Case.arm value body)
    let others ← within (arm :: ·) (cases ty others)
    pure (arm :: others)

end

def global (g : Global) : InPlace Global Global := do
  let (value, ty) ← within ({ g with value := · }) (declaredType g.name g.typeName g.value)
  let v := if g.list then Variable.ofList g.name ty else Variable.single g.name ty g.mutable
  leaving { g with value } (Typing.defineVariable v)
  pure { g with value, record := some v }

def function (f : Function) : InPlace Function Function := do
  let types ← leaving f (f.parameters.mapM fun p => Typing.typeNamed p.typeName)
  let returns ← leaving f <|
    match f.returns with
    | some name => Typing.typeNamed name
    | none => pure .nil
  let s : Signature := ⟨f.name, types, returns⟩
  leaving f (Typing.defineFunction s)
  let body ← within ({ f with body := · }) <| returning returns <| inChild do
    leaving f.body (Typing.defineParameters f.parameters types)
    block f.body
  pure { f with body, signature := some s }

def program (p : Program) : InPlace Program Program := do
  let globals ← within (⟨·, p.functions⟩) (each global p.globals)
  let functions ← within (⟨globals, ·⟩) (each function p.functions)
  leaving ⟨globals, functions⟩ Typing.requireMain
  pure ⟨globals, functions⟩

end InPlace

/-- A program as analysis leaves it behind, and whether it was refused. -/
def Program.analyze (p : Program) : Program × Except TypeError Unit :=
  match InPlace.program p Context.fresh with
  | .ok q _ => (q, .ok ())
  | .error (q, e) _ => (q, .error e)

end Plc

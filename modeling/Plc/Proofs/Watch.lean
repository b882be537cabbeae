import Plc.Evaluation

/-!
Watched evaluation: the evaluation of `Eval`, step for step, with a history of all states that the
machine passes through and of what is found out in them.
-/

namespace Plc

/-- What a moment shows beside the state of the machine. -/
inductive Event where
  /-- The machine has come to this state. -/
  | reached
  /-- A variable was defined: what analysis has noted of it, and its cell. -/
  | defined (record : Option Variable) (cell : Nat)
  /-- A name was used: what analysis has noted of it there, and the cell it means now. -/
  | resolved (record : Option Variable) (cell : Nat)
  | evaluated (e : Expr) (v : Value)
  /-- The arguments of a call are there, and this is what it runs. -/
  | called (e : Expr) (f : Callable)
  | invoked (f : Callable) (arguments : List Value)

structure Moment where
  event : Event
  machine : Machine

/-- A run up to now; its latest moment comes first. -/
structure History where
  machine : Machine
  moments : List Moment

namespace History

def start (m : Machine) : History := ⟨m, []⟩

def come (h : History) (e : Event) (m : Machine) : History := ⟨m, ⟨e, m⟩ :: h.moments⟩

def reach (h : History) (m : Machine) : History := h.come .reached m

def note (h : History) (e : Event) : History := h.come e h.machine

end History

namespace Machine

def entered (m : Machine) (parent : Nat) : Machine :=
  { m with scopes := m.scopes.addChild parent, current := m.scopes.next }

def backIn (m : Machine) (scope : Nat) : Machine := { m with current := scope }

def defining (m : Machine) (name : String) (mutable : Bool) (value : Value) : Machine :=
  { m with
    scopes := m.scopes.bindVariable m.current name m.cells.size
    cells := m.cells.push ⟨name, mutable, value⟩ }

def setting (m : Machine) (i : Nat) (value : Value) : Machine :=
  { m with cells := m.cells.modify i fun c => { c with value } }

def listing (m : Machine) (elements : List Value) : Machine :=
  { m with heap := m.heap.push elements }

def storing (m : Machine) (place index : Nat) (value : Value) : Machine :=
  { m with heap := m.heap.modify place fun vs => vs.set index value }

def printing (m : Machine) (line : String) : Machine := { m with output := m.output.push line }

end Machine

abbrev Watched (α : Type) := EStateM Halt History α

namespace Watched

variable {α : Type}

def step (act : Eval α) : Watched α := fun h =>
  match act h.machine with
  | .ok a m => .ok a (h.reach m)
  | .error e m => .error e (h.reach m)

def note (e : Event) : Watched Unit := fun h => .ok () (h.note e)

def inChildOf (parent : Nat) (act : Watched α) : Watched α := fun h =>
  match act (h.reach (h.machine.entered parent)) with
  | .ok a k => .ok a (k.reach (k.machine.backIn h.machine.current))
  | .error e k => .error e (k.reach (k.machine.backIn h.machine.current))

def inChild (act : Watched α) : Watched α := fun h => inChildOf h.machine.current act h

def define (record : Option Variable) (name : String) (mutable : Bool) (value : Value) :
    Watched Unit := fun h =>
  match Eval.define name mutable value h.machine with
  | .ok _ m => .ok () (h.come (.defined record h.machine.cells.size) m)
  | .error e m => .error e (h.reach m)

def resolve (record : Option Variable) (name : String) : Watched Nat := do
  let i ← step (Eval.cellNamed name)
  note (.resolved record i)
  pure i

def sequence (execute : Stmt → Watched Flow) : List Stmt → Watched Flow
  | [] => pure .next
  | s :: ss => do
    match ← execute s with
    | .next => sequence execute ss
    | .returned value => pure (.returned value)

def matching (evaluate : Expr → Watched Value) (value : Value) :
    List Case → Watched (Option (List Stmt))
  | [] => pure none
  | .arm none _ :: others => matching evaluate value others
  | .arm (some e) body :: others => do
    let v ← evaluate e
    if ← step (Eval.onHeap fun h => Operation.equal h v value) then pure (some body)
    else matching evaluate value others

/-- Parameters are recorded with the types of the signature, as far as there is one. -/
def bindParameters : List Parameter → List Ty → List Value → Watched Unit
  | p :: ps, types, v :: vs => do
    define (types.head?.map fun ty => .single p.name ty true) p.name true v
    bindParameters ps types.tail vs
  | _, _, _ => pure ()

def parameterTypes (f : Function) : List Ty := (f.signature.map Signature.parameters).getD []

def yielding (e : Expr) (act : Watched Value) : Watched Value := do
  let v ← act
  note (.evaluated e v)
  pure v

variable (rule : DivisionScale)

mutual

def evaluate : (fuel : Nat) → Expr → Watched Value
  | 0, _ => throw .exhausted
  | fuel + 1, e => yielding e <|
    match e with
    | .literal value _ => pure (.ofLiteral value)
    | .group inner _ => evaluate fuel inner
    | .binary op left right _ =>
      match op with
      | .and => do
        if ← condition fuel left then
          let b ← condition fuel right
          pure (.boolean b)
        else pure (.boolean false)
      | .or => do
        if ← condition fuel left then pure (.boolean true)
        else
          let b ← condition fuel right
          pure (.boolean b)
      | op => do
        let l ← evaluate fuel left
        let r ← evaluate fuel right
        step (Eval.onHeap fun h => Operation.apply rule h op l r)
    | .access name record _ => do
      let i ← resolve record name
      let c ← step (Eval.cell i)
      pure c.value
    | .element name index record _ => do
      let i ← resolve record name
      let c ← step (Eval.cell i)
      let place ← step (Eval.listOf c)
      let v ← evaluate fuel index
      let vs ← step (Eval.elements place)
      let k ← step (Eval.position vs.length v)
      pure (vs.getD k .nil)
    | .call name args signature ty => do
      let f ← step (Eval.callableNamed name args.length)
      let vs ← args.mapM (evaluate fuel)
      note (.called (.call name args signature ty) f)
      invoke fuel f vs
    | .list es _ => do
      let vs ← es.mapM (evaluate fuel)
      step (Eval.newList vs)

def condition : (fuel : Nat) → Expr → Watched Bool
  | 0, _ => throw .exhausted
  | fuel + 1, e => do
    let v ← evaluate fuel e
    step (Eval.boolean v)

def invoke : (fuel : Nat) → Callable → List Value → Watched Value
  | 0, _, _ => throw .exhausted
  | fuel + 1, f, vs => do
    note (.invoked f vs)
    match f with
    | .print => step (Eval.print vs)
    | .function declaration scope => do
      if !(← get).machine.isAlive scope then
        step (Eval.fail (.outlivedScope declaration.name))
      let flow ← inChildOf scope do
        bindParameters declaration.parameters (parameterTypes declaration) vs
        sequence (execute fuel) declaration.body
      match flow with
      | .returned v => pure v
      | .next => pure .nil

def execute : (fuel : Nat) → Stmt → Watched Flow
  | 0, _ => throw .exhausted
  | fuel + 1, s =>
    match s with
    | .expression e => do
      let _ ← evaluate fuel e
      pure .next
    | .declaration name _ value record => do
      let v ← match value with
        | some e => evaluate fuel e
        | none => pure .nil
      define record name true v
      pure .next
    | .assignment receiver value => do
      assign fuel receiver value
      pure .next
    | .conditional c whenTrue whenFalse => do
      let b ← condition fuel c
      inChild (sequence (execute fuel) (if b then whenTrue else whenFalse))
    | .switch c cases => do
      let v ← evaluate fuel c
      inChild do
        let body ← matching (evaluate fuel) v cases
        match body <|> Eval.defaultBody cases with
        | some body => inChild (sequence (execute fuel) body)
        | none => pure .next
    | .loop c body => repeatWhile fuel c body
    | .return e => do
      let v ← evaluate fuel e
      pure (.returned v)

def assign : (fuel : Nat) → (receiver value : Expr) → Watched Unit
  | 0, _, _ => throw .exhausted
  | fuel + 1, receiver, value =>
    match receiver with
    | .access name record _ => do
      let i ← resolve record name
      let c ← step (Eval.cell i)
      if !c.mutable then step (Eval.fail (.immutable name))
      let v ← evaluate fuel value
      step (Eval.setCell i v)
    | .element name index record _ => do
      let i ← resolve record name
      let c ← step (Eval.cell i)
      let place ← step (Eval.listOf c)
      let k ← evaluate fuel index
      let v ← evaluate fuel value
      if ← step (Eval.onHeap fun h => Operation.closesCycle h place v) then
        step (Eval.fail (.selfContaining name))
      let vs ← step (Eval.elements place)
      let k ← step (Eval.position vs.length k)
      step (Eval.setElement place k v)
    | _ => step (Eval.fail .badReceiver)

def repeatWhile : (fuel : Nat) → Expr → List Stmt → Watched Flow
  | 0, _, _ => throw .exhausted
  | fuel + 1, c, body => do
    if ← condition fuel c then
      match ← inChild (sequence (execute fuel) body) with
      | .next => repeatWhile fuel c body
      | .returned v => pure (.returned v)
    else pure .next

end

def defineGlobal (fuel : Nat) (g : Global) : Watched Unit := do
  let v ← match g.value with
    | some e => evaluate rule fuel e
    | none => if g.list then step (Eval.newList []) else pure .nil
  define g.record g.name g.mutable v

def program (fuel : Nat) (p : Program) : Watched Int := do
  p.globals.forM (defineGlobal rule fuel)
  p.functions.forM fun f => step (Eval.defineFunction f)
  match (← get).machine.scopes.findFunction? (← get).machine.current "main" 0 with
  | none => step (Eval.fail .mainMissing)
  | some main => do
    let v ← invoke rule fuel main []
    step (Eval.mainResult v)

end Watched

end Plc

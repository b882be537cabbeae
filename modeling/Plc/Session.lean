import Plc.Outcome

/-!
Sessions: programs that run one after another over what earlier ones have defined. A session holds
two worlds of scopes, one for analysis and one for running. In both, scope 0 is the root, and the
current program's global scope lies inside it, directly or through those of earlier programs.
-/

namespace Plc

structure Session where
  static : Context
  machine : Machine
  rule : DivisionScale

namespace Session

def start (rule : DivisionScale) : Session := ⟨.fresh, .fresh, rule⟩

def fresh (s : Session) : Session :=
  { s with static := .inside s.static.scopes 0, machine := s.machine.inside 0 }

def child (s : Session) : Session :=
  { s with
    static := .inside s.static.scopes s.static.current
    machine := s.machine.inside s.machine.home }

/-- Reads a program and types it in the current context, unless `typed` is false. What was defined
before an error stays defined. -/
def load (s : Session) (source : String) (typed : Bool) : Except Error Program × Session :=
  match Source.parse source with
  | .error e => (.error e, s)
  | .ok p =>
    if typed then
      match Typing.program p s.static with
      | .ok p static => (.ok p, { s with static })
      | .error e static => (.error (.analysis e), { s with static })
    else (.ok p, s)

def run (s : Session) (source : String) (typed : Bool) (fuel : Nat) :
    Except Error Outcome × Session :=
  match s.load source typed with
  | (.error e, s) => (.error e, s)
  | (.ok p, s) =>
    let (outcome, machine) := s.machine.run s.rule fuel p
    (.ok outcome, { s with machine })

def record? (s : Session) (name : String) : Option Variable :=
  s.static.scopes.findVariable? s.static.current name

def cell? (s : Session) (name : String) : Option Nat :=
  s.machine.scopes.findVariable? s.machine.home name

def signature? (s : Session) (name : String) (arity : Nat) : Option Signature :=
  s.static.scopes.findFunction? s.static.current name arity

def callable? (s : Session) (name : String) (arity : Nat) : Option Callable :=
  s.machine.scopes.findFunction? s.machine.home name arity

def binding? (s : Session) (name : String) : Option Cell :=
  (s.cell? name).bind fun i => s.machine.cells[i]?

def textOf? (s : Session) (v : Value) : Option String := v.text? s.machine.heap s.machine.heap.size

/-- Overwrites a variable, mutable or not; none if there is no such variable. -/
def set? (s : Session) (name : String) (value : Literal) : Option Session :=
  (s.cell? name).map fun i =>
    { s with machine := { s.machine with
        cells := s.machine.cells.modify i fun c => { c with value := .ofLiteral value } } }

/-- Whether something was found to be exported and, if so, whether the root took it. -/
abbrev Export := Option (Except Redefinition Unit)

/-- Defines `found` in the root, unless the root has the name. -/
def intoRoot {V F : Type} (t : Scopes V F) (found : Option V) (name : String) :
    Export × Scopes V F :=
  match found with
  | none => (none, t)
  | some v =>
    match t.variableClash? 0 name with
    | some r => (some (.error r), t)
    | none => (some (.ok ()), t.bindVariable 0 name v)

/-- Defines what `name` means under another name in the roots, in each world by itself. -/
def exportVariable (s : Session) (name newName : String) : (Export × Export) × Session :=
  let (first, static) := intoRoot s.static.scopes (s.record? name) newName
  let (second, dynamic) := intoRoot s.machine.scopes (s.cell? name) newName
  ((first, second),
    { s with
      static := { s.static with scopes := static }
      machine := { s.machine with scopes := dynamic } })

/-- Binds a function under another name and arity in the roots; answers in which of the two worlds
there is such a function. -/
def exportFunction (s : Session) (name : String) (arity : Nat) (newName : String)
    (newArity : Nat) :
    (Bool × Bool) × Session :=
  let static :=
    match s.signature? name arity with
    | none => s.static
    | some f => { s.static with scopes := s.static.scopes.bindFunction 0 newName newArity f }
  let machine :=
    match s.callable? name arity with
    | none => s.machine
    | some f => { s.machine with scopes := s.machine.scopes.bindFunction 0 newName newArity f }
  (((s.signature? name arity).isSome, (s.callable? name arity).isSome), { s with static, machine })

end Session

end Plc

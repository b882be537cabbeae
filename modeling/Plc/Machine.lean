import Plc.Evaluation.Operation
import Plc.Program

/-!
The state of a running program and the single steps on it. Variables are cells, which several names
may share; a function remembers the scope that it was defined in.
-/

namespace Plc

structure Cell where
  name : String
  mutable : Bool
  value : Value
  deriving Repr, Inhabited

inductive Callable where
  /-- The one function that is not written in the language. -/
  | print
  | function (declaration : Function) (scope : Nat)
  deriving Inhabited

namespace Callable

def name : Callable → String
  | .print => "print"
  | .function f _ => f.name

def label : Callable → String
  | .print => "<native fn print>"
  | .function f _ => "<fn " ++ f.name ++ "/" ++ toString f.arity ++ ">"

end Callable

structure Machine where
  /-- Names of variables mean cells. -/
  scopes : Scopes Nat Callable
  cells : Array Cell
  heap : Heap
  output : Array String
  current : Nat
  /-- The global scope of the program that is running. -/
  home : Nat

abbrev Eval (α : Type) := EStateM Halt Machine α

namespace Machine

/-- The machine with a new global scope, in which `print` is known, inside `parent`. -/
def inside (m : Machine) (parent : Nat) : Machine :=
  let i := m.scopes.next
  { m with
    scopes := (m.scopes.addChild parent).bindFunction i "print" 1 .print
    current := i
    home := i }

def empty : Machine := ⟨Scopes.single, #[], #[], #[], 0, 0⟩

def fresh : Machine := empty.inside 0

def cell? (m : Machine) (name : String) : Option Nat := m.scopes.findVariable? m.current name

/-- A scope lasts as long as the global scope of the running program is it or lies inside it. -/
def isAlive (m : Machine) (scope : Nat) : Bool := (m.scopes.path m.home).contains scope

end Machine

namespace Eval

variable {α : Type}

def fail (e : RuntimeError) : Eval α := throw (.error e)

def lift (r : Except Halt α) : Eval α := fun m =>
  match r with
  | .ok a => .ok a m
  | .error e => .error e m

/-- Runs `act` with `scope` as the current one, and comes back on every way out. -/
def inScope (scope : Nat) (act : Eval α) : Eval α := fun m =>
  match act { m with current := scope } with
  | .ok a n => .ok a { n with current := m.current }
  | .error e n => .error e { n with current := m.current }

def inChildOf (parent : Nat) (act : Eval α) : Eval α := fun m =>
  inScope m.scopes.next act { m with scopes := m.scopes.addChild parent }

def inChild (act : Eval α) : Eval α := fun m => inChildOf m.current act m

def define (name : String) (mutable : Bool) (value : Value) : Eval Unit := fun m =>
  match m.scopes.variableClash? m.current name with
  | some r => .error (.error (.redefinition r)) m
  | none =>
    .ok () { m with
      scopes := m.scopes.bindVariable m.current name m.cells.size
      cells := m.cells.push ⟨name, mutable, value⟩ }

def defineFunction (f : Function) : Eval Unit := fun m =>
  match m.scopes.functionClash? m.current f.name f.arity with
  | some r => .error (.error (.redefinition r)) m
  | none =>
    .ok () { m with
      scopes := m.scopes.bindFunction m.current f.name f.arity (.function f m.current) }

def cellNamed (name : String) : Eval Nat := fun m =>
  match m.cell? name with
  | some i => .ok i m
  | none => .error (.error (.undefinedVariable name)) m

def cell (i : Nat) : Eval Cell := fun m => .ok (m.cells[i]?.getD default) m

def setCell (i : Nat) (value : Value) : Eval Unit :=
  modify fun m => { m with cells := m.cells.modify i fun c => { c with value } }

def callableNamed (name : String) (arity : Nat) : Eval Callable := fun m =>
  match m.scopes.findFunction? m.current name arity with
  | some f => .ok f m
  | none => .error (.error (.undefinedFunction name arity)) m

def newList (elements : List Value) : Eval Value := fun m =>
  .ok (.list m.heap.size) { m with heap := m.heap.push elements }

def elements (place : Nat) : Eval (List Value) := fun m => .ok (m.heap.elements place) m

def setElement (place index : Nat) (value : Value) : Eval Unit :=
  modify fun m => { m with heap := m.heap.modify place fun vs => vs.set index value }

def printLine (line : String) : Eval Unit :=
  modify fun m => { m with output := m.output.push line }

def onHeap (f : Heap → Except Halt α) : Eval α := fun m => lift (f m.heap) m

def listOf (c : Cell) : Eval Nat :=
  match c.value with
  | .list place => pure place
  | v => fail (.notList c.name v.kind)

def position (length : Nat) : Value → Eval Nat
  | .integer n =>
    if 0 ≤ n ∧ n < length then pure n.toNat else fail (.indexRange n length)
  | v => fail (.indexNotInteger v.kind)

end Eval

end Plc

/-!
Scopes within scopes. A table numbers its scopes in the order of their creation, and each scope
knows the scopes around it, the nearest first. A name means what the nearest scope that has it says;
a definition changes one scope only. Functions are told apart by name and arity.
-/

namespace Plc

structure Scope (V F : Type) where
  /-- The scopes around this one, the nearest first. -/
  enclosing : List Nat
  /-- The latest binding of a name comes first. -/
  bindings : List (String × V)
  functions : List ((String × Nat) × F)
  deriving Repr

structure Scopes (V F : Type) where
  table : Array (Scope V F)
  deriving Repr

/-- A name that its scope has already. -/
inductive Redefinition where
  | variable (name : String)
  | function (name : String) (arity : Nat)
  deriving DecidableEq, Repr, Inhabited

def Redefinition.message : Redefinition → String
  | .variable name => "Variable '" ++ name ++ "' is already defined in this scope"
  | .function name arity =>
    "Function '" ++ name ++ "/" ++ toString arity ++ "' is already defined in this scope"

namespace Scopes

variable {V F : Type}

/-- A table with one scope, number 0, that no other is around. -/
def single : Scopes V F := ⟨#[⟨[], [], []⟩]⟩

def next (t : Scopes V F) : Nat := t.table.size

def scope? (t : Scopes V F) (i : Nat) : Option (Scope V F) := t.table[i]?

/-- The scopes in which a name used in scope `i` is looked up, in this order. -/
def path (t : Scopes V F) (i : Nat) : List Nat :=
  i :: ((t.scope? i).map Scope.enclosing).getD []

def parent? (t : Scopes V F) (i : Nat) : Option Nat := (t.path i).tail.head?

/-- The table with a scope that no other is around; its number is `t.next`. -/
def addRoot (t : Scopes V F) : Scopes V F := ⟨t.table.push ⟨[], [], []⟩⟩

/-- The table with a scope directly inside `parent`; its number is `t.next`. -/
def addChild (t : Scopes V F) (parent : Nat) : Scopes V F :=
  ⟨t.table.push ⟨t.path parent, [], []⟩⟩

def ownVariable? (t : Scopes V F) (i : Nat) (name : String) : Option V :=
  (t.scope? i).bind fun s => s.bindings.lookup name

def ownFunction? (t : Scopes V F) (i : Nat) (name : String) (arity : Nat) : Option F :=
  (t.scope? i).bind fun s => s.functions.lookup (name, arity)

def findVariable? (t : Scopes V F) (i : Nat) (name : String) : Option V :=
  (t.path i).findSome? fun j => t.ownVariable? j name

def findFunction? (t : Scopes V F) (i : Nat) (name : String) (arity : Nat) : Option F :=
  (t.path i).findSome? fun j => t.ownFunction? j name arity

def bindVariable (t : Scopes V F) (i : Nat) (name : String) (v : V) : Scopes V F :=
  ⟨t.table.modify i fun s => { s with bindings := (name, v) :: s.bindings }⟩

/-- Binds a function in scope `i`, in the place of any that the scope has. -/
def bindFunction (t : Scopes V F) (i : Nat) (name : String) (arity : Nat) (f : F) : Scopes V F :=
  ⟨t.table.modify i fun s => { s with functions := ((name, arity), f) :: s.functions }⟩

/-- Why scope `i` takes no definition of this variable. -/
def variableClash? (t : Scopes V F) (i : Nat) (name : String) : Option Redefinition :=
  if (t.ownVariable? i name).isSome then some (.variable name) else none

def functionClash? (t : Scopes V F) (i : Nat) (name : String) (arity : Nat) :
    Option Redefinition :=
  if (t.ownFunction? i name arity).isSome then some (.function name arity) else none

def defineVariable (t : Scopes V F) (i : Nat) (name : String) (v : V) :
    Except Redefinition (Scopes V F) :=
  match t.variableClash? i name with
  | some r => .error r
  | none => .ok (t.bindVariable i name v)

def defineFunction (t : Scopes V F) (i : Nat) (name : String) (arity : Nat) (f : F) :
    Except Redefinition (Scopes V F) :=
  match t.functionClash? i name arity with
  | some r => .error r
  | none => .ok (t.bindFunction i name arity f)

end Scopes

end Plc

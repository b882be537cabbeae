import Plc.Outcome

/-!
Renaming. Variables and functions are renamed apart from each other, as their names are looked up
apart. Different names stay different, and `main` and `print`, which the language itself knows, stay
what they are. The names of types are not renamed.
-/

namespace Plc

structure Renaming where
  ofVariable : String → String
  ofFunction : String → String
  variableInjective : ∀ x y, ofVariable x = ofVariable y → x = y
  functionInjective : ∀ x y, ofFunction x = ofFunction y → x = y
  main : ofFunction "main" = "main"
  print : ofFunction "print" = "print"

variable (r : Renaming)

def Variable.rename (v : Variable) : Variable := { v with name := r.ofVariable v.name }

def Signature.rename (s : Signature) : Signature := { s with name := r.ofFunction s.name }

theorem Variable.name_rename (v : Variable) : (v.rename r).name = r.ofVariable v.name := rfl

theorem Signature.name_rename (s : Signature) : (s.rename r).name = r.ofFunction s.name := rfl

theorem Signature.arity_rename (s : Signature) : (s.rename r).arity = s.arity := rfl

mutual

@[simp] def Expr.rename : Expr → Expr
  | .literal value ty => .literal value ty
  | .group inner ty => .group inner.rename ty
  | .binary op left right ty => .binary op left.rename right.rename ty
  | .access name record ty => .access (r.ofVariable name) (record.map (Variable.rename r)) ty
  | .element name index record ty =>
    .element (r.ofVariable name) index.rename (record.map (Variable.rename r)) ty
  | .call name arguments signature ty =>
    .call (r.ofFunction name) (Expr.renameAll arguments) (signature.map (Signature.rename r)) ty
  | .list elements ty => .list (Expr.renameAll elements) ty

@[simp] def Expr.renameAll : List Expr → List Expr
  | [] => []
  | e :: es => e.rename :: Expr.renameAll es

end

mutual

@[simp] def Stmt.rename : Stmt → Stmt
  | .expression e => .expression (e.rename r)
  | .declaration name typeName value record =>
    .declaration (r.ofVariable name) typeName (value.map (Expr.rename r))
      (record.map (Variable.rename r))
  | .assignment receiver value => .assignment (receiver.rename r) (value.rename r)
  | .conditional condition whenTrue whenFalse =>
    .conditional (condition.rename r) (Stmt.renameAll whenTrue) (Stmt.renameAll whenFalse)
  | .switch condition cases => .switch (condition.rename r) (Case.renameAll cases)
  | .loop condition body => .loop (condition.rename r) (Stmt.renameAll body)
  | .return value => .return (value.rename r)

@[simp] def Stmt.renameAll : List Stmt → List Stmt
  | [] => []
  | s :: ss => s.rename :: Stmt.renameAll ss

@[simp] def Case.rename : Case → Case
  | .arm value body => .arm (value.map (Expr.rename r)) (Stmt.renameAll body)

@[simp] def Case.renameAll : List Case → List Case
  | [] => []
  | c :: cs => c.rename :: Case.renameAll cs

end

def Global.rename (g : Global) : Global :=
  { g with
    name := r.ofVariable g.name
    value := g.value.map (Expr.rename r)
    record := g.record.map (Variable.rename r) }

def Parameter.rename (p : Parameter) : Parameter := { p with name := r.ofVariable p.name }

def Function.rename (f : Function) : Function :=
  { f with
    name := r.ofFunction f.name
    parameters := f.parameters.map (Parameter.rename r)
    body := Stmt.renameAll r f.body
    signature := f.signature.map (Signature.rename r) }

def Program.rename (p : Program) : Program :=
  ⟨p.globals.map (Global.rename r), p.functions.map (Function.rename r)⟩

/-- The error with the names in it renamed; its kind stays. -/
def Redefinition.rename : Redefinition → Redefinition
  | .variable name => .variable (r.ofVariable name)
  | .function name arity => .function (r.ofFunction name) arity

def TypeError.rename : TypeError → TypeError
  | .redefinition d => .redefinition (d.rename r)
  | .untypedEmptyList name => .untypedEmptyList (r.ofVariable name)
  | .neitherTypeNorValue name => .neitherTypeNorValue (r.ofVariable name)
  | .wholeListAssigned name => .wholeListAssigned (r.ofVariable name)
  | .undefinedVariable name => .undefinedVariable (r.ofVariable name)
  | .notList name => .notList (r.ofVariable name)
  | .undefinedFunction name arity => .undefinedFunction (r.ofFunction name) arity
  | e => e

def RuntimeError.rename : RuntimeError → RuntimeError
  | .undefinedVariable name => .undefinedVariable (r.ofVariable name)
  | .undefinedFunction name arity => .undefinedFunction (r.ofFunction name) arity
  | .redefinition d => .redefinition (d.rename r)
  | .immutable name => .immutable (r.ofVariable name)
  | .notList name found => .notList (r.ofVariable name) found
  | .selfContaining name => .selfContaining (r.ofVariable name)
  | .outlivedScope name => .outlivedScope (r.ofFunction name)
  | e => e

def Halt.rename : Halt → Halt
  | .error e => .error (e.rename r)
  | .overflow => .overflow
  | .exhausted => .exhausted

def Ending.rename : Ending → Ending
  | .exit value => .exit value
  | .error cause => .error (cause.rename r)
  | .overflow => .overflow
  | .exhausted => .exhausted

/-- The same lines, and the same end but for the names in an error. -/
def Outcome.rename (o : Outcome) : Outcome := { o with ending := o.ending.rename r }

end Plc

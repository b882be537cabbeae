import Plc.Program

/-!
Emptying the slots that analysis fills. Two programs that erase to one program differ in nothing
but what analysis has noted in them.
-/

namespace Plc

mutual

@[simp] def Expr.erase : Expr → Expr
  | .literal value _ => .literal value none
  | .group inner _ => .group inner.erase none
  | .binary op left right _ => .binary op left.erase right.erase none
  | .access name _ _ => .access name none none
  | .element name index _ _ => .element name index.erase none none
  | .call name arguments _ _ => .call name (Expr.eraseAll arguments) none none
  | .list elements _ => .list (Expr.eraseAll elements) none

@[simp] def Expr.eraseAll : List Expr → List Expr
  | [] => []
  | e :: es => e.erase :: Expr.eraseAll es

end

mutual

@[simp] def Stmt.erase : Stmt → Stmt
  | .expression e => .expression e.erase
  | .declaration name typeName value _ =>
    .declaration name typeName (value.map Expr.erase) none
  | .assignment receiver value => .assignment receiver.erase value.erase
  | .conditional condition whenTrue whenFalse =>
    .conditional condition.erase (Stmt.eraseAll whenTrue) (Stmt.eraseAll whenFalse)
  | .switch condition cases => .switch condition.erase (Case.eraseAll cases)
  | .loop condition body => .loop condition.erase (Stmt.eraseAll body)
  | .return value => .return value.erase

@[simp] def Stmt.eraseAll : List Stmt → List Stmt
  | [] => []
  | s :: ss => s.erase :: Stmt.eraseAll ss

@[simp] def Case.erase : Case → Case
  | .arm value body => .arm (value.map Expr.erase) (Stmt.eraseAll body)

@[simp] def Case.eraseAll : List Case → List Case
  | [] => []
  | c :: cs => c.erase :: Case.eraseAll cs

end

theorem Expr.eraseAll_eq (es : List Expr) : Expr.eraseAll es = es.map Expr.erase := by
  induction es with
  | nil => rfl
  | cons e es ih => simp [Expr.eraseAll, ih]

theorem Case.eraseAll_eq (cs : List Case) : Case.eraseAll cs = cs.map Case.erase := by
  induction cs with
  | nil => rfl
  | cons c cs ih => simp [Case.eraseAll, ih]

def Global.erase (g : Global) : Global :=
  { g with value := g.value.map Expr.erase, record := none }

def Function.erase (f : Function) : Function :=
  { f with body := Stmt.eraseAll f.body, signature := none }

def Program.erase (p : Program) : Program :=
  ⟨p.globals.map Global.erase, p.functions.map Function.erase⟩

end Plc

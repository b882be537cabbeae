import Plc.Proofs.Operands
import Plc.Proofs.Parts
import Plc.Proofs.Typing.Judgement
import Plc.Proofs.Watch

/-!
Disciplines. A discipline says which values conform to which types, which programs it is about, and
which errors their runs may end in, with the laws that tie these together. All of them are sound for
the same reason, so that is proved once, of any discipline.
-/

namespace Plc

structure Discipline (rule : DivisionScale) where
  /-- Whether the slots of programs hold what analysis notes in them. -/
  noted : Prop
  /-- Whether anything at all is said of values. -/
  typed : Prop
  conforms : Ty → Value → Prop
  /-- The types that expressions may have. -/
  types : Ty → Prop
  /-- The types of operands that an operator may be used on. -/
  operands : Operator → Ty → Ty → Prop
  /-- Whether variables may lack a value and functions a result. -/
  lenient : Prop
  permits : RuntimeError → Prop
  notes : typed → noted
  free : ¬ typed → (∀ T v, conforms T v) ∧ (∀ T, types T) ∧ (∀ op L R, operands op L R) ∧
    ∀ name found, permits (.notList name found)
  literal : ∀ l : Literal, conforms l.ty (.ofLiteral l)
  accepts : ∀ {S T : Ty} {v : Value}, conforms S v → T.accepts S = true → conforms T v
  whole : types .any → ∀ p, conforms .any (.list p)
  nil : lenient → ∀ T, conforms T .nil
  truth : ∀ {v : Value}, conforms .boolean v →
    (∃ b, v = .boolean b) ∨ permits (.conditionNotBoolean v.kind)
  index : ∀ {v : Value}, conforms .integer v →
    (∃ n, v = .integer n) ∨ permits (.indexNotInteger v.kind)
  exit : ∀ {v : Value}, conforms .integer v → (∃ n, v = .integer n) ∨ permits (.mainResult v.kind)
  result : ∀ {op : Operator} {L R T : Ty} {l r : Value} (h : Heap), op.IsStrict → types L →
    types R → operands op L R → op.resultType? L R = some T → conforms L l → conforms R r →
    (∀ v, Operation.apply rule h op l r = .ok v → conforms T v) ∧
      ∀ e, Operation.apply rule h op l r = .error (.error e) → permits e
  nested : ∀ {T : Ty} {p : Nat}, types T → conforms T (.list p) →
    ∀ name, permits (.selfContaining name)
  range : ∀ i n, permits (.indexRange i n)
  immutable : ∀ name, permits (.immutable name)

namespace Discipline

variable {rule : DivisionScale} (D : Discipline rule)

/-- What a discipline asks of an expression by itself. Only a list variable may start from a list
literal, unless nothing is said of values. -/
def Admits (e : Expr) : Prop :=
  (∀ T, e.ty = some T → D.types T) ∧
    match e with
    | .binary op left right _ => ∀ L R, left.ty = some L → right.ty = some R → D.operands op L R
    | .list .. => ¬ D.typed
    | _ => True

def Fine (e : Expr) : Prop := ∀ x ∈ e.parts, D.Admits x

def AdmitsStmt (s : Stmt) : Prop :=
  (∀ e ∈ s.own, D.Fine e) ∧
    match s with
    | .declaration _ _ none _ => D.lenient
    | _ => True

def FineStmt (s : Stmt) : Prop := ∀ t ∈ s.parts, D.AdmitsStmt t

def FineBlock (ss : List Stmt) : Prop := ∀ t ∈ Stmt.allParts ss, D.AdmitsStmt t

def Finishes (body : List Stmt) (returns : Ty) : Prop :=
  D.lenient ∨ returns = .nil ∨ ∃ s ∈ body.getLast?, s.IsReturn

def FineGlobal (g : Global) : Prop :=
  match g.value with
  | none => g.list = true ∨ D.lenient
  | some e => (D.typed → g.list = false) ∧ D.Fine e ∨
    ∃ es slot, g.list = true ∧ e = .list es slot ∧ ∀ x ∈ es, D.Fine x

structure FineFunction (f : Function) : Prop where
  body : D.FineBlock f.body
  finishes : ∀ ty, f.returnTy? = some ty → D.Finishes f.body ty

structure FineProgram (p : Program) : Prop where
  globals : ∀ g ∈ p.globals, D.FineGlobal g
  functions : ∀ f ∈ p.functions, D.FineFunction f

variable {D}

theorem fine_group {inner : Expr} {slot : Option Ty} (fine : D.Fine (.group inner slot)) :
    D.Fine inner := fun x member => fine x (Expr.parts_group member)

theorem fine_left {op : Operator} {left right : Expr} {slot : Option Ty}
    (fine : D.Fine (.binary op left right slot)) : D.Fine left :=
  fun x member => fine x (Expr.parts_left member)

theorem fine_right {op : Operator} {left right : Expr} {slot : Option Ty}
    (fine : D.Fine (.binary op left right slot)) : D.Fine right :=
  fun x member => fine x (Expr.parts_right member)

theorem fine_index {name : String} {index : Expr} {record : Option Variable} {slot : Option Ty}
    (fine : D.Fine (.element name index record slot)) : D.Fine index :=
  fun x member => fine x (Expr.parts_index member)

theorem fine_arguments {name : String} {args : List Expr} {signature : Option Signature}
    {slot : Option Ty} (fine : D.Fine (.call name args signature slot)) :
    ∀ e ∈ args, D.Fine e := fun _ arg x member => fine x (Expr.parts_argument arg member)

theorem fine_elements {es : List Expr} {slot : Option Ty} (fine : D.Fine (.list es slot)) :
    ∀ e ∈ es, D.Fine e := fun _ element x member => fine x (Expr.parts_element element member)

theorem fine_self {e : Expr} (fine : D.Fine e) : D.Admits e := fine e e.mem_parts

theorem fine_own {s : Stmt} (fine : D.FineStmt s) {e : Expr} (own : e ∈ s.own) : D.Fine e :=
  (fine s s.mem_parts).1 e own

theorem fine_head {s : Stmt} {ss : List Stmt} (fine : D.FineBlock (s :: ss)) : D.FineStmt s :=
  fun t member => fine t (Stmt.parts_head member)

theorem fine_tail {s : Stmt} {ss : List Stmt} (fine : D.FineBlock (s :: ss)) : D.FineBlock ss :=
  fun t member => fine t (Stmt.parts_tail member)

theorem fine_whenTrue {c : Expr} {whenTrue whenFalse : List Stmt}
    (fine : D.FineStmt (.conditional c whenTrue whenFalse)) : D.FineBlock whenTrue :=
  fun t member => fine t (Stmt.parts_whenTrue member)

theorem fine_whenFalse {c : Expr} {whenTrue whenFalse : List Stmt}
    (fine : D.FineStmt (.conditional c whenTrue whenFalse)) : D.FineBlock whenFalse :=
  fun t member => fine t (Stmt.parts_whenFalse member)

theorem fine_loop {c : Expr} {body : List Stmt} (fine : D.FineStmt (.loop c body)) :
    D.FineBlock body := fun t member => fine t (Stmt.parts_loop member)

theorem fine_arm {c : Expr} {arms : List Case} (fine : D.FineStmt (.switch c arms)) {arm : Case}
    (member : arm ∈ arms) : D.FineBlock arm.body := fun t inside =>
  fine t (Stmt.parts_arm member inside)

theorem fine_value {c : Expr} {arms : List Case} (fine : D.FineStmt (.switch c arms)) {arm : Case}
    (member : arm ∈ arms) {e : Expr} (value : arm.value = some e) : D.Fine e :=
  fine_own fine (Stmt.own_value member value)

end Discipline

section

variable {noted : Prop} {Γ : Env}

theorem ty_of_hasTy {e : Expr} {T : Ty} (typed : HasTy noted Γ e T) : Slot noted e.ty T := by
  cases typed <;> assumption

theorem hasTy_of_elements {T : Ty} {es : List Expr} (ok : ElementsOk noted Γ T es) :
    ∀ e ∈ es, HasTy noted Γ e T := by
  induction es with
  | nil => simp
  | cons e es ih =>
    cases ok with
    | cons typed others =>
      intro x member
      rcases List.mem_cons.mp member with rfl | rest
      · exact typed
      · exact ih others x rest

theorem returns_of_stmt {Δ : Env} {s : Stmt} (ok : StmtOk noted Γ s Δ) : Δ.returns = Γ.returns := by
  cases ok <;> rfl

theorem returns_of_parameters {Δ : Env} {ps : List Parameter} {types : List Ty}
    (ok : ParametersOk Γ ps types Δ) : Δ.returns = Γ.returns := by
  induction ok with
  | nil => rfl
  | cons _ _ ih => exact ih

end

theorem Discipline.types_of_fine {rule : DivisionScale} {D : Discipline rule} {Γ : Env} {e : Expr}
    {T : Ty} (typed : HasTy D.noted Γ e T) (fine : D.Fine e) : D.types T := by
  by_cases strict : D.typed
  · exact (fine_self fine).1 T (ty_of_hasTy typed (D.notes strict))
  · exact (D.free strict).2.1 T

end Plc

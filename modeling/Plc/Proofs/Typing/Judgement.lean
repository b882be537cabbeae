import Plc.Program
import Plc.Typing

/-!
The typing judgement. It knows no scopes and no contexts, only what the names in view mean, the
nearest frame first. With `noted` it also says that the slots of the tree hold what the judgement
says of it; without, the slots may hold anything.
-/

namespace Plc

structure Frame where
  bindings : List (String × Variable)
  functions : List ((String × Nat) × Signature)

structure Env where
  top : Frame
  around : List Frame
  /-- The return type of the function around, if there is one. -/
  returns : Option Ty

namespace Env

def findVariable? (Γ : Env) (name : String) : Option Variable :=
  (Γ.top :: Γ.around).findSome? fun f => f.bindings.lookup name

def findFunction? (Γ : Env) (name : String) (arity : Nat) : Option Signature :=
  (Γ.top :: Γ.around).findSome? fun f => f.functions.lookup (name, arity)

def own? (Γ : Env) (name : String) : Option Variable := Γ.top.bindings.lookup name

def ownFunction? (Γ : Env) (name : String) (arity : Nat) : Option Signature :=
  Γ.top.functions.lookup (name, arity)

def child (Γ : Env) : Env := { Γ with top := ⟨[], []⟩, around := Γ.top :: Γ.around }

def bind (Γ : Env) (v : Variable) : Env :=
  { Γ with top := { Γ.top with bindings := (v.name, v) :: Γ.top.bindings } }

def bindFunction (Γ : Env) (s : Signature) : Env :=
  { Γ with top := { Γ.top with functions := ((s.name, s.arity), s) :: Γ.top.functions } }

def returning (Γ : Env) (ty : Ty) : Env := { Γ with returns := some ty }

theorem ownFunction?_bindFunction (Γ : Env) (s : Signature) (name : String) (arity : Nat) :
    (Γ.bindFunction s).ownFunction? name arity =
      if name = s.name ∧ arity = s.arity then some s else Γ.ownFunction? name arity := by
  simp only [ownFunction?, bindFunction, List.lookup_cons]
  by_cases same : name = s.name ∧ arity = s.arity
  · simp [same]
  · have other : ((name, arity) == (s.name, s.arity)) = false := by
      rw [beq_eq_false_iff_ne]
      simpa using same
    simp [other, same]

theorem findFunction?_bindFunction (Γ : Env) (s : Signature) (name : String) (arity : Nat) :
    (Γ.bindFunction s).findFunction? name arity =
      if name = s.name ∧ arity = s.arity then some s else Γ.findFunction? name arity := by
  have own := Γ.ownFunction?_bindFunction s name arity
  simp only [ownFunction?] at own
  simp only [findFunction?, List.findSome?_cons, own]
  by_cases same : name = s.name ∧ arity = s.arity
  · simp only [same, and_self, if_true]
  · simp only [same, if_false]
    rfl

theorem findVariable?_child (Γ : Env) (name : String) :
    Γ.child.findVariable? name = Γ.findVariable? name := by
  simp only [findVariable?, child, List.findSome?_cons, List.lookup_nil]

theorem findFunction?_child (Γ : Env) (name : String) (arity : Nat) :
    Γ.child.findFunction? name arity = Γ.findFunction? name arity := by
  simp only [findFunction?, child, List.findSome?_cons, List.lookup_nil]

end Env

def Literal.ty : Literal → Ty
  | .nil => .nil
  | .boolean _ => .boolean
  | .character _ => .character
  | .string _ => .string
  | .integer _ => .integer
  | .decimal _ => .decimal

def Literal.InRange : Literal → Prop
  | .integer n => isInt32 n
  | .decimal d => d.isFinite64
  | _ => True

def Expr.IsBinary : Expr → Prop
  | .binary .. => True
  | _ => False

def Variable.whole (v : Variable) : Ty := if v.list then .any else v.ty

def Global.variable (g : Global) (ty : Ty) : Variable :=
  if g.list then .ofList g.name ty else .single g.name ty g.mutable

theorem Global.variable_name (g : Global) (ty : Ty) : (g.variable ty).name = g.name := by
  unfold Global.variable
  split <;> rfl

theorem Global.variable_list (g : Global) (ty : Ty) : (g.variable ty).list = g.list := by
  unfold Global.variable
  split
  · next list => exact list.symm
  · next single => simpa [Variable.single] using (Bool.eq_false_iff.mpr single).symm

def Function.returnTy? (f : Function) : Option Ty :=
  match f.returns with
  | some name => Ty.ofName? name
  | none => some .nil

def Function.parameterTys? (f : Function) : Option (List Ty) :=
  f.parameters.mapM fun p => Ty.ofName? p.typeName

theorem many_of_mapM {α β : Type} {f : α → Option β} {as : List α} {bs : List β}
    (all : as.mapM f = some bs) : as.length = bs.length := by
  induction as generalizing bs with
  | nil =>
    simp only [List.mapM_nil, Option.pure_def, Option.some.injEq] at all
    rw [← all]
    rfl
  | cons a as ih =>
    simp only [List.mapM_cons, Option.bind_eq_bind, Option.bind_eq_some_iff, Option.pure_def,
      Option.some.injEq] at all
    obtain ⟨b, _, bs, rest, rfl⟩ := all
    simp [ih rest]

/-- A slot says `a`, where slots count. -/
def Slot {α : Type} (noted : Prop) (slot : Option α) (a : α) : Prop := noted → slot = some a

section

variable (noted : Prop)

mutual

inductive HasTy : Env → Expr → Ty → Prop where
  | literal {Γ : Env} {l : Literal} {slot : Option Ty} (range : l.InRange)
      (ty : Slot noted slot l.ty) : HasTy Γ (.literal l slot) l.ty
  | group {Γ : Env} {inner : Expr} {T : Ty} {slot : Option Ty} (operator : inner.IsBinary)
      (typed : HasTy Γ inner T) (ty : Slot noted slot T) : HasTy Γ (.group inner slot) T
  | binary {Γ : Env} {op : Operator} {left right : Expr} {L R T : Ty} {slot : Option Ty}
      (first : HasTy Γ left L) (second : HasTy Γ right R) (result : op.resultType? L R = some T)
      (ty : Slot noted slot T) : HasTy Γ (.binary op left right slot) T
  | access {Γ : Env} {name : String} {v : Variable} {record : Option Variable} {slot : Option Ty}
      (known : Γ.findVariable? name = some v) (recorded : Slot noted record v)
      (ty : Slot noted slot v.whole) : HasTy Γ (.access name record slot) v.whole
  | element {Γ : Env} {name : String} {index : Expr} {v : Variable} {record : Option Variable}
      {slot : Option Ty} (known : Γ.findVariable? name = some v) (list : v.list = true)
      (position : HasTy Γ index .integer) (recorded : Slot noted record v)
      (ty : Slot noted slot v.ty) : HasTy Γ (.element name index record slot) v.ty
  | call {Γ : Env} {name : String} {args : List Expr} {s : Signature} {sig : Option Signature}
      {slot : Option Ty} (known : Γ.findFunction? name args.length = some s)
      (passed : ArgumentsOk Γ s.parameters args) (signature : Slot noted sig s)
      (ty : Slot noted slot s.returns) : HasTy Γ (.call name args sig slot) s.returns
  | list {Γ : Env} {first : Expr} {others : List Expr} {T : Ty} {slot : Option Ty}
      (head : HasTy Γ first T) (tail : ElementsOk Γ T others) (ty : Slot noted slot T) :
      HasTy Γ (.list (first :: others) slot) T

inductive ArgumentsOk : Env → List Ty → List Expr → Prop where
  | nil {Γ : Env} : ArgumentsOk Γ [] []
  | cons {Γ : Env} {expected T : Ty} {types : List Ty} {e : Expr} {es : List Expr}
      (typed : HasTy Γ e T) (accepts : expected.accepts T = true)
      (others : ArgumentsOk Γ types es) : ArgumentsOk Γ (expected :: types) (e :: es)

inductive ElementsOk : Env → Ty → List Expr → Prop where
  | nil {Γ : Env} {T : Ty} : ElementsOk Γ T []
  | cons {Γ : Env} {T : Ty} {e : Expr} {es : List Expr} (typed : HasTy Γ e T)
      (others : ElementsOk Γ T es) : ElementsOk Γ T (e :: es)

end

/-- The type of an initial value. Only a declared type makes an empty list one. -/
inductive InitialOk (Γ : Env) : Option Ty → Expr → Ty → Prop where
  | empty {ty : Ty} {slot : Option Ty} (noting : Slot noted slot ty) :
      InitialOk Γ (some ty) (.list [] slot) ty
  | value {declared : Option Ty} {e : Expr} {T : Ty} (typed : HasTy noted Γ e T) :
      InitialOk Γ declared e T

inductive DeclaredOk (Γ : Env) : Option String → Option Expr → Ty → Prop where
  | both {name : String} {e : Expr} {target actual : Ty} (known : Ty.ofName? name = some target)
      (initial : InitialOk noted Γ (some target) e actual)
      (accepts : target.accepts actual = true) : DeclaredOk Γ (some name) (some e) target
  | typeOnly {name : String} {target : Ty} (known : Ty.ofName? name = some target) :
      DeclaredOk Γ (some name) none target
  | valueOnly {e : Expr} {actual : Ty} (initial : InitialOk noted Γ none e actual) :
      DeclaredOk Γ none (some e) actual

mutual

/-- What the statement leaves known to those after it. -/
inductive StmtOk : Env → Stmt → Env → Prop where
  | call {Γ : Env} {name : String} {args : List Expr} {sig : Option Signature} {slot : Option Ty}
      {T : Ty} (typed : HasTy noted Γ (.call name args sig slot) T) :
      StmtOk Γ (.expression (.call name args sig slot)) Γ
  | declaration {Γ : Env} {name : String} {typeName : Option String} {value : Option Expr}
      {record : Option Variable} {T : Ty} (declared : DeclaredOk noted Γ typeName value T)
      (free : Γ.own? name = none) (noting : Slot noted record (.single name T true)) :
      StmtOk Γ (.declaration name typeName value record) (Γ.bind (.single name T true))
  | assignment {Γ : Env} {name : String} {record : Option Variable} {slot : Option Ty}
      {value : Expr} {v : Variable} {T : Ty} (typed : HasTy noted Γ value T)
      (known : Γ.findVariable? name = some v) (single : v.list = false)
      (accepts : v.ty.accepts T = true) (noting : Slot noted record v)
      (ty : Slot noted slot v.ty) : StmtOk Γ (.assignment (.access name record slot) value) Γ
  | store {Γ : Env} {name : String} {index value : Expr} {record : Option Variable}
      {slot : Option Ty} {S T : Ty} (typed : HasTy noted Γ value T)
      (receiver : HasTy noted Γ (.element name index record slot) S)
      (accepts : S.accepts T = true) :
      StmtOk Γ (.assignment (.element name index record slot) value) Γ
  | conditional {Γ : Env} {c : Expr} {whenTrue whenFalse : List Stmt}
      (condition : HasTy noted Γ c .boolean) (body : whenTrue ≠ [])
      (first : BlockOk Γ.child whenTrue) (second : BlockOk Γ.child whenFalse) :
      StmtOk Γ (.conditional c whenTrue whenFalse) Γ
  | switch {Γ : Env} {c : Expr} {arms : List Case} {T : Ty} (condition : HasTy noted Γ c T)
      (all : CasesOk Γ T arms) : StmtOk Γ (.switch c arms) Γ
  | loop {Γ : Env} {c : Expr} {body : List Stmt} (condition : HasTy noted Γ c .boolean)
      (inner : BlockOk Γ.child body) : StmtOk Γ (.loop c body) Γ
  | return {Γ : Env} {value : Expr} {expected T : Ty} (inside : Γ.returns = some expected)
      (typed : HasTy noted Γ value T) (accepts : expected.accepts T = true) :
      StmtOk Γ (.return value) Γ

inductive BlockOk : Env → List Stmt → Prop where
  | nil {Γ : Env} : BlockOk Γ []
  | cons {Γ Δ : Env} {s : Stmt} {ss : List Stmt} (first : StmtOk Γ s Δ) (others : BlockOk Δ ss) :
      BlockOk Γ (s :: ss)

inductive CasesOk : Env → Ty → List Case → Prop where
  | nil {Γ : Env} {T : Ty} : CasesOk Γ T []
  | default {Γ : Env} {T : Ty} {body : List Stmt} (inner : BlockOk Γ.child body) :
      CasesOk Γ T [.arm none body]
  | arm {Γ : Env} {T : Ty} {e : Expr} {body : List Stmt} {others : List Case}
      (value : HasTy noted Γ.child e T) (inner : BlockOk Γ.child body)
      (rest : CasesOk Γ T others) : CasesOk Γ T (.arm (some e) body :: others)

end

inductive GlobalsOk : Env → List Global → Env → Prop where
  | nil {Γ : Env} : GlobalsOk Γ [] Γ
  | cons {Γ Δ : Env} {g : Global} {gs : List Global} {T : Ty}
      (declared : DeclaredOk noted Γ g.typeName g.value T) (free : Γ.own? g.name = none)
      (noting : Slot noted g.record (g.variable T))
      (others : GlobalsOk (Γ.bind (g.variable T)) gs Δ) : GlobalsOk Γ (g :: gs) Δ

inductive ParametersOk : Env → List Parameter → List Ty → Env → Prop where
  | nil {Γ : Env} : ParametersOk Γ [] [] Γ
  | cons {Γ Δ : Env} {p : Parameter} {ps : List Parameter} {ty : Ty} {types : List Ty}
      (free : Γ.own? p.name = none)
      (others : ParametersOk (Γ.bind (.single p.name ty true)) ps types Δ) :
      ParametersOk Γ (p :: ps) (ty :: types) Δ

structure BodyOk (Γ : Env) (f : Function) (s : Signature) : Prop where
  name : s.name = f.name
  types : f.parameterTys? = some s.parameters
  returns : f.returnTy? = some s.returns
  noting : Slot noted f.signature s
  body : ∃ Δ, ParametersOk (Γ.returning s.returns).child f.parameters s.parameters Δ ∧
    BlockOk noted Δ f.body

inductive FunctionsOk : Env → List Function → Env → Prop where
  | nil {Γ : Env} : FunctionsOk Γ [] Γ
  | cons {Γ Δ : Env} {f : Function} {fs : List Function} {s : Signature}
      (free : Γ.ownFunction? s.name s.arity = none) (body : BodyOk noted (Γ.bindFunction s) f s)
      (others : FunctionsOk (Γ.bindFunction s) fs Δ) : FunctionsOk Γ (f :: fs) Δ

/-- A program whose names mean what `Γ` says before it and what `Δ` says after it. -/
structure ProgramOk (Γ : Env) (p : Program) (Δ : Env) : Prop where
  definitions : ∃ Θ, GlobalsOk noted Γ p.globals Θ ∧ FunctionsOk noted Θ p.functions Δ
  main : ∃ s, Δ.findFunction? "main" 0 = some s ∧ s.parameters = [] ∧ s.returns = .integer

end

end Plc

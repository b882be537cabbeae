import Plc.Proofs.Renaming

/-!
Typing renamed programs. What typing makes of a renamed tree in a renamed context is what it makes
of the tree, renamed: the tree with its slots filled, or the same violation under the new names.
-/

namespace Plc

def Context.rename (r : Renaming) (c : Context) : Context :=
  { c with scopes := c.scopes.rename r (Variable.rename r) (Signature.rename r) }

def Context.carry (r : Renaming) : Carry TypeError Context :=
  ⟨TypeError.rename r, Context.rename r, fun _ => True⟩

namespace Typing

variable {r : Renaming} {α β : Type}

theorem inChild_eq (act : Typing α) : inChild act = bracketed
    (fun c => { c with scopes := c.scopes.addChild c.current, current := c.scopes.next })
    (fun c d => { d with current := c.current }) act := by
  funext c
  unfold inChild bracketed
  dsimp only
  cases act { c with scopes := c.scopes.addChild c.current, current := c.scopes.next } <;> rfl

theorem returning_eq (ty : Ty) (act : Typing α) : returning ty act = bracketed
    (fun c => { c with returns := some ty }) (fun c d => { d with returns := c.returns }) act := by
  funext c
  unfold returning bracketed
  cases act { c with returns := some ty } <;> rfl

theorem carries_inChild {value : α → β} {act : Typing α} {image : Typing β}
    (inner : Carries (Context.carry r) value act image) :
    Carries (Context.carry r) value (inChild act) (inChild image) := by
  rw [inChild_eq, inChild_eq]
  refine carries_bracketed inner (fun c _ => ⟨trivial, ?_⟩) fun _ _ _ => ⟨trivial, rfl⟩
  simp only [Context.carry, Context.rename, Scopes.rename_addChild, Scopes.next_rename]

theorem carries_returning {value : α → β} {act : Typing α} {image : Typing β} (ty : Ty)
    (inner : Carries (Context.carry r) value act image) :
    Carries (Context.carry r) value (returning ty act) (returning ty image) := by
  rw [returning_eq, returning_eq]
  exact carries_bracketed inner (fun _ _ => ⟨trivial, rfl⟩) fun _ _ _ => ⟨trivial, rfl⟩

theorem carries_defineVariable (v : Variable) :
    Carries (Context.carry r) id (defineVariable v) (defineVariable (v.rename r)) := by
  intro c _
  unfold defineVariable
  simp only [Context.carry, Context.rename, Variable.name_rename, Scopes.defineVariable_rename]
  cases c.scopes.defineVariable c.current v.name v with
  | ok scopes => exact .ok trivial
  | error d => exact .error trivial

theorem carries_defineFunction (s : Signature) :
    Carries (Context.carry r) id (defineFunction s) (defineFunction (s.rename r)) := by
  intro c _
  unfold defineFunction
  simp only [Context.carry, Context.rename, Signature.name_rename, Signature.arity_rename,
    Scopes.defineFunction_rename]
  cases c.scopes.defineFunction c.current s.name s.arity s with
  | ok scopes => exact .ok trivial
  | error d => exact .error trivial

theorem carries_variableNamed (name : String) :
    Carries (Context.carry r) (Variable.rename r) (variableNamed name)
      (variableNamed (r.ofVariable name)) := by
  refine carries_get fun c => ?_
  simp only [Context.carry, Context.rename, Scopes.findVariable?_rename]
  cases c.scopes.findVariable? c.current name with
  | some v => exact carries_pure rfl
  | none => exact carries_throw rfl

theorem carries_functionNamed (name : String) (arity : Nat) :
    Carries (Context.carry r) (Signature.rename r) (functionNamed name arity)
      (functionNamed (r.ofFunction name) arity) := by
  refine carries_get fun c => ?_
  simp only [Context.carry, Context.rename, Scopes.findFunction?_rename]
  cases c.scopes.findFunction? c.current name arity with
  | some s => exact carries_pure rfl
  | none => exact carries_throw rfl

theorem carries_typeNamed (name : String) :
    Carries (Context.carry r) id (typeNamed name) (typeNamed name) := by
  unfold typeNamed
  cases Ty.ofName? name with
  | some ty => exact carries_pure rfl
  | none => exact carries_throw rfl

theorem carries_requireAccepts (target actual : Ty) :
    Carries (Context.carry r) id (requireAccepts target actual) (requireAccepts target actual) :=
  carries_ite (carries_pure rfl) (carries_throw rfl)

theorem carries_literal (l : Literal) :
    Carries (Context.carry r) id (literal l) (literal l) := by
  cases l with
  | integer n => exact carries_ite (carries_pure rfl) (carries_throw rfl)
  | decimal d => exact carries_ite (carries_pure rfl) (carries_throw rfl)
  | _ => exact carries_pure rfl

theorem carries_requireBinary (e : Expr) :
    Carries (Context.carry r) id (requireBinary e) (requireBinary (e.rename r)) := by
  cases e with
  | binary op left right ty => exact carries_pure rfl
  | _ => exact carries_throw rfl

def renameTyped (r : Renaming) (typed : Expr × Ty) : Expr × Ty := (typed.1.rename r, typed.2)

mutual

theorem carries_expr (e : Expr) :
    Carries (Context.carry r) (renameTyped r) (expr e) (expr (e.rename r)) := by
  cases e with
  | literal value slot => exact carries_bind (carries_literal value) fun ty => carries_pure rfl
  | group inner slot =>
    refine carries_bind (carries_requireBinary inner) fun _ => ?_
    exact carries_bind (carries_expr inner) fun typed => carries_pure rfl
  | binary op left right slot =>
    refine carries_bind (carries_expr left) fun l => carries_bind (carries_expr right) fun s => ?_
    simp only [renameTyped]
    cases op.resultType? l.2 s.2 with
    | some ty => exact carries_pure rfl
    | none => exact carries_throw rfl
  | access name record slot =>
    exact carries_bind (carries_variableNamed name) fun v => carries_pure rfl
  | element name index record slot =>
    refine carries_bind (carries_variableNamed name) fun v => ?_
    have indexed : Carries (Context.carry r) (renameTyped r) (do
        let (index, indexTy) ← expr index
        if indexTy ≠ .integer then throw (.indexNotInteger indexTy)
        pure (Expr.element name index (some v) (some v.ty), v.ty)) (do
        let (index, indexTy) ← expr (index.rename r)
        if indexTy ≠ .integer then throw (.indexNotInteger indexTy)
        pure (Expr.element (r.ofVariable name) index (some (v.rename r)) (some v.ty), v.ty)) := by
      refine carries_bind (carries_expr index) fun typed => ?_
      exact carries_guard .rfl rfl (carries_pure rfl)
    exact carries_guard .rfl rfl indexed
  | call name args signature slot =>
    have arity : (Expr.renameAll r args).length = args.length := by
      rw [Expr.renameAll_eq, List.length_map]
    show Carries _ _ (functionNamed name args.length >>= _)
      (functionNamed (r.ofFunction name) (Expr.renameAll r args).length >>= _)
    rw [arity]
    refine carries_bind (carries_functionNamed name args.length) fun s => ?_
    exact carries_bind (carries_arguments s.parameters args) fun args => carries_pure rfl
  | list elements slot =>
    cases elements with
    | nil => exact carries_throw rfl
    | cons first others =>
      refine carries_bind (carries_expr first) fun typed => ?_
      exact carries_bind (carries_elementsOf typed.2 others) fun others => carries_pure rfl

theorem carries_arguments (types : List Ty) (es : List Expr) :
    Carries (Context.carry r) (Expr.renameAll r) (arguments types es)
      (arguments types (Expr.renameAll r es)) := by
  cases types with
  | nil =>
    cases es <;> exact carries_pure rfl
  | cons expected types =>
    cases es with
    | nil => exact carries_pure rfl
    | cons e es =>
      refine carries_bind (carries_expr e) fun typed => ?_
      refine carries_bind (carries_requireAccepts expected typed.2) fun _ => ?_
      exact carries_bind (carries_arguments types es) fun es => carries_pure rfl

theorem carries_elementsOf (expected : Ty) (es : List Expr) :
    Carries (Context.carry r) (Expr.renameAll r) (elementsOf expected es)
      (elementsOf expected (Expr.renameAll r es)) := by
  cases es with
  | nil => exact carries_pure rfl
  | cons e es =>
    refine carries_bind (carries_expr e) fun typed => ?_
    refine carries_guard .rfl rfl ?_
    exact carries_bind (carries_elementsOf expected es) fun es => carries_pure rfl

end

theorem carries_initializer (name : String) (declared : Option Ty) (e : Expr) :
    Carries (Context.carry r) (renameTyped r) (initializer name declared e)
      (initializer (r.ofVariable name) declared (e.rename r)) := by
  cases e with
  | list elements slot =>
    cases elements with
    | nil =>
      cases declared with
      | some ty => exact carries_pure rfl
      | none => exact carries_throw rfl
    | cons first others => exact carries_expr (.list (first :: others) slot)
  | literal value slot => exact carries_expr (.literal value slot)
  | group inner slot => exact carries_expr (.group inner slot)
  | binary op left right slot => exact carries_expr (.binary op left right slot)
  | access name record slot => exact carries_expr (.access name record slot)
  | element name index record slot => exact carries_expr (.element name index record slot)
  | call name args signature slot => exact carries_expr (.call name args signature slot)

theorem carries_declaredName (typeName : Option String) :
    Carries (Context.carry r) id (typeName.mapM typeNamed) (typeName.mapM typeNamed) := by
  cases typeName with
  | none => exact carries_pure rfl
  | some name =>
    simp only [Option.mapM_some, map_eq_pure_bind]
    exact carries_bind (carries_typeNamed name) fun ty => carries_pure rfl

def renameValue (r : Renaming) (valued : Option Expr × Ty) : Option Expr × Ty :=
  (valued.1.map (Expr.rename r), valued.2)

theorem carries_declaredType (name : String) (typeName : Option String) (value : Option Expr) :
    Carries (Context.carry r) (renameValue r) (declaredType name typeName value)
      (declaredType (r.ofVariable name) typeName (value.map (Expr.rename r))) := by
  refine carries_bind (carries_declaredName typeName) fun declared => ?_
  cases value with
  | some e =>
    refine carries_bind (carries_initializer name declared e) fun typed => ?_
    cases declared with
    | some target =>
      exact carries_bind (carries_requireAccepts target typed.2) fun _ => carries_pure rfl
    | none => exact carries_pure rfl
  | none =>
    cases declared with
    | some target => exact carries_pure rfl
    | none => exact carries_throw rfl

theorem carries_condition (statement : Conditional) (e : Expr) :
    Carries (Context.carry r) (Expr.rename r) (condition statement e)
      (condition statement (e.rename r)) :=
  carries_bind (carries_expr e) fun _ => carries_guard .rfl rfl (carries_pure rfl)

theorem carries_assignment (receiver value : Expr) :
    Carries (Context.carry r) (Stmt.rename r) (assignment receiver value)
      (assignment (receiver.rename r) (value.rename r)) := by
  cases receiver with
  | access name record slot =>
    refine carries_bind (carries_expr value) fun typed => ?_
    refine carries_bind (carries_variableNamed name) fun v => carries_guard .rfl rfl ?_
    exact carries_bind (carries_requireAccepts v.ty typed.2) fun _ => carries_pure rfl
  | element name index record slot =>
    refine carries_bind (carries_expr value) fun typed => ?_
    refine carries_bind (carries_expr (.element name index record slot)) fun place => ?_
    exact carries_bind (carries_requireAccepts place.2 typed.2) fun _ => carries_pure rfl
  | _ => exact carries_throw rfl

theorem carries_caseValue (ty : Ty) (value : Option Expr) :
    Carries (Context.carry r) (Option.map (Expr.rename r)) (caseValue ty value)
      (caseValue ty (value.map (Expr.rename r))) := by
  cases value with
  | some e => exact carries_bind (carries_expr e) fun _ => carries_guard .rfl rfl (carries_pure rfl)
  | none => exact carries_pure rfl

theorem isEmpty_renameAll (ss : List Stmt) : (Stmt.renameAll r ss).isEmpty = ss.isEmpty := by
  cases ss <;> rfl

mutual

theorem carries_stmt (s : Stmt) :
    Carries (Context.carry r) (Stmt.rename r) (stmt s) (stmt (s.rename r)) := by
  cases s with
  | expression e =>
    cases e with
    | call name args signature slot =>
      exact carries_bind (carries_expr (.call name args signature slot)) fun _ => carries_pure rfl
    | _ => exact carries_throw rfl
  | declaration name typeName value record =>
    refine carries_bind (carries_declaredType name typeName value) fun valued => ?_
    exact carries_bind (carries_defineVariable (Variable.single name valued.2 true))
      fun _ => carries_pure rfl
  | assignment receiver value => exact carries_assignment receiver value
  | conditional c whenTrue whenFalse =>
    refine carries_bind (carries_condition .if c) fun c => ?_
    refine carries_guard (by rw [isEmpty_renameAll]) rfl ?_
    refine carries_bind (carries_inChild (carries_block whenTrue)) fun whenTrue => ?_
    cases whenFalse with
    | nil => exact carries_pure rfl
    | cons s ss =>
      exact carries_bind (carries_inChild (carries_block (s :: ss))) fun _ => carries_pure rfl
  | switch c arms =>
    refine carries_bind (carries_expr c) fun typed => ?_
    exact carries_bind (carries_cases typed.2 arms) fun arms => carries_pure rfl
  | loop c body =>
    refine carries_bind (carries_condition .while c) fun c => ?_
    exact carries_bind (carries_inChild (carries_block body)) fun body => carries_pure rfl
  | «return» value =>
    refine carries_get fun c => ?_
    have returns : ((Context.carry r).state c).returns = c.returns := rfl
    rw [returns]
    cases c.returns with
    | none => exact carries_throw rfl
    | some expected =>
      refine carries_bind (carries_expr value) fun typed => ?_
      exact carries_bind (carries_requireAccepts expected typed.2) fun _ => carries_pure rfl

theorem carries_block (ss : List Stmt) :
    Carries (Context.carry r) (Stmt.renameAll r) (block ss) (block (Stmt.renameAll r ss)) := by
  cases ss with
  | nil => exact carries_pure rfl
  | cons s ss =>
    exact carries_bind (carries_stmt s) fun s =>
      carries_bind (carries_block ss) fun ss => carries_pure rfl

theorem carries_cases (ty : Ty) (arms : List Case) :
    Carries (Context.carry r) (Case.renameAll r) (cases ty arms)
      (cases ty (Case.renameAll r arms)) := by
  cases arms with
  | nil => exact carries_pure rfl
  | cons arm others =>
    obtain ⟨value, body⟩ := arm
    refine carries_guard (by cases value <;> cases others <;> exact .rfl) rfl ?_
    refine carries_bind (carries_inChild ?_) fun arm =>
      carries_bind (carries_cases ty others) fun others => carries_pure rfl
    exact carries_bind (carries_caseValue ty value) fun value =>
      carries_bind (carries_block body) fun body => carries_pure rfl

end

theorem carries_global (g : Global) :
    Carries (Context.carry r) (Global.rename r) (global g) (global (g.rename r)) := by
  obtain ⟨name, typeName, mutable, list, value, record⟩ := g
  refine carries_bind (carries_declaredType name typeName value) fun valued => ?_
  cases list with
  | true =>
    exact carries_bind (carries_defineVariable (Variable.ofList name valued.2))
      fun _ => carries_pure rfl
  | false =>
    exact carries_bind (carries_defineVariable (Variable.single name valued.2 mutable))
      fun _ => carries_pure rfl

theorem carries_defineParameters (ps : List Parameter) (types : List Ty) :
    Carries (Context.carry r) id (defineParameters ps types)
      (defineParameters (ps.map (Parameter.rename r)) types) := by
  induction ps generalizing types with
  | nil => exact carries_pure rfl
  | cons p ps ih =>
    cases types with
    | nil => exact carries_pure rfl
    | cons ty types =>
      exact carries_bind (carries_defineVariable (Variable.single p.name ty true)) fun _ => ih types

/-- What is left to do for a function when its types are known. -/
theorem carries_defined (f : Function) (s : Signature) :
    Carries (Context.carry r) (Function.rename r)
      (do
        defineFunction s
        let body ← returning s.returns <| inChild do
          defineParameters f.parameters s.parameters
          block f.body
        pure { f with body, signature := some s })
      (do
        defineFunction (s.rename r)
        let body ← returning s.returns <| inChild do
          defineParameters (f.rename r).parameters s.parameters
          block (f.rename r).body
        pure { f.rename r with body, signature := some (s.rename r) }) := by
  refine carries_bind (carries_defineFunction s) fun _ => ?_
  refine carries_bind (carries_returning s.returns (carries_inChild ?_))
    fun body => carries_pure rfl
  exact carries_bind (carries_defineParameters f.parameters s.parameters) fun _ =>
    carries_block f.body

theorem carries_function (f : Function) :
    Carries (Context.carry r) (Function.rename r) (function f) (function (f.rename r)) := by
  have named : Carries (Context.carry r) (List.map id)
      (f.parameters.mapM fun p => typeNamed p.typeName)
      ((f.parameters.map (Parameter.rename r)).mapM fun p => typeNamed p.typeName) :=
    carries_mapM f.parameters fun p => carries_typeNamed p.typeName
  rw [List.map_id_fun] at named
  obtain ⟨name, parameters, returns, body, signature⟩ := f
  refine carries_bind named fun types => ?_
  cases returns with
  | some typeName =>
    exact carries_bind (carries_typeNamed typeName) fun returns =>
      carries_defined ⟨name, parameters, some typeName, body, signature⟩ ⟨name, types, returns⟩
  | none =>
    exact carries_bind (carries_pure rfl) fun returns =>
      carries_defined ⟨name, parameters, none, body, signature⟩ ⟨name, types, returns⟩

theorem carries_requireMain : Carries (Context.carry r) id requireMain requireMain := by
  refine carries_get fun c => ?_
  have found := c.scopes.findFunction?_rename r (Variable.rename r) (Signature.rename r) c.current
    "main" 0
  rw [r.main] at found
  simp only [Context.carry, Context.rename, found]
  cases c.scopes.findFunction? c.current "main" 0 with
  | some s => exact carries_ite (carries_pure rfl) (carries_throw rfl)
  | none => exact carries_throw rfl

theorem carries_program (p : Program) :
    Carries (Context.carry r) (Program.rename r) (program p) (program (p.rename r)) :=
  carries_bind (carries_mapM p.globals carries_global) fun _ =>
    carries_bind (carries_mapM p.functions carries_function) fun _ =>
      carries_bind carries_requireMain fun _ => carries_pure rfl

end Typing

theorem Context.rename_fresh (r : Renaming) : Context.fresh.rename r = Context.fresh := by
  have print : Typing.printSignature.rename r = Typing.printSignature := by
    rw [Signature.rename, Typing.printSignature, r.print]
  have bound := (Scopes.single.addChild 0).rename_bindFunction r (Variable.rename r)
    (Signature.rename r) 1 "print" 1 Typing.printSignature
  rw [r.print, print, Scopes.rename_addChild, Scopes.rename_single] at bound
  unfold Context.fresh Context.inside Context.rename
  simp only [Context.mk.injEq, and_true]
  exact bound

/-- Analysis accepts a renamed program if it accepts the program, and fills its slots with what it
fills those of the program with, renamed; or it refuses both for the same reason. -/
theorem Program.check_rename (r : Renaming) (p : Program) : (p.rename r).check =
    (p.check.map (Program.rename r)).mapError (TypeError.rename r) := by
  have carried := Typing.carries_program (r := r) p Context.fresh trivial
  rw [show (Context.carry r).state Context.fresh = Context.fresh from Context.rename_fresh r]
    at carried
  unfold Program.check
  generalize Typing.program p Context.fresh = found at carried
  generalize Typing.program (p.rename r) Context.fresh = found' at carried
  cases carried <;> rfl

end Plc

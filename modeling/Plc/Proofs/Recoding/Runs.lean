import Plc.Proofs.Recoding

/-!
Functions in the place of others. When every function that a machine has is replaced by one that
does the same, everything that is evaluated on it does the same as before.
-/

namespace Plc

namespace Eval

variable {rule : DivisionScale} {g : Callable → Callable} {fuel : Nat} {α γ : Type}

/-- What `g` gives in the place of a function does what the function does. -/
def Faithful (rule : DivisionScale) (g : Callable → Callable) : Prop :=
  ∀ fuel f vs, invoke rule fuel (g f) vs = invoke rule fuel f vs

abbrev Indifferent (g : Callable → Callable) (act : Eval α) : Prop := Mirrors g act act

theorem indifferent_mapM {act : γ → Eval α} (each : ∀ c, Indifferent g (act c)) (cs : List γ) :
    Indifferent g (cs.mapM act) := by
  induction cs with
  | nil => exact mirrors_pure []
  | cons c cs ih =>
    rw [List.mapM_cons]
    exact mirrors_bind (each c) fun a => mirrors_bind ih fun as => mirrors_pure (a :: as)

theorem indifferent_sequence {act : Stmt → Eval Flow} (each : ∀ s, Indifferent g (act s))
    (ss : List Stmt) : Indifferent g (sequence act ss) := by
  induction ss with
  | nil => exact mirrors_pure _
  | cons s ss ih =>
    apply mirrors_bind (each s)
    intro flow
    cases flow with
    | next => exact ih
    | returned v => exact mirrors_pure _

theorem indifferent_matching {act : Expr → Eval Value} (each : ∀ e, Indifferent g (act e))
    (v : Value) (arms : List Case) : Indifferent g (matching act v arms) := by
  induction arms with
  | nil => exact mirrors_pure none
  | cons c cs ih =>
    obtain ⟨value, body⟩ := c
    cases value with
    | none => exact ih
    | some e =>
      apply mirrors_bind (each e)
      intro w
      apply mirrors_bind (mirrors_onHeap _)
      intro same
      cases same with
      | true => exact mirrors_pure (some body)
      | false => exact ih

variable (rule g)

structure IndifferentAt (fuel : Nat) : Prop where
  evaluate : ∀ e, Indifferent g (evaluate rule fuel e)
  condition : ∀ e, Indifferent g (condition rule fuel e)
  invoke : ∀ f vs, Indifferent g (invoke rule fuel f vs)
  execute : ∀ s, Indifferent g (execute rule fuel s)
  assign : ∀ receiver value, Indifferent g (assign rule fuel receiver value)
  repeatWhile : ∀ c body, Indifferent g (repeatWhile rule fuel c body)

variable {rule g}

theorem indifferent_evaluate (faithful : Faithful rule g) (ih : IndifferentAt rule g fuel)
    (e : Expr) :
    Indifferent g (evaluate rule (fuel + 1) e) := by
  cases e with
  | literal value slot => exact mirrors_pure _
  | group inner slot => exact ih.evaluate inner
  | binary op left right slot =>
    cases op with
    | and =>
      apply mirrors_bind (ih.condition left)
      intro b
      cases b with
      | true => exact mirrors_bind (ih.condition right) fun b => mirrors_pure _
      | false => exact mirrors_pure _
    | or =>
      apply mirrors_bind (ih.condition left)
      intro b
      cases b with
      | true => exact mirrors_pure _
      | false => exact mirrors_bind (ih.condition right) fun b => mirrors_pure _
    | _ =>
      exact mirrors_bind (ih.evaluate left) fun l =>
        mirrors_bind (ih.evaluate right) fun r => mirrors_onHeap _
  | access name record slot =>
    exact mirrors_bind (mirrors_cellNamed name) fun i =>
      mirrors_bind (mirrors_cell i) fun c => mirrors_pure c.value
  | element name index record slot =>
    exact mirrors_bind (mirrors_cellNamed name) fun i =>
      mirrors_bind (mirrors_cell i) fun c => mirrors_bind (mirrors_listOf c) fun place =>
        mirrors_bind (ih.evaluate index) fun v => mirrors_bind (mirrors_elements place) fun vs =>
          mirrors_bind (mirrors_position vs.length v) fun k => mirrors_pure (vs.getD k .nil)
  | call name args signature slot =>
    apply mirrors_bind (mirrors_callableNamed name args.length)
    intro f
    apply mirrors_bind (indifferent_mapM ih.evaluate args)
    intro vs
    -- the recoded machine has `g f` under the name
    rw [id_eq, faithful]
    exact ih.invoke f vs
  | list es slot =>
    exact mirrors_bind (indifferent_mapM ih.evaluate es) fun vs => mirrors_newList vs

theorem indifferent_called (ih : IndifferentAt rule g fuel) (d : Function) (scope : Nat)
    (vs : List Value) : Indifferent g (do
      let flow ← inChildOf scope do
        bindParameters d.parameters vs
        sequence (execute rule fuel) d.body
      match flow with
      | .returned v => pure v
      | .next => pure Value.nil) := by
  apply mirrors_bind (mirrors_inChildOf scope (mirrors_bind (mirrors_bindParameters _ _) fun _ =>
    indifferent_sequence ih.execute _))
  intro flow
  cases flow <;> exact mirrors_pure _

theorem indifferent_invoke (ih : IndifferentAt rule g fuel) (f : Callable) (vs : List Value) :
    Indifferent g (invoke rule (fuel + 1) f vs) := by
  cases f with
  | print => exact mirrors_print vs
  | function d scope =>
    apply mirrors_get
    intro m
    rw [Machine.isAlive_recode]
    cases m.isAlive scope with
    | true => exact indifferent_called ih d scope vs
    | false => exact mirrors_bind (mirrors_fail _) fun _ => indifferent_called ih d scope vs

theorem indifferent_execute (ih : IndifferentAt rule g fuel) (s : Stmt) :
    Indifferent g (execute rule (fuel + 1) s) := by
  cases s with
  | expression e => exact mirrors_bind (ih.evaluate e) fun _ => mirrors_pure _
  | declaration name typeName value record =>
    have defined : ∀ v, Indifferent g (define name true v >>= fun _ => pure Flow.next) := fun v =>
      mirrors_bind (mirrors_define name true v) fun _ => mirrors_pure _
    cases value with
    | none => exact mirrors_bind (mirrors_pure Value.nil) defined
    | some e => exact mirrors_bind (ih.evaluate e) defined
  | assignment receiver value =>
    exact mirrors_bind (ih.assign receiver value) fun _ => mirrors_pure _
  | conditional c whenTrue whenFalse =>
    exact mirrors_bind (ih.condition c) fun b => mirrors_inChild (indifferent_sequence ih.execute _)
  | switch c arms =>
    refine mirrors_bind (ih.evaluate c) fun v => mirrors_inChild ?_
    apply mirrors_bind (indifferent_matching ih.evaluate v arms)
    intro body
    rw [id_eq]
    cases body <|> defaultBody arms with
    | some body => exact mirrors_inChild (indifferent_sequence ih.execute body)
    | none => exact mirrors_pure _
  | loop c body => exact ih.repeatWhile c body
  | «return» e => exact mirrors_bind (ih.evaluate e) fun v => mirrors_pure _

theorem indifferent_assign (ih : IndifferentAt rule g fuel) (receiver value : Expr) :
    Indifferent g (assign rule (fuel + 1) receiver value) := by
  cases receiver with
  | access name record slot =>
    apply mirrors_bind (mirrors_cellNamed name)
    intro i
    apply mirrors_bind (mirrors_cell i)
    intro c
    have stored : Indifferent g (evaluate rule fuel value >>= setCell i) :=
      mirrors_bind (ih.evaluate value) fun v => mirrors_setCell i v
    obtain ⟨_, mutable, _⟩ := c
    cases mutable with
    | true => exact stored
    | false => exact mirrors_bind (mirrors_fail _) fun _ => stored
  | element name index record slot =>
    apply mirrors_bind (mirrors_cellNamed name)
    intro i
    apply mirrors_bind (mirrors_cell i)
    intro c
    apply mirrors_bind (mirrors_listOf c)
    intro place
    apply mirrors_bind (ih.evaluate index)
    intro k
    apply mirrors_bind (ih.evaluate value)
    intro v
    apply mirrors_bind (mirrors_onHeap _)
    intro cyclic
    have stored : Indifferent g (do
        let vs ← elements place
        let k ← position vs.length k
        setElement place k v) :=
      mirrors_bind (mirrors_elements place) fun vs =>
        mirrors_bind (mirrors_position vs.length k) fun k => mirrors_setElement place k v
    cases cyclic with
    | true => exact mirrors_bind (mirrors_fail _) fun _ => stored
    | false => exact stored
  | literal | group | binary | call | list => exact mirrors_fail .badReceiver

theorem indifferent_repeatWhile (ih : IndifferentAt rule g fuel) (c : Expr) (body : List Stmt) :
    Indifferent g (repeatWhile rule (fuel + 1) c body) := by
  apply mirrors_bind (ih.condition c)
  intro b
  cases b with
  | false => exact mirrors_pure _
  | true =>
    apply mirrors_bind (mirrors_inChild (indifferent_sequence ih.execute body))
    intro flow
    cases flow with
    | next => exact ih.repeatWhile c body
    | returned v => exact mirrors_pure _

theorem indifferent_at (faithful : Faithful rule g) (fuel : Nat) : IndifferentAt rule g fuel := by
  induction fuel with
  | zero =>
    constructor <;> intros <;> exact mirrors_throw _
  | succ fuel ih =>
    exact ⟨indifferent_evaluate faithful ih, fun e => mirrors_bind (ih.evaluate e) mirrors_boolean,
      indifferent_invoke ih, indifferent_execute ih, indifferent_assign ih,
      indifferent_repeatWhile ih⟩

end Eval

def Case.change (value : Expr → Expr) (body : List Stmt → List Stmt) : Case → Case
  | .arm e ss => .arm (e.map value) (body ss)

namespace Eval

variable {value : Expr → Expr} {body : List Stmt → List Stmt}

theorem matching_change {act : Expr → Eval Value} (each : ∀ e, act (value e) = act e) (v : Value)
    (arms : List Case) :
    matching act v (arms.map (Case.change value body)) =
      Option.map body <$> matching act v arms := by
  induction arms with
  | nil => rfl
  | cons c cs ih =>
    obtain ⟨e, ss⟩ := c
    cases e with
    | none => exact ih
    | some e =>
      simp only [List.map_cons, Case.change, Option.map_some, matching, each, map_bind]
      congr 1
      funext w
      congr 1
      funext same
      cases same with
      | true => rfl
      | false => exact ih

theorem defaultBody_change (arms : List Case) :
    defaultBody (arms.map (Case.change value body)) = (defaultBody arms).map body := by
  induction arms with
  | nil => rfl
  | cons c cs ih =>
    obtain ⟨e, ss⟩ := c
    cases e with
    | none => rfl
    | some e => exact ih

end Eval

def Callable.recode (code : Function → Function) : Callable → Callable
  | .print => .print
  | .function declaration scope => .function (code declaration) scope

/-- What is put in the place of a function has its name and its number of parameters and does what
it does. -/
structure Recoding (rule : DivisionScale) (code : Function → Function) : Prop where
  name : ∀ f, (code f).name = f.name
  arity : ∀ f, (code f).arity = f.arity
  faithful : Eval.Faithful rule (Callable.recode code)

namespace Eval

variable {rule : DivisionScale} {code : Function → Function} {fuel : Nat}

/-- Functions may be replaced when their bodies do the same. -/
theorem recoding_of_body (name : ∀ f, (code f).name = f.name)
    (parameters : ∀ f, (code f).parameters = f.parameters)
    (body : ∀ fuel f,
      sequence (execute rule fuel) (code f).body = sequence (execute rule fuel) f.body) :
    Recoding rule code where
  name := name
  arity f := congrArg List.length (parameters f)
  faithful fuel f vs := by
    cases f with
    | print => rfl
    | function d scope =>
      cases fuel with
      | zero => rfl
      | succ fuel => simp only [Callable.recode, invoke, name, parameters, body]

theorem indifferent_defineGlobal (recoding : Recoding rule code) (g : Global) :
    Indifferent (Callable.recode code) (defineGlobal rule fuel g) := by
  obtain ⟨name, typeName, mutable, list, value, record⟩ := g
  cases value with
  | some e =>
    exact mirrors_bind ((indifferent_at recoding.faithful fuel).evaluate e) fun v =>
      mirrors_define _ _ _
  | none =>
    cases list with
    | true => exact mirrors_bind (mirrors_newList []) fun v => mirrors_define _ _ _
    | false => exact mirrors_bind (mirrors_pure Value.nil) fun v => mirrors_define _ _ _

theorem indifferent_forM {γ : Type} {act : γ → Eval Unit} {g : Callable → Callable}
    (each : ∀ c, Indifferent g (act c)) (cs : List γ) : Indifferent g (cs.forM act) := by
  induction cs with
  | nil => exact mirrors_pure ()
  | cons c cs ih => exact mirrors_bind (each c) fun _ => ih

theorem mirrors_functions (recoding : Recoding rule code) (fs : List Function) :
    Mirrors (Callable.recode code) (fs.forM defineFunction)
      ((fs.map code).forM defineFunction) := by
  induction fs with
  | nil => exact mirrors_pure ()
  | cons f fs ih =>
    exact mirrors_bind (mirrors_defineFunction (recoding.name f) (recoding.arity f) fun _ => rfl)
      fun _ => ih

theorem mirrors_main (recoding : Recoding rule code) (fuel : Nat) (main : Option Callable) :
    Mirrors (Callable.recode code)
      (match main with
        | none => fail .mainMissing
        | some main => invoke rule fuel main [] >>= mainResult)
      (match main.map (Callable.recode code) with
        | none => fail .mainMissing
        | some main => invoke rule fuel main [] >>= mainResult) := by
  cases main with
  | none => exact mirrors_fail _
  | some main =>
    show Mirrors _ _ (invoke rule fuel (main.recode code) [] >>= mainResult)
    rw [recoding.faithful]
    exact mirrors_bind ((indifferent_at recoding.faithful fuel).invoke main []) mirrors_mainResult

/-- A program does on a machine what it does with recoded functions on the recoded machine. -/
theorem mirrors_program (recoding : Recoding rule code) (fuel : Nat) (p : Program) :
    Mirrors (Callable.recode code) (program rule fuel p)
      (program rule fuel { p with functions := p.functions.map code }) := by
  apply mirrors_bind (indifferent_forM (indifferent_defineGlobal recoding) p.globals)
  intro _
  apply mirrors_bind (mirrors_functions recoding p.functions)
  intro _
  apply mirrors_get
  intro m
  apply mirrors_get
  intro n
  have main := mirrors_main recoding fuel (m.scopes.findFunction? n.current "main" 0)
  rw [← Scopes.findFunction?_mapFunctions] at main
  exact main

end Eval

theorem Machine.run_recode {rule : DivisionScale} {code : Function → Function}
    (recoding : Recoding rule code) (m : Machine) (fuel : Nat) (p : Program) :
    (m.recode (Callable.recode code)).run rule fuel { p with functions := p.functions.map code } =
      ((m.run rule fuel p).1, (m.run rule fuel p).2.recode (Callable.recode code)) := by
  have same := Eval.mirrors_program recoding fuel p { m with output := #[] }
  unfold Machine.run
  rw [show { m.recode (Callable.recode code) with output := #[] } =
    Machine.recode (Callable.recode code) { m with output := #[] } from rfl, same]
  rcases Eval.program rule fuel p { m with output := #[] } with ⟨n, after⟩ | ⟨_ | _, after⟩ <;> rfl

end Plc

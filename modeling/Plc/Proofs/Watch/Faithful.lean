import Plc.Outcome
import Plc.Proofs.Watch

/-!
Watching changes nothing. A watched evaluation without its moments is the evaluation that runs, for
every fuel and every ending, so what holds of all moments of a history holds at every point of the
run.
-/

namespace Plc

namespace Watched

variable {α β : Type}

def forget : EStateM.Result Halt History α → EStateM.Result Halt Machine α
  | .ok a h => .ok a h.machine
  | .error e h => .error e h.machine

/-- `act` does what `plain` does and keeps a history of it. -/
def Follows (act : Watched α) (plain : Eval α) : Prop := ∀ h, forget (act h) = plain h.machine

theorem follows_pure (a : α) : Follows (pure a) (pure a) := fun _ => rfl

theorem follows_throw (e : Halt) : Follows (throw e : Watched α) (throw e) := fun _ => rfl

theorem follows_step (act : Eval α) : Follows (step act) act := by
  intro h
  unfold step
  cases act h.machine <;> rfl

theorem follows_bind {act : Watched α} {plain : Eval α} {next : α → Watched β}
    {plainNext : α → Eval β} (first : Follows act plain)
    (rest : ∀ a, Follows (next a) (plainNext a)) :
    Follows (act >>= next) (plain >>= plainNext) := by
  intro h
  have f := first h
  show forget (EStateM.bind act next h) = EStateM.bind plain plainNext h.machine
  unfold EStateM.bind
  cases ha : act h with
  | ok a k =>
    rw [ha] at f
    rw [← f]
    exact rest a k
  | error e k =>
    rw [ha] at f
    rw [← f]
    rfl

/-- Reading the state is no step. -/
theorem follows_get {next : History → Watched α} {plainNext : Machine → Eval α}
    (rest : ∀ h, Follows (next h) (plainNext h.machine)) :
    Follows (get >>= next) (get >>= plainNext) := fun h => rest h h

theorem follows_note (e : Event) (next : Unit → Watched α) {plain : Eval α}
    (rest : Follows (next ()) plain) : Follows (note e >>= next) plain := fun h => rest (h.note e)

theorem follows_inChildOf (parent : Nat) {act : Watched α} {plain : Eval α}
    (inner : Follows act plain) : Follows (inChildOf parent act) (Eval.inChildOf parent plain) := by
  intro h
  have f : forget (act (h.reach (h.machine.entered parent))) = plain (h.machine.entered parent) :=
    inner _
  unfold inChildOf Eval.inChildOf Eval.inScope
  dsimp only
  rw [show plain { h.machine with scopes := _, current := _ } = _ from f.symm]
  cases act (h.reach (h.machine.entered parent)) <;> rfl

theorem follows_inChild {act : Watched α} {plain : Eval α} (inner : Follows act plain) :
    Follows (inChild act) (Eval.inChild plain) :=
  fun h => follows_inChildOf h.machine.current inner h

theorem follows_define (record : Option Variable) (name : String) (mutable : Bool) (value : Value) :
    Follows (define record name mutable value) (Eval.define name mutable value) := by
  intro h
  unfold define
  cases Eval.define name mutable value h.machine <;> rfl

theorem follows_resolve (record : Option Variable) (name : String) :
    Follows (resolve record name) (Eval.cellNamed name) := by
  have f : Follows (resolve record name) (Eval.cellNamed name >>= pure) :=
    follows_bind (follows_step _) fun i => follows_note _ (fun _ => pure i) (follows_pure i)
  rwa [bind_pure] at f

theorem follows_yielding (e : Expr) {act : Watched Value} {plain : Eval Value}
    (inner : Follows act plain) : Follows (yielding e act) plain := by
  have f : Follows (yielding e act) (plain >>= pure) :=
    follows_bind inner fun v => follows_note _ (fun _ => pure v) (follows_pure v)
  rwa [bind_pure] at f

theorem follows_mapM {γ : Type} {act : γ → Watched α} {plain : γ → Eval α}
    (each : ∀ c, Follows (act c) (plain c)) (cs : List γ) :
    Follows (cs.mapM act) (cs.mapM plain) := by
  induction cs with
  | nil => exact follows_pure []
  | cons c cs ih =>
    rw [List.mapM_cons, List.mapM_cons]
    exact follows_bind (each c) fun a => follows_bind ih fun as => follows_pure (a :: as)

theorem follows_forM {γ : Type} {act : γ → Watched Unit} {plain : γ → Eval Unit}
    (each : ∀ c, Follows (act c) (plain c)) (cs : List γ) :
    Follows (cs.forM act) (cs.forM plain) := by
  induction cs with
  | nil => exact follows_pure ()
  | cons c cs ih => exact follows_bind (each c) fun _ => ih

theorem follows_sequence {act : Stmt → Watched Flow} {plain : Stmt → Eval Flow}
    (each : ∀ s, Follows (act s) (plain s)) (ss : List Stmt) :
    Follows (sequence act ss) (Eval.sequence plain ss) := by
  induction ss with
  | nil => exact follows_pure _
  | cons s ss ih =>
    apply follows_bind (each s)
    intro flow
    cases flow with
    | next => exact ih
    | returned v => exact follows_pure _

theorem follows_matching {act : Expr → Watched Value} {plain : Expr → Eval Value}
    (each : ∀ e, Follows (act e) (plain e)) (v : Value) (cases : List Case) :
    Follows (matching act v cases) (Eval.matching plain v cases) := by
  induction cases with
  | nil => exact follows_pure none
  | cons c cs ih =>
    obtain ⟨value, body⟩ := c
    cases value with
    | none => exact ih
    | some e =>
      apply follows_bind (each e)
      intro w
      apply follows_bind (follows_step _)
      intro same
      cases same with
      | true => exact follows_pure (some body)
      | false => exact ih

theorem follows_bindParameters (ps : List Parameter) (types : List Ty) (vs : List Value) :
    Follows (bindParameters ps types vs) (Eval.bindParameters ps vs) := by
  induction ps generalizing types vs with
  | nil => exact follows_pure ()
  | cons p ps ih =>
    cases vs with
    | nil => exact follows_pure ()
    | cons v vs => exact follows_bind (follows_define _ _ _ _) fun _ => ih types.tail vs

variable (rule : DivisionScale)

structure FollowsAt (fuel : Nat) : Prop where
  evaluate : ∀ e, Follows (evaluate rule fuel e) (Eval.evaluate rule fuel e)
  condition : ∀ e, Follows (condition rule fuel e) (Eval.condition rule fuel e)
  invoke : ∀ f vs, Follows (invoke rule fuel f vs) (Eval.invoke rule fuel f vs)
  execute : ∀ s, Follows (execute rule fuel s) (Eval.execute rule fuel s)
  assign : ∀ r v, Follows (assign rule fuel r v) (Eval.assign rule fuel r v)
  repeatWhile : ∀ c body, Follows (repeatWhile rule fuel c body) (Eval.repeatWhile rule fuel c body)

variable {rule} {fuel : Nat}

theorem follows_evaluate (ih : FollowsAt rule fuel) (e : Expr) :
    Follows (evaluate rule (fuel + 1) e) (Eval.evaluate rule (fuel + 1) e) := by
  refine follows_yielding e ?_
  cases e with
  | literal value ty => exact follows_pure _
  | group inner ty => exact ih.evaluate inner
  | binary op left right ty =>
    cases op with
    | and =>
      apply follows_bind (ih.condition left)
      intro b
      cases b with
      | true => exact follows_bind (ih.condition right) fun b => follows_pure _
      | false => exact follows_pure _
    | or =>
      apply follows_bind (ih.condition left)
      intro b
      cases b with
      | true => exact follows_pure _
      | false => exact follows_bind (ih.condition right) fun b => follows_pure _
    | _ =>
      exact follows_bind (ih.evaluate left) fun l =>
        follows_bind (ih.evaluate right) fun r => follows_step _
  | access name record ty =>
    exact follows_bind (follows_resolve record name) fun i =>
      follows_bind (follows_step _) fun c => follows_pure c.value
  | element name index record ty =>
    exact follows_bind (follows_resolve record name) fun i =>
      follows_bind (follows_step _) fun c => follows_bind (follows_step _) fun place =>
        follows_bind (ih.evaluate index) fun v => follows_bind (follows_step _) fun vs =>
          follows_bind (follows_step _) fun k => follows_pure (vs.getD k .nil)
  | call name args signature ty =>
    exact follows_bind (follows_step _) fun f =>
      follows_bind (follows_mapM ih.evaluate args) fun vs =>
        follows_note _ (fun _ => invoke rule fuel f vs) (ih.invoke f vs)
  | list es ty => exact follows_bind (follows_mapM ih.evaluate es) fun vs => follows_step _

theorem follows_invoke (ih : FollowsAt rule fuel) (f : Callable) (vs : List Value) :
    Follows (invoke rule (fuel + 1) f vs) (Eval.invoke rule (fuel + 1) f vs) := by
  refine follows_note _ _ ?_
  cases f with
  | print => exact follows_step _
  | function declaration scope =>
    apply follows_get
    intro h
    have called : Follows (inChildOf scope do
          bindParameters declaration.parameters (parameterTypes declaration) vs
          sequence (execute rule fuel) declaration.body)
        (Eval.inChildOf scope do
          Eval.bindParameters declaration.parameters vs
          Eval.sequence (Eval.execute rule fuel) declaration.body) :=
      follows_inChildOf scope <| follows_bind (follows_bindParameters _ _ _) fun _ =>
        follows_sequence ih.execute _
    by_cases alive : h.machine.isAlive scope
    · simp only [alive, Bool.not_true, Bool.false_eq_true, if_false]
      apply follows_bind called
      intro flow
      cases flow <;> exact follows_pure _
    · simp only [alive, Bool.not_false, if_true]
      apply follows_bind (follows_step _)
      intro _
      apply follows_bind called
      intro flow
      cases flow <;> exact follows_pure _

theorem follows_execute (ih : FollowsAt rule fuel) (s : Stmt) :
    Follows (execute rule (fuel + 1) s) (Eval.execute rule (fuel + 1) s) := by
  cases s with
  | expression e => exact follows_bind (ih.evaluate e) fun _ => follows_pure _
  | declaration name typeName value record =>
    cases value with
    | none =>
      exact follows_bind (follows_pure Value.nil) fun v =>
        follows_bind (follows_define _ _ _ _) fun _ => follows_pure _
    | some e =>
      exact follows_bind (ih.evaluate e) fun v =>
        follows_bind (follows_define _ _ _ _) fun _ => follows_pure _
  | assignment receiver value =>
    exact follows_bind (ih.assign receiver value) fun _ => follows_pure _
  | conditional c whenTrue whenFalse =>
    exact follows_bind (ih.condition c) fun b => follows_inChild (follows_sequence ih.execute _)
  | switch c cases =>
    refine follows_bind (ih.evaluate c) fun v => follows_inChild ?_
    apply follows_bind (follows_matching ih.evaluate v cases)
    intro body
    cases body <|> Eval.defaultBody cases with
    | none => exact follows_pure _
    | some body => exact follows_inChild (follows_sequence ih.execute body)
  | loop c body => exact ih.repeatWhile c body
  | «return» e => exact follows_bind (ih.evaluate e) fun v => follows_pure _

theorem follows_assign (ih : FollowsAt rule fuel) (receiver value : Expr) :
    Follows (assign rule (fuel + 1) receiver value)
      (Eval.assign rule (fuel + 1) receiver value) := by
  cases receiver with
  | access name record ty =>
    apply follows_bind (follows_resolve record name)
    intro i
    apply follows_bind (follows_step _)
    intro c
    have stored : Follows (evaluate rule fuel value >>= fun v => step (Eval.setCell i v))
        (Eval.evaluate rule fuel value >>= fun v => Eval.setCell i v) :=
      follows_bind (ih.evaluate value) fun v => follows_step _
    cases c.mutable with
    | true => exact stored
    | false => exact follows_bind (follows_step _) fun _ => stored
  | element name index record ty =>
    apply follows_bind (follows_resolve record name)
    intro i
    apply follows_bind (follows_step _)
    intro c
    apply follows_bind (follows_step _)
    intro place
    apply follows_bind (ih.evaluate index)
    intro k
    apply follows_bind (ih.evaluate value)
    intro v
    apply follows_bind (follows_step _)
    intro cyclic
    have stored : Follows (do
          let vs ← step (Eval.elements place)
          let k ← step (Eval.position vs.length k)
          step (Eval.setElement place k v))
        (do
          let vs ← Eval.elements place
          let k ← Eval.position vs.length k
          Eval.setElement place k v) :=
      follows_bind (follows_step _) fun vs => follows_bind (follows_step _) fun k =>
        follows_step _
    cases cyclic with
    | true => exact follows_bind (follows_step _) fun _ => stored
    | false => exact stored
  | literal | group | binary | call | list => exact follows_step (Eval.fail .badReceiver)

theorem follows_repeatWhile (ih : FollowsAt rule fuel) (c : Expr) (body : List Stmt) :
    Follows (repeatWhile rule (fuel + 1) c body) (Eval.repeatWhile rule (fuel + 1) c body) := by
  apply follows_bind (ih.condition c)
  intro b
  cases b with
  | false => exact follows_pure _
  | true =>
    apply follows_bind (follows_inChild (follows_sequence ih.execute body))
    intro flow
    cases flow with
    | next => exact ih.repeatWhile c body
    | returned v => exact follows_pure _

theorem follows_at (rule : DivisionScale) (fuel : Nat) : FollowsAt rule fuel := by
  induction fuel with
  | zero =>
    constructor <;> intros <;> exact follows_throw _
  | succ fuel ih =>
    exact ⟨follows_evaluate ih, fun e => follows_bind (ih.evaluate e) fun v => follows_step _,
      follows_invoke ih, follows_execute ih, follows_assign ih, follows_repeatWhile ih⟩

theorem follows_defineGlobal (rule : DivisionScale) (fuel : Nat) (g : Global) :
    Follows (defineGlobal rule fuel g) (Eval.defineGlobal rule fuel g) := by
  obtain ⟨name, typeName, mutable, list, value, record⟩ := g
  cases value with
  | some e =>
    exact follows_bind ((follows_at rule fuel).evaluate e) fun v => follows_define _ _ _ _
  | none =>
    cases list with
    | true => exact follows_bind (follows_step _) fun v => follows_define _ _ _ _
    | false => exact follows_bind (follows_pure Value.nil) fun v => follows_define _ _ _ _

/-- Watching changes nothing: the watched run of a program ends as the run does. -/
theorem follows_program (rule : DivisionScale) (fuel : Nat) (p : Program) :
    Follows (program rule fuel p) (Eval.program rule fuel p) := by
  apply follows_bind (follows_forM (follows_defineGlobal rule fuel) p.globals)
  intro _
  apply follows_bind (follows_forM (fun f => follows_step _) p.functions)
  intro _
  apply follows_get
  intro h
  apply follows_get
  intro k
  cases h.machine.scopes.findFunction? k.machine.current "main" 0 with
  | none => exact follows_step _
  | some main =>
    exact follows_bind ((follows_at rule fuel).invoke main []) fun v => follows_step _

end Watched

/-- A run as it was watched, from a machine with its output empty. -/
def Machine.history (m : Machine) (rule : DivisionScale) (fuel : Nat) (p : Program) : History :=
  match Watched.program rule fuel p (.start { m with output := #[] }) with
  | .ok _ h | .error _ h => h

theorem history_machine (m : Machine) (rule : DivisionScale) (fuel : Nat) (p : Program) :
    (m.history rule fuel p).machine = (m.run rule fuel p).2 := by
  have f : _ = Eval.program rule fuel p { m with output := #[] } :=
    Watched.follows_program rule fuel p (.start { m with output := #[] })
  unfold Machine.history Machine.run
  rw [← f]
  rcases Watched.program rule fuel p (.start { m with output := #[] }) with ⟨n, h⟩ | ⟨e, h⟩
  · rfl
  · cases e <;> rfl

end Plc

import Plc.Proofs.Scopes
import Plc.Proofs.Watch.Runs

/-!
Laws of scopes. A scope law says what holds of a machine wherever it runs, what the names of
functions may stand for, and how a later machine in the same scope may differ from an earlier one
when certain variables were defined in between. Once it is seen to be kept by the few actions that
enter, leave or change scopes and variables, it is kept by every run of every program, typed or not,
at each of its moments and however the run ends.
-/

namespace Plc

open Watched

def Stmt.lets : Stmt → List String
  | .declaration name _ _ _ => [name]
  | _ => []

structure ScopeLaw where
  holds : Machine → Prop
  knows : String → Nat → Callable → Prop
  /-- The variables are those that were defined in the current scope, in this order. -/
  grows : List String → Machine → Machine → Prop
  refl : ∀ m, grows [] m m
  trans : ∀ {a b : List String} {m n o : Machine}, grows a m n → grows b n o → grows (a ++ b) m o
  found : ∀ {m : Machine} {name : String} {arity : Nat} {f : Callable}, holds m →
    m.scopes.findFunction? m.current name arity = some f → knows name arity f
  child : ∀ {m : Machine}, holds m → holds (m.entered m.current)
  call : ∀ {m : Machine} {name : String} {arity : Nat} {d : Function} {scope : Nat}, holds m →
    knows name arity (.function d scope) → holds (m.entered scope)
  back : ∀ {m n : Machine} {parent : Nat} {names : List String}, holds m → holds n →
    grows names (m.entered parent) n →
    holds (n.backIn m.current) ∧ grows [] m (n.backIn m.current)
  defined : ∀ {m : Machine} {name : String} (mutable : Bool) (v : Value), holds m →
    m.scopes.variableClash? m.current name = none →
    holds (m.defining name mutable v) ∧ grows [name] m (m.defining name mutable v)
  /-- The variable was looked up now or before, in the same scope. -/
  assigned : ∀ {before m : Machine} {name : String} {i : Nat} (v : Value), holds before →
    before.cell? name = some i → grows [] before m → holds m →
    holds (m.setting i v) ∧ grows [] m (m.setting i v)
  /-- Lists and new lines of output are of no account. -/
  aside : ∀ {m : Machine} (heap : Heap) (output : Array String), holds m →
    m.output.toList <+: output.toList →
    holds { m with heap, output } ∧ grows [] m { m with heap, output }

namespace ScopeLaw

variable (L : ScopeLaw)

def Sees (x : Moment) : Prop :=
  match x.event with
  | .resolved _ i => ∃ name, x.machine.cell? name = some i
  | .called e f => ∃ name args signature slot, e = .call name args signature slot ∧
    L.knows name args.length f
  | .invoked f _ => ∃ name arity, L.knows name arity f
  | _ => True

structure Kept (names : List String) (h k : History) : Prop where
  holds : L.holds k.machine
  grows : L.grows names h.machine k.machine
  moments : ∀ x ∈ k.moments, x ∈ h.moments ∨ L.holds x.machine ∧ L.Sees x

theorem kept_same {h : History} (holds : L.holds h.machine) : L.Kept [] h h :=
  ⟨holds, L.refl _, fun _ => .inl⟩

theorem kept_trans {a b : List String} {h k l : History} (first : L.Kept a h k)
    (second : L.Kept b k l) : L.Kept (a ++ b) h l := by
  refine ⟨second.holds, L.trans first.grows second.grows, fun x member => ?_⟩
  rcases second.moments x member with between | good
  · exact first.moments x between
  · exact .inr good

theorem kept_come {names : List String} {h : History} {m : Machine} (e : Event)
    (holds : L.holds m) (grows : L.grows names h.machine m) (sees : L.Sees ⟨e, m⟩) :
    L.Kept names h (h.come e m) := by
  refine ⟨holds, grows, fun x member => ?_⟩
  rcases List.mem_cons.mp member with rfl | before
  · exact .inr ⟨holds, sees⟩
  · exact .inl before

variable {α β γ : Type}

def Stays (h : History) (act : Watched α) (good : α → History → Prop) : Prop :=
  Runs (L.Kept []) (fun _ _ => True) h act good

/-- `act` defines some of these variables, the first of them first, and all of them when it gets to
its end. -/
def Opens (names : List String) (h : History) (act : Watched α) (done : α → Prop) : Prop :=
  Runs (fun h k => ∃ known, known <+: names ∧ L.Kept known h k) (fun _ _ => True) h act
    fun a k => done a → L.Kept names h k

variable {L} {h k : History} {names : List String} {good : α → History → Prop}

theorem stays_pure {a : α} (holds : L.holds h.machine) (value : good a h) :
    L.Stays h (pure a) good := runs_pure (L.kept_same holds) value

theorem stays_bind {act : Watched α} {next : α → Watched β} {result : β → History → Prop}
    (first : L.Stays h act good)
    (rest : ∀ a k, L.Kept [] h k → good a k → L.Stays k (next a) result) :
    L.Stays h (act >>= next) result := runs_bind L.kept_trans first rest

theorem stays_look {act : Eval α} (holds : L.holds h.machine) (looks : Looks act)
    (value : ∀ a, act h.machine = .ok a h.machine → good a (h.reach h.machine)) :
    L.Stays h (step act) good :=
  runs_look looks (L.kept_come .reached holds (L.refl _) trivial) value fun _ _ => trivial

/-- A look whose answer does not matter. -/
theorem stays_glance {act : Eval α} (holds : L.holds h.machine) (looks : Looks act) :
    L.Stays h (step act) fun _ _ => True := stays_look holds looks fun _ _ => trivial

theorem stays_note {e : Event} (holds : L.holds h.machine) (sees : L.Sees ⟨e, h.machine⟩) :
    L.Stays h (note e) fun _ k => k.machine = h.machine :=
  ⟨L.kept_come e holds (L.refl _) sees, rfl⟩

theorem opens_of_stays {act : Watched α} {done : α → Prop} (stays : L.Stays h act good) :
    L.Opens [] h act done :=
  runs_imp (runs_mono stays (fun _ kept => ⟨[], List.nil_prefix, kept⟩) fun _ _ => id)
    fun _ _ ⟨_, empty, kept⟩ _ _ => List.prefix_nil.mp empty ▸ kept

/-- An action that defines variables, and more of them if it gets to its end. -/
theorem opens_bind {a b : List String} {act : Watched α} {next : α → Watched β} {done : α → Prop}
    {finish : β → Prop} (first : L.Opens a h act done)
    (rest : ∀ x k, L.Kept a h k → done x → L.Opens b k (next x) finish)
    (stops : ∀ x, ¬ done x → ∃ y, next x = pure y ∧ ¬ finish y) :
    L.Opens (a ++ b) h (act >>= next) finish := by
  refine runs_chain first ?_ ?_
  · rintro k ⟨known, some, kept⟩
    exact ⟨known, some.trans (List.prefix_append a b), kept⟩
  · rintro x k ⟨known, some, kept⟩ full
    by_cases finished : done x
    · have whole := full finished
      refine runs_imp (runs_mono (rest x k whole finished) ?_ fun _ _ => id) ?_
      · rintro l ⟨more, some, later⟩
        exact ⟨a ++ more, (List.prefix_append_right_inj a).mpr some, L.kept_trans whole later⟩
      · intro y l _ all last
        exact L.kept_trans whole (all last)
    · obtain ⟨y, is, unfinished⟩ := stops x finished
      rw [is]
      refine runs_pure ⟨known, some.trans (List.prefix_append a b), kept⟩ ?_
      exact fun last => absurd last unfinished

/-- The same where the first action has only one way to get to its end. -/
theorem opens_then {a b : List String} {act : Watched α} {next : α → Watched β} {finish : β → Prop}
    (first : L.Opens a h act fun _ => True)
    (rest : ∀ x k, L.Kept a h k → L.Opens b k (next x) finish) :
    L.Opens (a ++ b) h (act >>= next) finish :=
  opens_bind first (fun x k kept _ => rest x k kept) fun _ never => absurd trivial never

/-- First an action that stays. -/
theorem opens_after {act : Watched α} {next : α → Watched β} {finish : β → Prop}
    (first : L.Stays h act good)
    (rest : ∀ x k, L.Kept [] h k → L.Opens names k (next x) finish) :
    L.Opens names h (act >>= next) finish := opens_then (opens_of_stays first) rest

/-- Nothing is defined any more. -/
theorem opens_pure {a : α} {done : α → Prop} (holds : L.holds h.machine) :
    L.Opens [] h (pure a) done := by
  have stays : L.Stays h (pure a) fun _ _ => True := stays_pure holds trivial
  exact opens_of_stays stays

/-- What is defined in a new scope is of no account once that is left. -/
theorem stays_inChildOf {parent : Nat} {act : Watched α} {done : α → Prop}
    (holds : L.holds h.machine) (entered : L.holds (h.machine.entered parent))
    (body : ∀ k, L.holds k.machine → L.Opens names k act done) :
    L.Stays h (inChildOf parent act) fun _ _ => True := by
  refine runs_inChildOf (body (h.reach (h.machine.entered parent)) entered) ?_
    (fun _ _ _ => trivial) fun _ _ _ _ => trivial
  rintro k ⟨known, -, kept⟩
  obtain ⟨restored, grows⟩ := L.back holds kept.holds kept.grows
  refine ⟨restored, grows, fun x member => ?_⟩
  rcases List.mem_cons.mp member with rfl | inner
  · exact .inr ⟨restored, trivial⟩
  · rcases kept.moments x inner with before | good
    · rcases List.mem_cons.mp before with rfl | earlier
      · exact .inr ⟨entered, trivial⟩
      · exact .inl earlier
    · exact .inr good

theorem stays_inChild {act : Watched α} {done : α → Prop} (holds : L.holds h.machine)
    (body : ∀ k, L.holds k.machine → L.Opens names k act done) :
    L.Stays h (inChild act) fun _ _ => True :=
  stays_inChildOf holds (L.child holds) body

theorem stays_resolve (record : Option Variable) (name : String) (holds : L.holds h.machine) :
    L.Stays h (resolve record name) fun i k => k.machine.cell? name = some i := by
  have found : L.Stays h (step (Eval.cellNamed name)) fun i k => k.machine.cell? name = some i := by
    apply stays_look holds (looks_cellNamed name)
    intro i ended
    unfold Eval.cellNamed at ended
    cases known : h.machine.cell? name with
    | none => simp [known] at ended
    | some j =>
      simp only [known, EStateM.Result.ok.injEq, and_true] at ended
      exact ended ▸ known
  apply stays_bind found
  intro i k kept known
  have sees : L.Sees ⟨.resolved record i, k.machine⟩ := ⟨name, known⟩
  apply stays_bind (stays_note kept.holds sees)
  intro _ l kept same
  exact stays_pure kept.holds (same ▸ known)

theorem stays_callableNamed (name : String) (arity : Nat) (holds : L.holds h.machine) :
    L.Stays h (step (Eval.callableNamed name arity)) fun f _ => L.knows name arity f := by
  apply stays_look holds (looks_callableNamed name arity)
  intro f ended
  unfold Eval.callableNamed at ended
  cases known : h.machine.scopes.findFunction? h.machine.current name arity with
  | none => simp [known] at ended
  | some g =>
    simp only [known, EStateM.Result.ok.injEq, and_true] at ended
    exact ended ▸ L.found holds known

/-- A step that changes at most lists and output. -/
theorem stays_aside {act : Eval α} (holds : L.holds h.machine)
    (aside : match act h.machine with
      | .ok _ m | .error _ m => ∃ heap output, h.machine.output.toList <+: output.toList ∧
        m = { h.machine with heap, output }) : L.Stays h (step act) fun _ _ => True := by
  refine runs_step ?_
  cases ended : act h.machine with
  | ok a m =>
    rw [ended] at aside
    obtain ⟨heap, output, more, rfl⟩ := aside
    have after := L.aside heap output holds more
    exact ⟨L.kept_come .reached after.1 after.2 trivial, trivial⟩
  | error e m =>
    rw [ended] at aside
    obtain ⟨heap, output, more, rfl⟩ := aside
    have after := L.aside heap output holds more
    exact ⟨L.kept_come .reached after.1 after.2 trivial, trivial⟩

theorem stays_newList (vs : List Value) (holds : L.holds h.machine) :
    L.Stays h (step (Eval.newList vs)) fun _ _ => True :=
  stays_aside holds ⟨_, _, List.prefix_rfl, rfl⟩

theorem stays_setElement (place index : Nat) (v : Value) (holds : L.holds h.machine) :
    L.Stays h (step (Eval.setElement place index v)) fun _ _ => True :=
  stays_aside holds ⟨_, _, List.prefix_rfl, rfl⟩

theorem stays_print (vs : List Value) (holds : L.holds h.machine) :
    L.Stays h (step (Eval.print vs)) fun _ _ => True := by
  apply stays_aside holds
  cases vs with
  | nil => exact ⟨_, _, List.prefix_rfl, rfl⟩
  | cons v others =>
    cases others with
    | cons => exact ⟨_, _, List.prefix_rfl, rfl⟩
    | nil =>
      rcases print_one v h.machine with ⟨line, printed⟩ | stopped
      · rw [printed]
        refine ⟨_, h.machine.output.push line, ?_, rfl⟩
        rw [Array.toList_push]
        exact List.prefix_append _ _
      · rw [stopped]
        exact ⟨_, _, List.prefix_rfl, rfl⟩

theorem opens_define (record : Option Variable) (name : String) (mutable : Bool) (v : Value)
    (holds : L.holds h.machine) :
    L.Opens [name] h (define record name mutable v) fun _ => True := by
  unfold Opens Runs define Eval.define
  cases free : h.machine.scopes.variableClash? h.machine.current name with
  | some r =>
    exact ⟨⟨[], List.nil_prefix, L.kept_come .reached holds (L.refl _) trivial⟩, trivial⟩
  | none =>
    obtain ⟨after, grows⟩ := L.defined mutable v holds free
    have kept : L.Kept [name] h (h.come (.defined record h.machine.cells.size)
        (h.machine.defining name mutable v)) := L.kept_come _ after grows trivial
    exact ⟨⟨[name], List.prefix_rfl, kept⟩, fun _ => kept⟩

variable (L) (rule : DivisionScale)

structure LawAt (fuel : Nat) : Prop where
  evaluate : ∀ {h} e, L.holds h.machine → L.Stays h (evaluate rule fuel e) fun _ _ => True
  condition : ∀ {h} e, L.holds h.machine → L.Stays h (condition rule fuel e) fun _ _ => True
  invoke : ∀ {h} f vs, L.holds h.machine → (∃ name arity, L.knows name arity f) →
    L.Stays h (invoke rule fuel f vs) fun _ _ => True
  execute : ∀ {h} s, L.holds h.machine → L.Opens s.lets h (execute rule fuel s) (· = .next)
  assign : ∀ {h} receiver value, L.holds h.machine →
    L.Stays h (assign rule fuel receiver value) fun _ _ => True
  repeatWhile : ∀ {h} c body, L.holds h.machine →
    L.Stays h (repeatWhile rule fuel c body) fun _ _ => True

variable {L} {rule} {fuel : Nat}

theorem stays_mapM {act : γ → Watched α} (cs : List γ) (holds : L.holds h.machine)
    (each : ∀ c k, L.holds k.machine → L.Stays k (act c) fun _ _ => True) :
    L.Stays h (cs.mapM act) fun _ _ => True := by
  induction cs generalizing h with
  | nil => exact stays_pure holds trivial
  | cons c cs ih =>
    rw [List.mapM_cons]
    apply stays_bind (each c h holds)
    intro a k kept _
    exact stays_bind (ih kept.holds) fun as l kept _ => stays_pure kept.holds trivial

theorem opens_sequence {act : Stmt → Watched Flow} (ss : List Stmt) (holds : L.holds h.machine)
    (each : ∀ s k, L.holds k.machine → L.Opens s.lets k (act s) (· = .next)) :
    L.Opens (ss.flatMap Stmt.lets) h (sequence act ss) (· = .next) := by
  induction ss generalizing h with
  | nil => exact opens_pure holds
  | cons s ss ih =>
    rw [List.flatMap_cons]
    refine opens_bind (each s h holds) ?_ ?_
    · rintro flow k kept rfl
      exact ih kept.holds
    · intro flow left
      cases flow with
      | next => exact absurd rfl left
      | returned v => exact ⟨.returned v, rfl, nofun⟩

theorem stays_matching {act : Expr → Watched Value} (v : Value) (cases : List Case)
    (holds : L.holds h.machine)
    (each : ∀ e k, L.holds k.machine → L.Stays k (act e) fun _ _ => True) :
    L.Stays h (matching act v cases) fun _ _ => True := by
  induction cases generalizing h with
  | nil => exact stays_pure holds trivial
  | cons c cs ih =>
    obtain ⟨value, body⟩ := c
    cases value with
    | none => exact ih holds
    | some e =>
      apply stays_bind (each e h holds)
      intro w k kept _
      apply stays_bind (stays_glance kept.holds (looks_onHeap _))
      intro same l kept _
      cases same with
      | true => exact stays_pure kept.holds trivial
      | false => exact ih kept.holds

theorem opens_bindParameters (ps : List Parameter) (types : List Ty) (vs : List Value)
    (holds : L.holds h.machine) :
    L.Opens ((ps.zip vs).map fun b => b.1.name) h (bindParameters ps types vs) fun _ => True := by
  induction ps generalizing types vs h with
  | nil => exact opens_pure holds
  | cons p ps ih =>
    cases vs with
    | nil => exact opens_pure holds
    | cons v vs =>
      exact opens_then (opens_define _ p.name true v holds) fun _ k kept =>
        ih types.tail vs kept.holds

/-- The list that a variable holds, and what follows. -/
theorem stays_place (record : Option Variable) (name : String) {next : Nat → Watched β}
    {result : β → History → Prop} (holds : L.holds h.machine)
    (rest : ∀ place k, L.holds k.machine → L.Stays k (next place) result) :
    L.Stays h (do
      let i ← resolve record name
      let c ← step (Eval.cell i)
      let place ← step (Eval.listOf c)
      next place) result := by
  apply stays_bind (stays_resolve record name holds)
  intro i k kept _
  apply stays_bind (stays_glance kept.holds (looks_cell i))
  intro c k kept _
  apply stays_bind (stays_glance kept.holds (looks_listOf c))
  exact fun place k kept _ => rest place k kept.holds

theorem stays_evaluate (ih : L.LawAt rule fuel) (e : Expr) (holds : L.holds h.machine) :
    L.Stays h (evaluate rule (fuel + 1) e) fun _ _ => True := by
  have yields : ∀ {act : Watched Value}, L.Stays h act (fun _ _ => True) →
      L.Stays h (yielding e act) fun _ _ => True := by
    intro act inner
    apply stays_bind inner
    intro v k kept _
    have sees : L.Sees ⟨.evaluated e v, k.machine⟩ := trivial
    exact stays_bind (stays_note kept.holds sees) fun _ l kept _ => stays_pure kept.holds trivial
  refine yields ?_
  cases e with
  | literal value ty => exact stays_pure holds trivial
  | group inner ty => exact ih.evaluate inner holds
  | binary op left right ty =>
    cases op with
    | and =>
      apply stays_bind (ih.condition left holds)
      intro b k kept _
      cases b with
      | true =>
        exact stays_bind (ih.condition right kept.holds) fun b l kept _ =>
          stays_pure kept.holds trivial
      | false => exact stays_pure kept.holds trivial
    | or =>
      apply stays_bind (ih.condition left holds)
      intro b k kept _
      cases b with
      | true => exact stays_pure kept.holds trivial
      | false =>
        exact stays_bind (ih.condition right kept.holds) fun b l kept _ =>
          stays_pure kept.holds trivial
    | _ =>
      apply stays_bind (ih.evaluate left holds)
      intro l k kept _
      exact stays_bind (ih.evaluate right kept.holds) fun r l kept _ =>
        stays_glance kept.holds (looks_onHeap _)
  | access name record ty =>
    apply stays_bind (stays_resolve record name holds)
    intro i k kept _
    exact stays_bind (stays_glance kept.holds (looks_cell i)) fun c l kept _ =>
      stays_pure kept.holds trivial
  | element name index record ty =>
    apply stays_place record name holds
    intro place k holds
    apply stays_bind (ih.evaluate index holds)
    intro v k kept _
    apply stays_bind (stays_glance kept.holds (looks_elements place))
    intro vs k kept _
    exact stays_bind (stays_glance kept.holds (looks_position vs.length v)) fun n l kept _ =>
      stays_pure kept.holds trivial
  | call name args signature ty =>
    apply stays_bind (stays_callableNamed name args.length holds)
    intro f k kept known
    apply stays_bind (stays_mapM args kept.holds fun e _ holds => ih.evaluate e holds)
    intro vs k kept _
    have sees : L.Sees ⟨.called (.call name args signature ty) f, k.machine⟩ :=
      ⟨name, args, signature, ty, rfl, known⟩
    apply stays_bind (stays_note kept.holds sees)
    intro _ k kept _
    exact ih.invoke f vs kept.holds ⟨name, args.length, known⟩
  | list es ty =>
    apply stays_bind (stays_mapM es holds fun e _ holds => ih.evaluate e holds)
    intro vs k kept _
    exact stays_newList vs kept.holds

theorem stays_fail {e : RuntimeError} {next : α → Watched β} {result : β → History → Prop}
    (holds : L.holds h.machine) : L.Stays h (step (Eval.fail e : Eval α) >>= next) result := by
  have failed : L.Stays h (step (Eval.fail e : Eval α)) fun _ _ => False :=
    stays_look holds (looks_fail e) fun a ended => by cases ended
  exact stays_bind failed fun _ _ _ never => never.elim

/-- The parameters of a function and then its body, in the scope that is there for them. -/
theorem opens_body (ih : L.LawAt rule fuel) (d : Function) (vs : List Value)
    (holds : L.holds h.machine) :
    L.Opens (((d.parameters.zip vs).map fun b => b.1.name) ++ d.body.flatMap Stmt.lets) h (do
      bindParameters d.parameters (parameterTypes d) vs
      sequence (execute rule fuel) d.body) (· = .next) :=
  opens_then (opens_bindParameters d.parameters (parameterTypes d) vs holds) fun _ _ kept =>
    opens_sequence d.body kept.holds fun s _ => ih.execute s

theorem stays_invoke (ih : L.LawAt rule fuel) (f : Callable) (vs : List Value)
    (holds : L.holds h.machine) (known : ∃ name arity, L.knows name arity f) :
    L.Stays h (invoke rule (fuel + 1) f vs) fun _ _ => True := by
  have sees : L.Sees ⟨.invoked f vs, h.machine⟩ := known
  apply stays_bind (stays_note holds sees)
  intro _ k kept _
  cases f with
  | print => exact stays_print vs kept.holds
  | function declaration scope =>
    obtain ⟨name, arity, known⟩ := known
    refine runs_get ?_
    by_cases alive : k.machine.isAlive scope
    · simp only [alive, Bool.not_true, Bool.false_eq_true, if_false]
      have called := stays_inChildOf kept.holds (L.call kept.holds known) fun l =>
        opens_body ih declaration vs
      apply stays_bind called
      intro flow l kept _
      cases flow <;> exact stays_pure kept.holds trivial
    · simp only [alive, Bool.not_false, if_true]
      exact stays_fail kept.holds

theorem stays_block (ih : L.LawAt rule fuel) (ss : List Stmt) (holds : L.holds h.machine) :
    L.Stays h (inChild (sequence (execute rule fuel) ss)) fun _ _ => True :=
  stays_inChild holds fun _ holds => opens_sequence ss holds fun s _ => ih.execute s

theorem opens_arms (ih : L.LawAt rule fuel) (v : Value) (cases : List Case)
    (holds : L.holds h.machine) :
    L.Opens [] h (do
      let body ← matching (evaluate rule fuel) v cases
      match body <|> Eval.defaultBody cases with
      | some body => inChild (sequence (execute rule fuel) body)
      | none => pure .next) (· = .next) := by
  refine opens_after (stays_matching v cases holds fun e _ holds => ih.evaluate e holds) ?_
  intro body k kept
  cases body <|> Eval.defaultBody cases with
  | none => exact opens_pure kept.holds
  | some body => exact opens_of_stays (stays_block ih body kept.holds)

theorem opens_execute (ih : L.LawAt rule fuel) (s : Stmt) (holds : L.holds h.machine) :
    L.Opens s.lets h (execute rule (fuel + 1) s) (· = .next) := by
  cases s with
  | expression e =>
    exact opens_after (ih.evaluate e holds) fun _ k kept => opens_pure kept.holds
  | declaration name typeName value record =>
    have defined : ∀ v k, L.holds k.machine →
        L.Opens [name] k (define record name true v >>= fun _ => pure Flow.next) (· = .next) :=
      fun v k holds => opens_then (opens_define record name true v holds) fun _ l kept =>
        opens_pure kept.holds
    cases value with
    | none => exact defined .nil h holds
    | some e => exact opens_after (ih.evaluate e holds) fun v k kept => defined v k kept.holds
  | assignment receiver value =>
    exact opens_after (ih.assign receiver value holds) fun _ k kept => opens_pure kept.holds
  | conditional c whenTrue whenFalse =>
    exact opens_after (ih.condition c holds) fun b k kept =>
      opens_of_stays (stays_block ih _ kept.holds)
  | switch c cases =>
    exact opens_after (ih.evaluate c holds) fun v k kept =>
      opens_of_stays (stays_inChild kept.holds fun l holds => opens_arms ih v cases holds)
  | loop c body => exact opens_of_stays (ih.repeatWhile c body holds)
  | «return» e =>
    exact opens_after (ih.evaluate e holds) fun v k kept => opens_pure kept.holds

theorem stays_assign (ih : L.LawAt rule fuel) (receiver value : Expr) (holds : L.holds h.machine) :
    L.Stays h (assign rule (fuel + 1) receiver value) fun _ _ => True := by
  cases receiver with
  | access name record ty =>
    apply stays_bind (stays_resolve record name holds)
    intro i k kept known
    apply stays_bind (stays_glance kept.holds (looks_cell i))
    intro c l since _
    cases c.mutable with
    | false =>
      simp only [Bool.not_false, if_true]
      exact stays_fail since.holds
    | true =>
      simp only [Bool.not_true, Bool.false_eq_true, if_false]
      apply stays_bind (ih.evaluate value since.holds)
      intro v m later _
      have whole := L.kept_trans since later
      have after := L.assigned v kept.holds known whole.grows whole.holds
      exact runs_step ⟨L.kept_come .reached after.1 after.2 trivial, trivial⟩
  | element name index record ty =>
    apply stays_place record name holds
    intro place k holds
    apply stays_bind (ih.evaluate index holds)
    intro n k kept _
    apply stays_bind (ih.evaluate value kept.holds)
    intro v k kept _
    apply stays_bind (stays_glance kept.holds (looks_onHeap _))
    intro cyclic k kept _
    cases cyclic with
    | true => exact stays_fail kept.holds
    | false =>
      apply stays_bind (stays_glance kept.holds (looks_elements place))
      intro vs k kept _
      apply stays_bind (stays_glance kept.holds (looks_position vs.length n))
      intro n k kept _
      exact stays_setElement place n v kept.holds
  | literal | group | binary | call | list => exact stays_glance holds (looks_fail .badReceiver)

theorem stays_repeatWhile (ih : L.LawAt rule fuel) (c : Expr) (body : List Stmt)
    (holds : L.holds h.machine) :
    L.Stays h (repeatWhile rule (fuel + 1) c body) fun _ _ => True := by
  apply stays_bind (ih.condition c holds)
  intro b k kept _
  cases b with
  | false => exact stays_pure kept.holds trivial
  | true =>
    apply stays_bind (stays_block ih body kept.holds)
    intro flow l kept _
    cases flow with
    | next => exact ih.repeatWhile c body kept.holds
    | returned v => exact stays_pure kept.holds trivial

theorem law_at (L : ScopeLaw) (rule : DivisionScale) (fuel : Nat) : L.LawAt rule fuel := by
  induction fuel with
  | zero =>
    have stopped : ∀ {α : Type} {h : History}, L.holds h.machine →
        L.Stays h (throw .exhausted : Watched α) fun _ _ => True :=
      fun holds => runs_throw (L.kept_same holds) trivial
    refine ⟨fun _ => stopped, fun _ => stopped, fun _ _ holds _ => stopped holds, fun s holds => ?_,
      fun _ _ => stopped, fun _ _ => stopped⟩
    exact runs_throw ⟨[], List.nil_prefix, L.kept_same holds⟩ trivial
  | succ fuel ih =>
    refine ⟨fun e => stays_evaluate ih e, fun e holds => ?_, fun f vs => stays_invoke ih f vs,
      fun s => opens_execute ih s, fun r v => stays_assign ih r v,
      fun c body => stays_repeatWhile ih c body⟩
    exact stays_bind (ih.evaluate e holds) fun v k kept _ =>
      stays_glance kept.holds (looks_boolean v)

theorem opens_defineGlobal (g : Global) (holds : L.holds h.machine) :
    L.Opens [g.name] h (defineGlobal rule fuel g) fun _ => True := by
  obtain ⟨name, typeName, mutable, list, value, record⟩ := g
  cases value with
  | some e =>
    exact opens_after ((law_at L rule fuel).evaluate e holds) fun v k kept =>
      opens_define record name mutable v kept.holds
  | none =>
    cases list with
    | true =>
      exact opens_after (stays_newList [] holds) fun v k kept =>
        opens_define record name mutable v kept.holds
    | false => exact opens_define record name mutable .nil holds

theorem opens_globals (gs : List Global) (holds : L.holds h.machine) :
    L.Opens (gs.map Global.name) h (gs.forM (defineGlobal rule fuel)) fun _ => True := by
  induction gs generalizing h with
  | nil => exact opens_pure holds
  | cons g gs ih =>
    exact opens_then (opens_defineGlobal g holds) fun _ k kept => ih kept.holds

theorem stays_main (holds : L.holds h.machine) :
    L.Stays h (match h.machine.scopes.findFunction? h.machine.current "main" 0 with
      | none => step (Eval.fail .mainMissing)
      | some main => do
        let v ← invoke rule fuel main []
        step (Eval.mainResult v)) fun _ _ => True := by
  cases found : h.machine.scopes.findFunction? h.machine.current "main" 0 with
  | none => exact stays_glance holds (looks_fail _)
  | some main =>
    have called := (law_at L rule fuel).invoke main [] holds ⟨"main", 0, L.found holds found⟩
    exact stays_bind called fun v k kept _ => stays_glance kept.holds (looks_mainResult v)

end ScopeLaw

end Plc

import Plc.Proofs.ValueLaw

/-!
A value law is kept by all runs: of an expression, of a statement and of a function, with any fuel
and however the run ends, and so by those of whole programs.
-/

namespace Plc.ValueLaw

open Watched

variable {rule : DivisionScale} {L : ValueLaw rule} {fuel : Nat} {h : History}

def ValidFlow (L : ValueLaw rule) : Flow → History → Prop
  | .next, _ => True
  | .returned v, h => L.Valid v h

theorem validFlow_lasts (flow : Flow) {k l : History} (kept : L.Kept k l)
    (valid : L.ValidFlow flow k) : L.ValidFlow flow l := by
  cases flow with
  | next => trivial
  | returned v => exact valid_lasts kept valid

variable (L)

structure KeepsAt (fuel : Nat) : Prop where
  evaluate : ∀ {h} e, L.Holds h → L.Covers e → L.Keeps h (evaluate rule fuel e) L.Valid
  condition : ∀ {h} e, L.Holds h → L.Covers e →
    L.Keeps h (condition rule fuel e) fun _ _ => True
  invoke : ∀ {h} f vs, L.Holds h → L.CoversFunction f → (∀ v ∈ vs, L.Valid v h) →
    L.Keeps h (invoke rule fuel f vs) L.Valid
  execute : ∀ {h} s, L.Holds h → L.CoversStmt s → L.Keeps h (execute rule fuel s) L.ValidFlow
  assign : ∀ {h} receiver value, L.Holds h → L.Covers receiver → L.Covers value →
    L.Keeps h (assign rule fuel receiver value) fun _ _ => True
  repeatWhile : ∀ {h} c body, L.Holds h → L.Covers c → L.CoversBlock body →
    L.Keeps h (repeatWhile rule fuel c body) L.ValidFlow

variable {L}

theorem keeps_evaluateAll (ih : L.KeepsAt fuel) (es : List Expr) (holds : L.Holds h)
    (covers : ∀ e ∈ es, L.Covers e) :
    L.Keeps h (es.mapM (evaluate rule fuel)) fun vs k => ∀ v ∈ vs, L.Valid v k :=
  keeps_mapM es holds fun e member _ holds => ih.evaluate e holds (covers e member)

theorem keeps_sequence (ih : L.KeepsAt fuel) (ss : List Stmt) (holds : L.Holds h)
    (covers : L.CoversBlock ss) :
    L.Keeps h (sequence (execute rule fuel) ss) L.ValidFlow := by
  induction ss generalizing h with
  | nil => exact keeps_pure holds trivial
  | cons s ss rest =>
    apply keeps_bind (ih.execute s holds fun t member => covers t (Stmt.parts_head member))
    intro flow k kept valid
    cases flow with
    | next => exact rest kept.1 fun t member => covers t (Stmt.parts_tail member)
    | returned v => exact keeps_pure kept.1 valid

/-- A body that is chosen is that of one of the arms. -/
theorem keeps_matching (ih : L.KeepsAt fuel) (v : Value) (arms : List Case) (holds : L.Holds h)
    (covers : ∀ arm ∈ arms, ∀ e, arm.value = some e → L.Covers e) :
    L.Keeps h (matching (evaluate rule fuel) v arms) fun body _ =>
      ∀ ss, body = some ss → ∃ arm ∈ arms, arm.body = ss := by
  induction arms generalizing h with
  | nil => exact keeps_pure holds nofun
  | cons c cs rest =>
    have others := fun {k : History} (holds : L.Holds k) =>
      rest holds fun arm member => covers arm (List.mem_cons_of_mem c member)
    have later : ∀ body : Option (List Stmt),
        (∀ ss, body = some ss → ∃ arm ∈ cs, arm.body = ss) →
          ∀ ss, body = some ss → ∃ arm ∈ c :: cs, arm.body = ss := by
      intro body among ss is
      obtain ⟨arm, member, same⟩ := among ss is
      exact ⟨arm, List.mem_cons_of_mem c member, same⟩
    obtain ⟨value, body⟩ := c
    cases value with
    | none => exact runs_imp (others holds) fun body _ _ => later body
    | some e =>
      apply keeps_bind (ih.evaluate e holds (covers _ List.mem_cons_self e rfl))
      intro w k kept _
      apply keeps_bind (keeps_answer kept.1 fun _ => Operation.equal_ne_overflow)
      intro same l kept _
      cases same with
      | true =>
        refine keeps_pure kept.1 fun ss is => ⟨_, List.mem_cons_self, ?_⟩
        exact Option.some.inj is
      | false => exact runs_imp (others kept.1) fun body _ _ => later body

theorem keeps_bindParameters (ps : List Parameter) (types : List Ty) (vs : List Value)
    (holds : L.Holds h) (valid : ∀ v ∈ vs, L.Valid v h) :
    L.Keeps h (bindParameters ps types vs) fun _ _ => True := by
  induction ps generalizing types vs h with
  | nil => exact keeps_pure holds trivial
  | cons p ps rest =>
    cases vs with
    | nil => exact keeps_pure holds trivial
    | cons v vs =>
      apply keeps_bind (keeps_define _ _ _ holds (valid v List.mem_cons_self))
      intro _ k kept _
      exact rest types.tail vs kept.1 fun w member =>
        valid_lasts kept (valid w (List.mem_cons_of_mem v member))

def Yields (L : ValueLaw rule) (e : Expr) (v : Value) (h : History) : Prop :=
  ∀ m, L.valid (⟨.evaluated e v, m⟩ :: h.moments) v

theorem keeps_yielding {e : Expr} {act : Watched Value} (inner : L.Keeps h act (L.Yields e)) :
    L.Keeps h (yielding e act) L.Valid := by
  refine keeps_bind inner fun v k kept yields => ?_
  have noted : L.Keeps k (note (.evaluated e v)) fun _ l => L.Valid v l :=
    ⟨kept_note _ kept.1 (yields _), yields _⟩
  exact keeps_bind noted fun _ l kept valid => keeps_pure kept.1 valid

theorem yields_of_valid {e : Expr} {v : Value} (valid : L.Valid v h) : L.Yields e v h :=
  fun _ => L.lasts _ valid

theorem keeps_valid {e : Expr} {act : Watched Value} (inner : L.Keeps h act L.Valid) :
    L.Keeps h act (L.Yields e) := runs_imp inner fun _ _ _ => yields_of_valid

theorem keeps_boolean {e : Expr} (b : Bool) (holds : L.Holds h) :
    L.Keeps h (pure (Value.boolean b)) (L.Yields e) :=
  keeps_pure holds fun _ => L.boolean _ b

theorem keeps_apply {op : Operator} {left right : Expr} {slot : Option Ty} {l r : Value}
    (holds : L.Holds h) (validL : L.Valid l h) (validR : L.Valid r h) :
    L.Keeps h (step (Eval.onHeap fun heap => Operation.apply rule heap op l r))
      (L.Yields (.binary op left right slot)) :=
  keeps_onHeap holds
    (fun _ result m => L.operation m (L.lasts _ validL) (L.lasts _ validR) result)
    (L.overflow validL validR)

theorem keeps_binary (ih : L.KeepsAt fuel) (op : Operator) {left right : Expr} (slot : Option Ty)
    (holds : L.Holds h) (coversL : L.Covers left) (coversR : L.Covers right) :
    L.Keeps h (evaluate rule (fuel + 1) (.binary op left right slot)) L.Valid := by
  refine keeps_yielding ?_
  cases op with
  | and =>
    apply keeps_bind (ih.condition left holds coversL)
    intro b k kept _
    cases b with
    | true =>
      exact keeps_bind (ih.condition right kept.1 coversR) fun b l kept _ => keeps_boolean b kept.1
    | false => exact keeps_boolean false kept.1
  | or =>
    apply keeps_bind (ih.condition left holds coversL)
    intro b k kept _
    cases b with
    | true => exact keeps_boolean true kept.1
    | false =>
      exact keeps_bind (ih.condition right kept.1 coversR) fun b l kept _ => keeps_boolean b kept.1
  | _ =>
    apply keeps_bind (ih.evaluate left holds coversL)
    intro l k kept validL
    apply keeps_bind (ih.evaluate right kept.1 coversR)
    intro r o kept validR
    exact keeps_apply kept.1 (valid_lasts kept validL) validR

/-- An element of a list that may be there, or nil in its place. -/
theorem valid_getD {vs : List Value} (valid : ∀ v ∈ vs, L.Valid v h) (i : Nat) :
    L.Valid (vs.getD i .nil) h := by
  rw [List.getD_eq_getElem?_getD]
  cases found : vs[i]? with
  | none => exact L.nil _
  | some v => exact valid v (List.mem_of_getElem? found)

theorem keeps_evaluate (ih : L.KeepsAt fuel) (e : Expr) (holds : L.Holds h) (covers : L.Covers e) :
    L.Keeps h (evaluate rule (fuel + 1) e) L.Valid := by
  cases e with
  | literal value slot =>
    exact keeps_yielding (keeps_pure holds fun m =>
      L.literal m h.moments (covers _ (Expr.mem_parts _)))
  | group inner slot =>
    exact keeps_yielding (keeps_valid (ih.evaluate inner holds fun x member =>
      covers x (Expr.parts_group member)))
  | binary op left right slot =>
    exact keeps_binary ih op slot holds (fun x member => covers x (Expr.parts_left member))
      fun x member => covers x (Expr.parts_right member)
  | access name record slot =>
    refine keeps_yielding (keeps_valid ?_)
    apply keeps_bind (keeps_resolve record name holds)
    intro i k kept _
    exact keeps_bind (keeps_cell i kept.1) fun c l kept valid => keeps_pure kept.1 valid
  | element name index record slot =>
    refine keeps_yielding (keeps_valid ?_)
    apply keeps_bind (keeps_resolve record name holds)
    intro i k kept _
    apply keeps_bind (keeps_cell i kept.1)
    intro c k kept _
    apply keeps_bind (keeps_glance kept.1 (looks_listOf c) (errs_listOf c))
    intro place k kept _
    apply keeps_bind (ih.evaluate index kept.1 fun x member => covers x (Expr.parts_index member))
    intro v k kept _
    apply keeps_bind (keeps_elements place kept.1)
    intro vs k kept valid
    apply keeps_bind (keeps_glance kept.1 (looks_position vs.length v) (errs_position vs.length v))
    intro i l kept _
    exact keeps_pure kept.1 (valid_getD (fun v member => valid_lasts kept (valid v member)) i)
  | call name args signature slot =>
    refine keeps_yielding (keeps_valid ?_)
    have known : L.Keeps h (step (Eval.callableNamed name args.length)) fun f _ =>
        L.CoversFunction f := by
      apply keeps_look holds (looks_callableNamed name args.length)
        (errs_callableNamed name args.length)
      intro f found
      unfold Eval.callableNamed at found
      cases is : h.machine.scopes.findFunction? h.machine.current name args.length with
      | none => simp [is] at found
      | some g =>
        obtain rfl : g = f := by simpa [is] using found
        obtain ⟨i, _, own⟩ := List.exists_of_findSome?_eq_some is
        exact holds.functions i name args.length g own
    apply keeps_bind known
    intro f k kept coversF
    apply keeps_bind (keeps_evaluateAll ih args kept.1 fun e member x inside =>
      covers x (Expr.parts_argument member inside))
    intro vs k kept valid
    apply keeps_bind (keeps_note (.called (.call name args signature slot) f) kept.1 trivial)
    intro _ l kept _
    exact ih.invoke f vs kept.1 coversF fun v member => valid_lasts kept (valid v member)
  | list es slot =>
    refine keeps_yielding (keeps_valid ?_)
    apply keeps_bind (keeps_evaluateAll ih es holds fun e member x inside =>
      covers x (Expr.parts_element member inside))
    intro vs k kept valid
    exact keeps_newList kept.1 valid

theorem keeps_invoke (ih : L.KeepsAt fuel) (f : Callable) (vs : List Value) (holds : L.Holds h)
    (covers : L.CoversFunction f) (valid : ∀ v ∈ vs, L.Valid v h) :
    L.Keeps h (invoke rule (fuel + 1) f vs) L.Valid := by
  have noted : L.Sees (⟨.invoked f vs, h.machine⟩ :: h.moments) (.invoked f vs) :=
    fun v member => L.lasts _ (valid v member)
  refine keeps_bind (keeps_note _ holds noted) fun _ k kept _ => ?_
  have valid : ∀ v ∈ vs, L.Valid v k := fun v member => valid_lasts kept (valid v member)
  cases f with
  | print => exact keeps_print vs kept.1
  | function d scope =>
    refine runs_get ?_
    by_cases alive : k.machine.isAlive scope
    · simp only [alive, Bool.not_true, Bool.false_eq_true, if_false]
      have body : ∀ l, L.Kept k l → L.Keeps l (do
          bindParameters d.parameters (parameterTypes d) vs
          sequence (execute rule fuel) d.body) L.ValidFlow := fun l kept =>
        keeps_bind (keeps_bindParameters _ _ vs kept.1 fun v member =>
          valid_lasts kept (valid v member)) fun _ _ kept _ =>
            keeps_sequence ih d.body kept.1 covers
      refine keeps_bind (keeps_inChildOf kept.1 body fun flow _ _ => validFlow_lasts flow) ?_
      intro flow l kept valid
      cases flow with
      | next => exact keeps_pure kept.1 (L.nil _)
      | returned v => exact keeps_pure kept.1 valid
    · simp only [alive, Bool.not_false, if_true]
      exact keeps_fail kept.1

theorem keeps_block (ih : L.KeepsAt fuel) (ss : List Stmt) (holds : L.Holds h)
    (covers : L.CoversBlock ss) :
    L.Keeps h (inChild (sequence (execute rule fuel) ss)) L.ValidFlow :=
  keeps_inChild holds (fun _ kept => keeps_sequence ih ss kept.1 covers) fun flow _ _ =>
    validFlow_lasts flow

theorem keeps_execute (ih : L.KeepsAt fuel) (s : Stmt) (holds : L.Holds h)
    (covers : L.CoversStmt s) : L.Keeps h (execute rule (fuel + 1) s) L.ValidFlow := by
  have own : ∀ e ∈ s.own, L.Covers e := covers s s.mem_parts
  cases s with
  | expression e =>
    exact keeps_bind (ih.evaluate e holds (own e List.mem_cons_self)) fun _ k kept _ =>
      keeps_pure kept.1 trivial
  | declaration name typeName value record =>
    have defined : ∀ v k, L.Holds k → L.Valid v k →
        L.Keeps k (define record name true v >>= fun _ => pure Flow.next) L.ValidFlow :=
      fun v k holds valid => keeps_bind (keeps_define record name true holds valid)
        fun _ l kept _ => keeps_pure kept.1 trivial
    cases value with
    | none => exact defined .nil h holds (L.nil _)
    | some e =>
      exact keeps_bind (ih.evaluate e holds (own e List.mem_cons_self)) fun v k kept valid =>
        defined v k kept.1 valid
  | assignment receiver value =>
    have coversV := own value (List.mem_cons_of_mem _ List.mem_cons_self)
    exact keeps_bind (ih.assign receiver value holds (own receiver List.mem_cons_self) coversV)
      fun _ k kept _ => keeps_pure kept.1 trivial
  | conditional c whenTrue whenFalse =>
    apply keeps_bind (ih.condition c holds (own c List.mem_cons_self))
    intro b k kept _
    cases b with
    | true => exact keeps_block ih _ kept.1 fun t member => covers t (Stmt.parts_whenTrue member)
    | false => exact keeps_block ih _ kept.1 fun t member => covers t (Stmt.parts_whenFalse member)
  | switch c arms =>
    apply keeps_bind (ih.evaluate c holds (own c List.mem_cons_self))
    intro v k kept _
    refine keeps_inChild kept.1 (fun l kept => ?_) fun flow _ _ => validFlow_lasts flow
    apply keeps_bind (keeps_matching ih v arms kept.1 fun arm member e value =>
      own e (Stmt.own_value member value))
    intro body l kept among
    cases chosen : body <|> Eval.defaultBody arms with
    | none => exact keeps_pure kept.1 trivial
    | some ss =>
      obtain ⟨arm, member, rfl⟩ := Eval.mem_of_chosen among chosen
      exact keeps_block ih _ kept.1 fun t inside => covers t (Stmt.parts_arm member inside)
  | loop c body =>
    exact ih.repeatWhile c body holds (own c List.mem_cons_self) fun t member =>
      covers t (Stmt.parts_loop member)
  | «return» e =>
    exact keeps_bind (ih.evaluate e holds (own e List.mem_cons_self)) fun v k kept valid =>
      keeps_pure kept.1 valid

theorem keeps_assign (ih : L.KeepsAt fuel) (receiver value : Expr) (holds : L.Holds h)
    (coversR : L.Covers receiver) (coversV : L.Covers value) :
    L.Keeps h (assign rule (fuel + 1) receiver value) fun _ _ => True := by
  cases receiver with
  | access name record slot =>
    apply keeps_bind (keeps_resolve record name holds)
    intro i k kept _
    apply keeps_bind (keeps_cell i kept.1)
    intro c l kept _
    cases c.mutable with
    | false => exact keeps_fail kept.1
    | true =>
      apply keeps_bind (ih.evaluate value kept.1 coversV)
      intro v m kept valid
      exact keeps_setCell i kept.1 valid
  | element name index record slot =>
    apply keeps_bind (keeps_resolve record name holds)
    intro i k kept _
    apply keeps_bind (keeps_cell i kept.1)
    intro c k kept _
    apply keeps_bind (keeps_glance kept.1 (looks_listOf c) (errs_listOf c))
    intro place k kept _
    apply keeps_bind (ih.evaluate index kept.1 fun x member =>
      coversR x (Expr.parts_index member))
    intro n k kept _
    apply keeps_bind (ih.evaluate value kept.1 coversV)
    intro v k kept valid
    apply keeps_bind (keeps_answer kept.1 fun _ => Operation.closesCycle_ne_overflow)
    intro cyclic k kept _
    have valid := valid_lasts kept valid
    cases cyclic with
    | true => exact keeps_fail kept.1
    | false =>
      apply keeps_bind (keeps_glance kept.1 (looks_elements place) (errs_elements place))
      intro vs k kept _
      have valid := valid_lasts kept valid
      apply keeps_bind (keeps_glance kept.1 (looks_position vs.length n)
        (errs_position vs.length n))
      intro i k kept _
      exact keeps_setElement place i kept.1 (valid_lasts kept valid)
  | literal | group | binary | call | list =>
    exact keeps_glance holds (looks_fail .badReceiver) (errs_fail .badReceiver)

theorem keeps_repeatWhile (ih : L.KeepsAt fuel) (c : Expr) (body : List Stmt) (holds : L.Holds h)
    (covers : L.Covers c) (coversB : L.CoversBlock body) :
    L.Keeps h (repeatWhile rule (fuel + 1) c body) L.ValidFlow := by
  apply keeps_bind (ih.condition c holds covers)
  intro b k kept _
  cases b with
  | false => exact keeps_pure kept.1 trivial
  | true =>
    apply keeps_bind (keeps_block ih body kept.1 coversB)
    intro flow l kept valid
    cases flow with
    | next => exact ih.repeatWhile c body kept.1 covers coversB
    | returned v => exact keeps_pure kept.1 valid

theorem keeps_at (L : ValueLaw rule) (fuel : Nat) : L.KeepsAt fuel := by
  induction fuel with
  | zero =>
    have stopped {α : Type} {h : History} {good : α → History → Prop} (holds : L.Holds h) :
        L.Keeps h (throw .exhausted : Watched α) good := runs_throw (kept_refl holds) nofun
    exact ⟨fun _ holds _ => stopped holds, fun _ holds _ => stopped holds,
      fun _ _ holds _ _ => stopped holds, fun _ holds _ => stopped holds,
      fun _ _ holds _ _ => stopped holds, fun _ _ holds _ _ => stopped holds⟩
  | succ fuel ih =>
    refine ⟨keeps_evaluate ih, fun e holds covers => ?_, keeps_invoke ih, keeps_execute ih,
      keeps_assign ih, keeps_repeatWhile ih⟩
    exact keeps_bind (ih.evaluate e holds covers) fun v k kept _ =>
      keeps_glance kept.1 (looks_boolean v) (errs_boolean v)

theorem keeps_defineGlobal {g : Global} (holds : L.Holds h)
    (covers : ∀ e, g.value = some e → L.Covers e) :
    L.Keeps h (defineGlobal rule fuel g) fun _ _ => True := by
  obtain ⟨name, typeName, mutable, list, value, record⟩ := g
  have defined : ∀ v k, L.Kept h k → L.Valid v k →
      L.Keeps k (define record name mutable v) fun _ _ => True :=
    fun v k kept valid => keeps_define record name mutable kept.1 valid
  cases value with
  | some e => exact keeps_bind ((keeps_at L fuel).evaluate e holds (covers e rfl)) defined
  | none =>
    cases list with
    | true => exact keeps_bind (keeps_newList holds (by simp)) defined
    | false => exact defined .nil h (kept_refl holds) (L.nil _)

theorem keeps_program (L : ValueLaw rule) (fuel : Nat) {p : Program} (holds : L.Holds h)
    (covers : ∀ e ∈ p.expressions, L.code e) :
    L.Keeps h (program rule fuel p) fun _ _ => True := by
  have globals : ∀ g ∈ p.globals, ∀ e, g.value = some e → L.Covers e :=
    fun g member e value x inside => covers x (Program.mem_of_global member value inside)
  have functions : ∀ f ∈ p.functions, L.CoversBlock f.body :=
    fun f member t part e own x inside => covers x (Program.mem_of_body member part own inside)
  apply keeps_bind (keeps_forM p.globals holds fun g member _ holds =>
    keeps_defineGlobal holds (globals g member))
  intro _ k kept _
  apply keeps_bind (keeps_forM p.functions kept.1 fun f member _ holds =>
    keeps_defineFunction f holds (functions f member))
  intro _ l kept _
  refine runs_get (runs_get ?_)
  cases found : l.machine.scopes.findFunction? l.machine.current "main" 0 with
  | none => exact keeps_glance kept.1 (looks_fail .mainMissing) (errs_fail .mainMissing)
  | some main =>
    obtain ⟨i, _, own⟩ := List.exists_of_findSome?_eq_some found
    have main := (keeps_at L fuel).invoke main [] kept.1 (kept.1.functions i "main" 0 main own)
      (by simp)
    exact keeps_bind main fun v k kept _ =>
      keeps_glance kept.1 (looks_mainResult v) (errs_mainResult v)

/-- At first there is nothing but the function that every program has. -/
theorem holds_fresh (L : ValueLaw rule) :
    L.Holds (.start { Machine.fresh with output := #[] }) := by
  constructor
  · intro c member
    exact absurd member (Array.not_mem_empty c)
  · intro p v member
    have nothing : Heap.elements #[] p = [] := by simp [Heap.elements]
    change v ∈ Heap.elements #[] p at member
    rw [nothing] at member
    exact absurd member List.not_mem_nil
  · intro i name arity f own
    change ((Scopes.single.addChild 0).bindFunction _ "print" 1 .print).ownFunction? i name arity =
      some f at own
    rw [Scopes.ownFunction?_bindFunction, Scopes.ownFunction?_addChild,
      Scopes.ownFunction?_single] at own
    split at own
    · cases own
      trivial
    · cases own
  · trivial

/-- At every moment of every run of such a program, whatever is there may be there. -/
theorem told_run (L : ValueLaw rule) (fuel : Nat) {p : Program}
    (covers : ∀ e ∈ p.expressions, L.code e) :
    L.Told (Machine.fresh.history rule fuel p).moments :=
  (runs_program (keeps_program L fuel L.holds_fresh covers)).1.1.told

theorem broken_run (L : ValueLaw rule) (fuel : Nat) {p : Program}
    (covers : ∀ e ∈ p.expressions, L.code e) (overflown : (p.run rule fuel).ending = .overflow) :
    L.broken (Machine.fresh.history rule fuel p).moments := by
  have ran := (runs_program (keeps_program L fuel L.holds_fresh covers)).2
  have ends : (Machine.fresh.run rule fuel p).1.ending = .overflow := overflown
  rw [ends] at ran
  exact ran rfl

end Plc.ValueLaw

import Plc.Proofs.Calls

/-!
All calls of a run are resolved: of an expression, of a statement and of a function, with any fuel
and however the run ends. So are those in the values of globals and those that `main` leads to.
-/

namespace Plc.Stage

open Watched

variable {S : Stage} {rule : DivisionScale} {fuel : Nat} {h : History} {a : Nat}

theorem finds_mapM {act : Expr → Watched Value} (es : List Expr) (placed : S.Placed a h.machine)
    (each : ∀ e ∈ es, ∀ k, S.Placed a k.machine → S.Finds k (act e) fun _ => True) :
    S.Finds h (es.mapM act) fun _ => True := by
  induction es generalizing h with
  | nil => exact finds_pure placed trivial
  | cons e es ih =>
    rw [List.mapM_cons]
    apply finds_bind placed (each e List.mem_cons_self h placed)
    intro v k placed _
    apply finds_bind placed (ih placed fun d member => each d (List.mem_cons_of_mem e member))
    intro vs l placed _
    exact finds_pure placed trivial

theorem finds_sequence {act : Stmt → Watched Flow} (ss : List Stmt)
    (placed : S.Placed a h.machine) (covers : S.CoversBlock a ss)
    (each : ∀ s k, S.Placed a k.machine → S.CoversStmt a s → S.Finds k (act s) fun _ => True) :
    S.Finds h (sequence act ss) fun _ => True := by
  induction ss generalizing h with
  | nil => exact finds_pure placed trivial
  | cons s ss ih =>
    apply finds_bind placed (each s h placed fun t member => covers t (Stmt.parts_head member))
    intro flow k placed _
    cases flow with
    | next => exact ih placed fun t member => covers t (Stmt.parts_tail member)
    | returned v => exact finds_pure placed trivial

/-- A body that is chosen is that of one of the arms. -/
theorem finds_matching {act : Expr → Watched Value} (v : Value) (cases : List Case)
    (placed : S.Placed a h.machine)
    (each : ∀ arm ∈ cases, ∀ e, arm.value = some e → ∀ k, S.Placed a k.machine →
      S.Finds k (act e) fun _ => True) :
    S.Finds h (matching act v cases) fun body =>
      ∀ ss, body = some ss → ∃ arm ∈ cases, arm.body = ss := by
  induction cases generalizing h with
  | nil => exact finds_pure placed nofun
  | cons c cs ih =>
    have others := fun {k : History} (placed : S.Placed a k.machine) =>
      ih placed fun arm member => each arm (List.mem_cons_of_mem c member)
    have later : ∀ body : Option (List Stmt),
        (∀ ss, body = some ss → ∃ arm ∈ cs, arm.body = ss) →
          ∀ ss, body = some ss → ∃ arm ∈ c :: cs, arm.body = ss := by
      intro body among ss is
      obtain ⟨arm, member, same⟩ := among ss is
      exact ⟨arm, List.mem_cons_of_mem c member, same⟩
    obtain ⟨value, body⟩ := c
    cases value with
    | none => exact runs_imp (others placed) fun body _ _ => later body
    | some e =>
      apply finds_bind placed (each _ List.mem_cons_self e rfl h placed)
      intro w k placed _
      apply finds_bind placed (finds_step placed (aside_of_looks (looks_onHeap _)))
      intro same l placed _
      cases same with
      | true =>
        refine finds_pure placed fun ss is => ⟨_, List.mem_cons_self, ?_⟩
        exact Option.some.inj is
      | false => exact runs_imp (others placed) fun body _ _ => later body

theorem finds_bindParameters (ps : List Parameter) (types : List Ty) (vs : List Value)
    (placed : S.Placed a h.machine) :
    S.Finds h (bindParameters ps types vs) fun _ => True := by
  induction ps generalizing types vs h with
  | nil => exact finds_pure placed trivial
  | cons p ps ih =>
    cases vs with
    | nil => exact finds_pure placed trivial
    | cons v vs =>
      exact finds_bind placed (finds_define _ _ _ _ placed) fun _ k placed _ =>
        ih types.tail vs placed

theorem finds_look_any {α : Type} {act : Eval α} (looks : Looks act)
    (placed : S.Placed a h.machine) : S.Finds h (step act) fun _ => True :=
  finds_step placed (aside_of_looks looks)

theorem aside_print (vs : List Value) : Aside (Eval.print vs) := by
  cases vs with
  | nil => exact fun m => ⟨rfl, rfl⟩
  | cons v others =>
    cases others with
    | cons => exact fun m => ⟨rfl, rfl⟩
    | nil =>
      intro m
      rcases print_one v m with ⟨line, printed⟩ | stopped
      · rw [printed]
        exact ⟨rfl, rfl⟩
      · rw [stopped]
        exact ⟨rfl, rfl⟩

variable (S rule)

structure FindsAt (fuel : Nat) : Prop where
  evaluate : ∀ {a h} e, S.Placed a h.machine → S.Covers a e →
    S.Finds h (evaluate rule fuel e) fun _ => True
  condition : ∀ {a h} e, S.Placed a h.machine → S.Covers a e →
    S.Finds h (condition rule fuel e) fun _ => True
  invoke : ∀ {a h} f vs, S.Placed a h.machine → S.Knows f →
    S.Finds h (invoke rule fuel f vs) fun _ => True
  execute : ∀ {a h} s, S.Placed a h.machine → S.CoversStmt a s →
    S.Finds h (execute rule fuel s) fun _ => True
  assign : ∀ {a h} receiver value, S.Placed a h.machine → S.Covers a receiver → S.Covers a value →
    S.Finds h (assign rule fuel receiver value) fun _ => True
  repeatWhile : ∀ {a h} c body, S.Placed a h.machine → S.Covers a c → S.CoversBlock a body →
    S.Finds h (repeatWhile rule fuel c body) fun _ => True

variable {S rule}

theorem finds_evaluate (ih : S.FindsAt rule fuel) (e : Expr) (placed : S.Placed a h.machine)
    (covers : S.Covers a e) : S.Finds h (evaluate rule (fuel + 1) e) fun _ => True := by
  have yields : ∀ {act : Watched Value}, S.Finds h act (fun _ => True) →
      S.Finds h (yielding e act) fun _ => True := by
    intro act inner
    apply finds_bind placed inner
    intro v k placed _
    exact finds_bind placed (finds_note placed (resolves_other nofun)) fun _ l placed _ =>
      finds_pure placed trivial
  refine yields ?_
  cases e with
  | literal value ty => exact finds_pure placed trivial
  | group inner ty =>
    exact ih.evaluate inner placed fun x member => covers x (Expr.parts_group member)
  | binary op left right ty =>
    have first : S.Covers a left := fun x member => covers x (Expr.parts_left member)
    have second : S.Covers a right := fun x member => covers x (Expr.parts_right member)
    cases op with
    | and =>
      apply finds_bind placed (ih.condition left placed first)
      intro b k placed _
      cases b with
      | true =>
        exact finds_bind placed (ih.condition right placed second) fun b l placed _ =>
          finds_pure placed trivial
      | false => exact finds_pure placed trivial
    | or =>
      apply finds_bind placed (ih.condition left placed first)
      intro b k placed _
      cases b with
      | true => exact finds_pure placed trivial
      | false =>
        exact finds_bind placed (ih.condition right placed second) fun b l placed _ =>
          finds_pure placed trivial
    | _ =>
      apply finds_bind placed (ih.evaluate left placed first)
      intro l k placed _
      exact finds_bind placed (ih.evaluate right placed second) fun r l placed _ =>
        finds_look_any (looks_onHeap _) placed
  | access name record ty =>
    apply finds_bind placed (finds_resolve record name placed)
    intro i k placed _
    exact finds_bind placed (finds_look_any (looks_cell i) placed) fun c l placed _ =>
      finds_pure placed trivial
  | element name index record ty =>
    apply finds_bind placed (finds_resolve record name placed)
    intro i k placed _
    apply finds_bind placed (finds_look_any (looks_cell i) placed)
    intro c k placed _
    apply finds_bind placed (finds_look_any (looks_listOf c) placed)
    intro place k placed _
    apply finds_bind placed
      (ih.evaluate index placed fun x member => covers x (Expr.parts_index member))
    intro v k placed _
    apply finds_bind placed (finds_look_any (looks_elements place) placed)
    intro vs k placed _
    exact finds_bind placed (finds_look_any (looks_position vs.length v) placed) fun i l placed _ =>
      finds_pure placed trivial
  | call name args signature ty =>
    apply finds_bind placed (finds_callableNamed name args.length placed)
    intro f k placed found
    apply finds_bind placed (finds_mapM args placed fun e member k placed =>
      ih.evaluate e placed fun x inside => covers x (Expr.parts_argument member inside))
    intro vs k placed _
    have resolves : S.Resolves ⟨.called (.call name args signature ty) f, k.machine⟩ := by
      rintro _ _ ⟨⟩
      exact ⟨a, placed, covers _ (Expr.mem_parts _), name, args, signature, ty, rfl, found⟩
    apply finds_bind placed (finds_note placed resolves)
    intro _ k placed _
    exact ih.invoke f vs placed (knows_of_found found)
  | list es ty =>
    apply finds_bind placed (finds_mapM es placed fun e member k placed =>
      ih.evaluate e placed fun x inside => covers x (Expr.parts_element member inside))
    intro vs k placed _
    exact finds_step placed fun m => ⟨rfl, rfl⟩

theorem finds_called (ih : S.FindsAt rule fuel) (declaration : Function) (vs : List Value)
    {scope : Nat} (placed : S.Placed a h.machine) (inside : scope < S.table.next)
    (covers : S.CoversBlock scope declaration.body) :
    S.Finds h (do
      let flow ← inChildOf scope do
        bindParameters declaration.parameters (parameterTypes declaration) vs
        sequence (execute rule fuel) declaration.body
      match flow with
      | .returned v => pure v
      | .next => pure Value.nil) fun _ => True := by
  have body : ∀ l, S.Placed scope l.machine → S.Finds l (do
      bindParameters declaration.parameters (parameterTypes declaration) vs
      sequence (execute rule fuel) declaration.body) fun _ => True := by
    intro l placed
    apply finds_bind placed (finds_bindParameters _ _ vs placed)
    intro _ l placed _
    exact finds_sequence _ placed covers fun s k placed covers => ih.execute s placed covers
  apply finds_bind placed (finds_inChildOf placed inside
    (Scopes.liesIn_self placed.quiet inside) body)
  intro flow l placed _
  cases flow <;> exact finds_pure placed trivial

theorem finds_invoke (ih : S.FindsAt rule fuel) (f : Callable) (vs : List Value)
    (placed : S.Placed a h.machine) (knows : S.Knows f) :
    S.Finds h (invoke rule (fuel + 1) f vs) fun _ => True := by
  have resolves : S.Resolves ⟨.invoked f vs, h.machine⟩ := resolves_other nofun
  apply finds_bind placed (finds_note placed resolves)
  intro _ k placed _
  cases f with
  | print => exact finds_step placed (aside_print vs)
  | function declaration scope =>
    obtain ⟨inside, covers⟩ := knows
    refine runs_get ?_
    by_cases alive : k.machine.isAlive scope
    · simp only [alive, Bool.not_true, Bool.false_eq_true, if_false]
      exact finds_called ih declaration vs placed inside covers
    · simp only [alive, Bool.not_false, if_true]
      exact finds_bind placed (finds_look_any (looks_fail _) placed) fun _ l placed _ =>
        finds_called ih declaration vs placed inside covers

theorem finds_block (ih : S.FindsAt rule fuel) (ss : List Stmt) (placed : S.Placed a h.machine)
    (covers : S.CoversBlock a ss) :
    S.Finds h (inChild (sequence (execute rule fuel) ss)) fun _ => True :=
  finds_inChild placed fun _ placed =>
    finds_sequence ss placed covers fun s _ placed covers => ih.execute s placed covers

theorem finds_execute (ih : S.FindsAt rule fuel) (s : Stmt) (placed : S.Placed a h.machine)
    (covers : S.CoversStmt a s) : S.Finds h (execute rule (fuel + 1) s) fun _ => True := by
  have own : ∀ e ∈ s.own, S.Covers a e := covers s s.mem_parts
  cases s with
  | expression e =>
    exact finds_bind placed (ih.evaluate e placed (own e List.mem_cons_self)) fun _ k placed _ =>
      finds_pure placed trivial
  | declaration name typeName value record =>
    have defined : ∀ v k, S.Placed a k.machine →
        S.Finds k (define record name true v >>= fun _ => pure Flow.next) fun _ => True :=
      fun v k placed => finds_bind placed (finds_define record name true v placed)
        fun _ l placed _ => finds_pure placed trivial
    cases value with
    | none => exact defined .nil h placed
    | some e =>
      exact finds_bind placed (ih.evaluate e placed (own e List.mem_cons_self)) fun v k placed _ =>
        defined v k placed
  | assignment receiver value =>
    have both : S.Covers a receiver ∧ S.Covers a value :=
      ⟨own receiver List.mem_cons_self, own value (List.mem_cons_of_mem _ List.mem_cons_self)⟩
    exact finds_bind placed (ih.assign receiver value placed both.1 both.2) fun _ k placed _ =>
      finds_pure placed trivial
  | conditional c whenTrue whenFalse =>
    apply finds_bind placed (ih.condition c placed (own c List.mem_cons_self))
    intro b k placed _
    cases b with
    | true => exact finds_block ih _ placed fun t member => covers t (Stmt.parts_whenTrue member)
    | false => exact finds_block ih _ placed fun t member => covers t (Stmt.parts_whenFalse member)
  | switch c cases =>
    apply finds_bind placed (ih.evaluate c placed (own c List.mem_cons_self))
    intro v k placed _
    refine finds_inChild placed fun l placed => ?_
    apply finds_bind placed (finds_matching v cases placed fun arm member e value k placed =>
      ih.evaluate e placed (own e (Stmt.own_value member value)))
    intro body l placed among
    cases chosen : body <|> Eval.defaultBody cases with
    | none => exact finds_pure placed trivial
    | some ss =>
      obtain ⟨arm, member, rfl⟩ := Eval.mem_of_chosen among chosen
      exact finds_block ih _ placed fun t inside => covers t (Stmt.parts_arm member inside)
  | loop c body =>
    exact ih.repeatWhile c body placed (own c List.mem_cons_self) fun t member =>
      covers t (Stmt.parts_loop member)
  | «return» e =>
    exact finds_bind placed (ih.evaluate e placed (own e List.mem_cons_self)) fun v k placed _ =>
      finds_pure placed trivial

theorem finds_assign (ih : S.FindsAt rule fuel) (receiver value : Expr)
    (placed : S.Placed a h.machine) (coversR : S.Covers a receiver) (coversV : S.Covers a value) :
    S.Finds h (assign rule (fuel + 1) receiver value) fun _ => True := by
  cases receiver with
  | access name record ty =>
    apply finds_bind placed (finds_resolve record name placed)
    intro i k placed _
    apply finds_bind placed (finds_look_any (looks_cell i) placed)
    intro c k placed _
    have stored : ∀ {k : History}, S.Placed a k.machine →
        S.Finds k (evaluate rule fuel value >>= fun v => step (Eval.setCell i v)) fun _ => True :=
      fun placed => finds_bind placed (ih.evaluate value placed coversV) fun v l placed _ =>
        finds_step placed fun m => ⟨rfl, rfl⟩
    cases c.mutable with
    | true => exact stored placed
    | false =>
      exact finds_bind placed (finds_look_any (looks_fail _) placed) fun _ l placed _ =>
        stored placed
  | element name index record ty =>
    apply finds_bind placed (finds_resolve record name placed)
    intro i k placed _
    apply finds_bind placed (finds_look_any (looks_cell i) placed)
    intro c k placed _
    apply finds_bind placed (finds_look_any (looks_listOf c) placed)
    intro place k placed _
    apply finds_bind placed
      (ih.evaluate index placed fun x member => coversR x (Expr.parts_index member))
    intro n k placed _
    apply finds_bind placed (ih.evaluate value placed coversV)
    intro v k placed _
    apply finds_bind placed (finds_look_any (looks_onHeap _) placed)
    intro cyclic k placed _
    have stored : ∀ {k : History}, S.Placed a k.machine → S.Finds k (do
        let vs ← step (Eval.elements place)
        let n ← step (Eval.position vs.length n)
        step (Eval.setElement place n v)) fun _ => True := by
      intro k placed
      apply finds_bind placed (finds_look_any (looks_elements place) placed)
      intro vs k placed _
      exact finds_bind placed (finds_look_any (looks_position vs.length n) placed)
        fun i l placed _ => finds_step placed fun m => ⟨rfl, rfl⟩
    cases cyclic with
    | true =>
      exact finds_bind placed (finds_look_any (looks_fail _) placed) fun _ l placed _ =>
        stored placed
    | false => exact stored placed
  | literal | group | binary | call | list => exact finds_look_any (looks_fail .badReceiver) placed

theorem finds_repeatWhile (ih : S.FindsAt rule fuel) (c : Expr) (body : List Stmt)
    (placed : S.Placed a h.machine) (covers : S.Covers a c) (coversB : S.CoversBlock a body) :
    S.Finds h (repeatWhile rule (fuel + 1) c body) fun _ => True := by
  apply finds_bind placed (ih.condition c placed covers)
  intro b k placed _
  cases b with
  | false => exact finds_pure placed trivial
  | true =>
    apply finds_bind placed (finds_block ih body placed coversB)
    intro flow l placed _
    cases flow with
    | next => exact ih.repeatWhile c body placed covers coversB
    | returned v => exact finds_pure placed trivial

theorem finds_at (S : Stage) (rule : DivisionScale) (fuel : Nat) : S.FindsAt rule fuel := by
  induction fuel with
  | zero =>
    have stopped : ∀ {α : Type} {a : Nat} {h : History}, S.Placed a h.machine →
        S.Finds h (throw .exhausted : Watched α) fun _ => True :=
      fun placed => runs_throw (goes_refl placed.quiet) trivial
    exact ⟨fun _ placed _ => stopped placed, fun _ placed _ => stopped placed,
      fun _ _ placed _ => stopped placed, fun _ placed _ => stopped placed,
      fun _ _ placed _ _ => stopped placed, fun _ _ placed _ _ => stopped placed⟩
  | succ fuel ih =>
    refine ⟨finds_evaluate ih, fun e placed covers => ?_, finds_invoke ih, finds_execute ih,
      finds_assign ih, finds_repeatWhile ih⟩
    exact finds_bind placed (ih.evaluate e placed covers) fun v k placed _ =>
      finds_look_any (looks_boolean v) placed

theorem finds_defineGlobal {g : Global} (placed : S.Placed a h.machine)
    (covers : ∀ e, g.value = some e → S.Covers a e) :
    S.Finds h (defineGlobal rule fuel g) fun _ => True := by
  obtain ⟨name, typeName, mutable, list, value, record⟩ := g
  cases value with
  | some e =>
    exact finds_bind placed ((finds_at S rule fuel).evaluate e placed (covers e rfl))
      fun v k placed _ => finds_define record name mutable v placed
  | none =>
    cases list with
    | true =>
      exact finds_bind placed (finds_step placed fun m => ⟨rfl, rfl⟩)
        fun v k placed _ => finds_define record name mutable v placed
    | false => exact finds_define record name mutable .nil placed

theorem finds_globals {gs : List Global} (placed : S.Placed a h.machine)
    (covers : ∀ g ∈ gs, ∀ e, g.value = some e → S.Covers a e) :
    S.Finds h (gs.forM (defineGlobal rule fuel)) fun _ => True := by
  induction gs generalizing h with
  | nil => exact finds_pure placed trivial
  | cons g gs ih =>
    apply finds_bind placed (finds_defineGlobal placed (covers g List.mem_cons_self))
    intro _ k placed _
    exact ih placed fun d member => covers d (List.mem_cons_of_mem g member)

theorem finds_main (placed : S.Placed a h.machine) :
    S.Finds h (match h.machine.scopes.findFunction? h.machine.current "main" 0 with
      | none => step (Eval.fail .mainMissing)
      | some main => do
        let v ← invoke rule fuel main []
        step (Eval.mainResult v)) fun _ => True := by
  rw [Scopes.findFunction?_liesIn S.founded placed.quiet placed.inside placed.lies]
  cases found : S.table.findFunction? a "main" 0 with
  | none => exact finds_look_any (looks_fail _) placed
  | some main =>
    have called := (finds_at S rule fuel).invoke main [] placed (knows_of_found found)
    exact finds_bind placed called fun v k placed _ => finds_look_any (looks_mainResult v) placed

end Plc.Stage

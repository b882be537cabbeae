import Plc.Proofs.Operands
import Plc.Proofs.Renaming

/-!
Running renamed programs. On the renamed machine a renamed program does what the program does on the
machine itself: the cells, the lists and the lines are the same but for the names of the cells, and
an error names what is renamed. All that is asked of a machine is that its names mean cells it has.
-/

namespace Plc

def Cell.rename (r : Renaming) (c : Cell) : Cell := { c with name := r.ofVariable c.name }

def Callable.rename (r : Renaming) : Callable → Callable
  | .print => .print
  | .function declaration scope => .function (declaration.rename r) scope

namespace Machine

def rename (r : Renaming) (m : Machine) : Machine :=
  { m with
    scopes := m.scopes.rename r id (Callable.rename r)
    cells := m.cells.map (Cell.rename r) }

def Backed (m : Machine) : Prop :=
  ∀ i s, m.scopes.scope? i = some s → ∀ b ∈ s.bindings, b.2 < m.cells.size

def carry (r : Renaming) : Carry Halt Machine := ⟨Halt.rename r, rename r, Backed⟩

variable {m : Machine}

theorem isAlive_rename (r : Renaming) (m : Machine) (scope : Nat) :
    (m.rename r).isAlive scope = m.isAlive scope := by
  simp only [isAlive, rename, Scopes.path_rename]

theorem cell?_rename (r : Renaming) (m : Machine) (name : String) :
    (m.rename r).cell? (r.ofVariable name) = m.cell? name := by
  simp only [cell?, rename, Scopes.findVariable?_rename, Option.map_id_fun, id]

theorem backed_empty : empty.Backed := by
  intro i s found
  have all : s ∈ (#[⟨[], [], []⟩] : Array (Scope Nat Callable)) := Array.mem_of_getElem? found
  obtain rfl : s = ⟨[], [], []⟩ := by simpa using all
  simp

theorem backed_setting (backed : m.Backed) (i : Nat) (f : Cell → Cell) :
    Backed { m with cells := m.cells.modify i f } := by
  intro j s found b member
  rw [Array.size_modify]
  exact backed j s found b member

theorem backed_addChild (backed : m.Backed) (parent current : Nat) :
    Backed { m with scopes := m.scopes.addChild parent, current } := by
  intro i s found
  rw [Scopes.scope?_addChild] at found
  split at found
  · cases found
    simp
  · exact backed i s found

/-- A name for a cell that there is. -/
theorem backed_naming (backed : m.Backed) (i : Nat) (name : String) {place : Nat}
    (inside : place < m.cells.size) :
    Backed { m with scopes := m.scopes.bindVariable i name place } := by
  intro j s found b member
  dsimp only at found
  rw [Scopes.scope?_bindVariable] at found
  split at found
  · obtain ⟨old, known, rfl⟩ := Option.map_eq_some_iff.mp found
    rcases List.mem_cons.mp member with rfl | member
    · exact inside
    · exact backed j old known b member
  · exact backed j s found b member

theorem backed_pushing (backed : m.Backed) (c : Cell) :
    Backed { m with cells := m.cells.push c } := by
  intro i s found b member
  rw [Array.size_push]
  exact Nat.lt_succ_of_lt (backed i s found b member)

theorem backed_defining (backed : m.Backed) (name : String) (c : Cell) :
    Backed { m with
      scopes := m.scopes.bindVariable m.current name m.cells.size
      cells := m.cells.push c } :=
  backed_naming (backed_pushing backed c) m.current name (by simp)

theorem backed_bindFunction (backed : m.Backed) (j : Nat) (name : String) (arity : Nat)
    (f : Callable) : Backed { m with scopes := m.scopes.bindFunction j name arity f } := by
  intro i s found b member
  dsimp only at found
  rw [Scopes.scope?_bindFunction] at found
  split at found
  · obtain ⟨old, known, rfl⟩ := Option.map_eq_some_iff.mp found
    exact backed i old known b member
  · exact backed i s found b member

theorem lt_size_of_found (backed : m.Backed) {i place : Nat} {name : String}
    (found : m.scopes.findVariable? i name = some place) : place < m.cells.size := by
  obtain ⟨j, -, own⟩ := List.exists_of_findSome?_eq_some found
  obtain ⟨s, known, bound⟩ := Option.bind_eq_some_iff.mp own
  obtain ⟨front, behind, split, -⟩ := List.lookup_eq_some_iff.mp bound
  exact backed j s known (name, place) (by simp [split])

theorem cell_of_cell? (backed : m.Backed) {name : String} {i : Nat}
    (found : m.cell? name = some i) : ∃ c, m.cells[i]? = some c := by
  have inside : i < m.cells.size := lt_size_of_found backed found
  exact ⟨m.cells[i], Array.getElem?_eq_getElem inside⟩

end Machine

namespace Eval

variable {r : Renaming} {α β : Type}

theorem carries_fail {value : α → β} {e e' : RuntimeError} (same : e' = e.rename r) :
    Carries (Machine.carry r) value (fail e) (fail e') :=
  carries_throw (congrArg Halt.error same)

theorem inChildOf_eq (parent : Nat) (act : Eval α) : inChildOf parent act = bracketed
    (fun m => { m with scopes := m.scopes.addChild parent, current := m.scopes.next })
    (fun m n => { n with current := m.current }) act := by
  funext m
  unfold inChildOf inScope bracketed
  dsimp only
  cases act { m with scopes := m.scopes.addChild parent, current := m.scopes.next } <;> rfl

theorem carries_inChildOf {value : α → β} (parent : Nat) {act : Eval α} {image : Eval β}
    (inner : Carries (Machine.carry r) value act image) :
    Carries (Machine.carry r) value (inChildOf parent act) (inChildOf parent image) := by
  rw [inChildOf_eq, inChildOf_eq]
  refine carries_bracketed inner (fun m backed => ⟨?_, ?_⟩) fun _ _ backed => ⟨backed, rfl⟩
  · exact Machine.backed_addChild backed parent m.scopes.next
  · simp only [Machine.carry, Machine.rename, Scopes.rename_addChild, Scopes.next_rename]

theorem carries_inChild {value : α → β} {act : Eval α} {image : Eval β}
    (inner : Carries (Machine.carry r) value act image) :
    Carries (Machine.carry r) value (inChild act) (inChild image) :=
  fun m backed => carries_inChildOf m.current inner m backed

theorem carries_define (name : String) (mutable : Bool) (v : Value) :
    Carries (Machine.carry r) id (define name mutable v)
      (define (r.ofVariable name) mutable v) := by
  intro m backed
  unfold define
  simp only [Machine.carry, Machine.rename, Scopes.variableClash?_rename]
  cases m.scopes.variableClash? m.current name with
  | some d => exact .error backed
  | none =>
    have bound := m.scopes.rename_bindVariable r id (Callable.rename r) m.current name m.cells.size
    refine Carry.results_ok (Machine.backed_defining backed name ⟨name, mutable, v⟩) ?_
    simp only [Machine.rename, bound, Array.map_push, Array.size_map]
    rfl

theorem carries_defineFunction (f : Function) :
    Carries (Machine.carry r) id (defineFunction f) (defineFunction (f.rename r)) := by
  intro m backed
  have arity : (f.rename r).arity = f.arity := List.length_map ..
  have name : (f.rename r).name = r.ofFunction f.name := rfl
  unfold defineFunction
  rw [arity, name]
  simp only [Machine.carry, Machine.rename, Scopes.functionClash?_rename]
  cases m.scopes.functionClash? m.current f.name f.arity with
  | some d => exact .error backed
  | none =>
    have bound := m.scopes.rename_bindFunction r id (Callable.rename r) m.current f.name f.arity
      (.function f m.current)
    refine Carry.results_ok (Machine.backed_bindFunction backed _ _ _ _) ?_
    simp only [Machine.rename, bound]
    rfl

theorem carries_read {value : α → β} (name : String) {next : Nat → Cell → Eval α}
    {next' : Nat → Cell → Eval β}
    (rest : ∀ i c, Carries (Machine.carry r) value (next i c) (next' i (c.rename r))) :
    Carries (Machine.carry r) value (cellNamed name >>= fun i => cell i >>= next i)
      (cellNamed (r.ofVariable name) >>= fun i => cell i >>= next' i) := by
  intro m backed
  show Carry.Results _ _ _ ((cellNamed _ >>= _) (m.rename r))
  simp only [bind, EStateM.bind, cellNamed, cell, Machine.cell?_rename]
  cases known : m.cell? name with
  | none => exact .error backed
  | some i =>
    obtain ⟨c, there⟩ := Machine.cell_of_cell? backed known
    have renamed : (m.rename r).cells[i]? = some (c.rename r) := by
      simp only [Machine.rename, Array.getElem?_map, there, Option.map_some]
    simp only [there, renamed, Option.getD_some]
    exact rest i c m backed

theorem carries_callableNamed (name : String) (arity : Nat) :
    Carries (Machine.carry r) (Callable.rename r) (callableNamed name arity)
      (callableNamed (r.ofFunction name) arity) := by
  intro m backed
  unfold callableNamed
  simp only [Machine.carry, Machine.rename, Scopes.findFunction?_rename]
  cases m.scopes.findFunction? m.current name arity with
  | some f => exact .ok backed
  | none => exact .error backed

theorem carries_setCell (i : Nat) (v : Value) :
    Carries (Machine.carry r) id (setCell i v) (setCell i v) := by
  intro m backed
  refine Carry.results_ok (Machine.backed_setting backed i _) ?_
  have written := Scopes.map_modify (f := Cell.rename r) (h := fun c => { c with value := v })
    (k := fun c => { c with value := v }) (fun _ => rfl) m.cells i
  simp only [Machine.carry, Machine.rename, written]

theorem carries_newList (vs : List Value) :
    Carries (Machine.carry r) id (newList vs) (newList vs) := fun _ backed => .ok backed

theorem carries_elements (place : Nat) :
    Carries (Machine.carry r) id (elements place) (elements place) := fun _ backed => .ok backed

theorem carries_setElement (place index : Nat) (v : Value) :
    Carries (Machine.carry r) id (setElement place index v) (setElement place index v) :=
  fun _ backed => .ok backed

theorem carries_printLine (line : String) :
    Carries (Machine.carry r) id (printLine line) (printLine line) := fun _ backed => .ok backed

/-- What is computed from the heap alone, with errors that name nothing. -/
theorem carries_onHeap {f : Heap → Except Halt α}
    (nameless : ∀ h e, f h = .error e → e.rename r = e) :
    Carries (Machine.carry r) id (onHeap f) (onHeap f) := by
  intro m backed
  show Carry.Results _ _ (lift (f m.heap) m) (lift (f m.heap) (m.rename r))
  cases ended : f m.heap with
  | ok a => exact .ok backed
  | error e => exact Carry.results_error backed (nameless m.heap e ended).symm

theorem carries_listOf (c : Cell) :
    Carries (Machine.carry r) id (listOf c) (listOf (c.rename r)) := by
  have value : (c.rename r).value = c.value := rfl
  unfold listOf
  rw [value]
  cases c.value with
  | list place => exact carries_pure rfl
  | _ => exact carries_fail rfl

theorem carries_position (length : Nat) (v : Value) :
    Carries (Machine.carry r) id (position length v) (position length v) := by
  cases v with
  | integer n => exact carries_ite (carries_pure rfl) (carries_fail rfl)
  | _ => exact carries_fail rfl

theorem carries_boolean (v : Value) :
    Carries (Machine.carry r) id (boolean v) (boolean v) := by
  cases v with
  | boolean b => exact carries_pure rfl
  | _ => exact carries_fail rfl

theorem carries_mainResult (v : Value) :
    Carries (Machine.carry r) id (mainResult v) (mainResult v) := by
  cases v with
  | integer n => exact carries_pure rfl
  | _ => exact carries_fail rfl

theorem carries_bindParameters (ps : List Parameter) (vs : List Value) :
    Carries (Machine.carry r) id (bindParameters ps vs)
      (bindParameters (ps.map (Parameter.rename r)) vs) := by
  induction ps generalizing vs with
  | nil => exact carries_pure rfl
  | cons p ps ih =>
    cases vs with
    | nil => exact carries_pure rfl
    | cons v vs => exact carries_bind (carries_define p.name true v) fun _ => ih vs

theorem nameless_text (h : Heap) (v : Value) (e : Halt) (failed : Operation.text h v = .error e) :
    e.rename r = e := by
  unfold Operation.text at failed
  split at failed <;> cases failed
  rfl

theorem nameless_equal (h : Heap) (v w : Value) (e : Halt)
    (failed : Operation.equal h v w = .error e) : e.rename r = e := by
  unfold Operation.equal at failed
  split at failed <;> cases failed
  rfl

theorem nameless_closesCycle (h : Heap) (place : Nat) (v : Value) (e : Halt)
    (failed : Operation.closesCycle h place v = .error e) : e.rename r = e := by
  unfold Operation.closesCycle at failed
  split at failed <;> cases failed
  rfl

theorem carries_apply (rule : DivisionScale) {op : Operator} (strict : op.IsStrict) (v w : Value) :
    Carries (Machine.carry r) id (onHeap fun h => Operation.apply rule h op v w)
      (onHeap fun h => Operation.apply rule h op v w) := by
  refine carries_onHeap fun h e failed => ?_
  have right : Operation.RightOrStopped op v.kind w.kind (Operation.apply rule h op v w) :=
    Operation.apply_right strict v w
  rw [failed] at right
  cases e with
  | overflow | exhausted => rfl
  | error e =>
    rcases right with arithmetic | ⟨rfl, _⟩
    · cases e <;> first | rfl | exact arithmetic.elim
    · rfl

theorem carries_print (vs : List Value) :
    Carries (Machine.carry r) id (print vs) (print vs) := by
  unfold print
  split
  · refine carries_bind (carries_onHeap fun h => nameless_text h _) fun line => ?_
    exact carries_bind (carries_printLine line) fun _ => carries_pure rfl
  · exact carries_fail rfl

theorem carries_sequence {act : Stmt → Eval Flow}
    (each : ∀ s, Carries (Machine.carry r) id (act s) (act (s.rename r))) (ss : List Stmt) :
    Carries (Machine.carry r) id (sequence act ss) (sequence act (Stmt.renameAll r ss)) := by
  induction ss with
  | nil => exact carries_pure rfl
  | cons s ss ih =>
    refine carries_bind (each s) fun flow => ?_
    cases flow with
    | next => exact ih
    | returned v => exact carries_pure rfl

theorem carries_matching {act : Expr → Eval Value}
    (each : ∀ e, Carries (Machine.carry r) id (act e) (act (e.rename r))) (v : Value)
    (arms : List Case) :
    Carries (Machine.carry r) (Option.map (Stmt.renameAll r)) (matching act v arms)
      (matching act v (Case.renameAll r arms)) := by
  induction arms with
  | nil => exact carries_pure rfl
  | cons arm arms ih =>
    obtain ⟨value, body⟩ := arm
    cases value with
    | none => exact ih
    | some e =>
      refine carries_bind (each e) fun w => ?_
      refine carries_bind (carries_onHeap fun h => nameless_equal h w v) fun same => ?_
      cases same with
      | true => exact carries_pure rfl
      | false => exact ih

theorem defaultBody_renameAll (arms : List Case) :
    defaultBody (Case.renameAll r arms) = (defaultBody arms).map (Stmt.renameAll r) := by
  induction arms with
  | nil => rfl
  | cons arm arms ih =>
    obtain ⟨value, body⟩ := arm
    cases value with
    | none => rfl
    | some e => exact ih

section

variable (rule : DivisionScale) (r)

structure RenamedAt (fuel : Nat) : Prop where
  evaluate : ∀ e, Carries (Machine.carry r) id (evaluate rule fuel e)
    (evaluate rule fuel (e.rename r))
  condition : ∀ e, Carries (Machine.carry r) id (condition rule fuel e)
    (condition rule fuel (e.rename r))
  invoke : ∀ f vs, Carries (Machine.carry r) id (invoke rule fuel f vs)
    (invoke rule fuel (f.rename r) vs)
  execute : ∀ s, Carries (Machine.carry r) id (execute rule fuel s)
    (execute rule fuel (s.rename r))
  assign : ∀ receiver value, Carries (Machine.carry r) id (assign rule fuel receiver value)
    (assign rule fuel (receiver.rename r) (value.rename r))
  repeatWhile : ∀ c body, Carries (Machine.carry r) id (repeatWhile rule fuel c body)
    (repeatWhile rule fuel (c.rename r) (Stmt.renameAll r body))

end

variable {rule : DivisionScale} {fuel : Nat}

theorem carries_values (ih : RenamedAt r rule fuel) (es : List Expr) :
    Carries (Machine.carry r) id (es.mapM (evaluate rule fuel))
      ((Expr.renameAll r es).mapM (evaluate rule fuel)) := by
  have values := carries_mapM es ih.evaluate
  rwa [← Expr.renameAll_eq, List.map_id_fun] at values

theorem carries_evaluate (ih : RenamedAt r rule fuel) (e : Expr) :
    Carries (Machine.carry r) id (evaluate rule (fuel + 1) e)
      (evaluate rule (fuel + 1) (e.rename r)) := by
  cases e with
  | literal value slot => exact carries_pure rfl
  | group inner slot => exact ih.evaluate inner
  | binary op left right slot =>
    cases op with
    | and =>
      refine carries_bind (ih.condition left) fun b => ?_
      cases b with
      | true => exact carries_bind (ih.condition right) fun b => carries_pure rfl
      | false => exact carries_pure rfl
    | or =>
      refine carries_bind (ih.condition left) fun b => ?_
      cases b with
      | true => exact carries_pure rfl
      | false => exact carries_bind (ih.condition right) fun b => carries_pure rfl
    | _ =>
      refine carries_bind (ih.evaluate left) fun v =>
        carries_bind (ih.evaluate right) fun w => carries_apply rule ?_ v w
      trivial
  | access name record slot => exact carries_read name fun i c => carries_pure rfl
  | element name index record slot =>
    refine carries_read name fun i c => carries_bind (carries_listOf c) fun place => ?_
    refine carries_bind (ih.evaluate index) fun v => ?_
    refine carries_bind (carries_elements place) fun vs => ?_
    exact carries_bind (carries_position vs.length v) fun k => carries_pure rfl
  | call name args signature slot =>
    have arity : (Expr.renameAll r args).length = args.length := by
      rw [Expr.renameAll_eq, List.length_map]
    show Carries _ _ (callableNamed name args.length >>= _)
      (callableNamed (r.ofFunction name) (Expr.renameAll r args).length >>= _)
    rw [arity]
    refine carries_bind (carries_callableNamed name args.length) fun f => ?_
    exact carries_bind (carries_values ih args) fun vs => ih.invoke f vs
  | list es slot => exact carries_bind (carries_values ih es) fun vs => carries_newList vs

theorem carries_called (ih : RenamedAt r rule fuel) (d : Function) (scope : Nat)
    (vs : List Value) : Carries (Machine.carry r) id
      (do
        let flow ← inChildOf scope do
          bindParameters d.parameters vs
          sequence (execute rule fuel) d.body
        match flow with
        | .returned v => pure v
        | .next => pure .nil)
      (do
        let flow ← inChildOf scope do
          bindParameters (d.rename r).parameters vs
          sequence (execute rule fuel) (d.rename r).body
        match flow with
        | .returned v => pure v
        | .next => pure .nil) := by
  have body : Carries (Machine.carry r) id
      (bindParameters d.parameters vs >>= fun _ => sequence (execute rule fuel) d.body)
      (bindParameters (d.rename r).parameters vs >>= fun _ =>
        sequence (execute rule fuel) (d.rename r).body) :=
    carries_bind (carries_bindParameters d.parameters vs) fun _ =>
      carries_sequence ih.execute d.body
  refine carries_bind (carries_inChildOf scope body) fun flow => ?_
  cases flow with
  | returned v => exact carries_pure rfl
  | next => exact carries_pure rfl

theorem carries_invoke (ih : RenamedAt r rule fuel) (f : Callable) (vs : List Value) :
    Carries (Machine.carry r) id (invoke rule (fuel + 1) f vs)
      (invoke rule (fuel + 1) (f.rename r) vs) := by
  cases f with
  | print => exact carries_print vs
  | function d scope =>
    refine carries_get fun m => carries_guard ?_ rfl (carries_called ih d scope vs)
    rw [show ((Machine.carry r).state m).isAlive scope = m.isAlive scope from
      m.isAlive_rename r scope]

theorem carries_execute (ih : RenamedAt r rule fuel) (s : Stmt) :
    Carries (Machine.carry r) id (execute rule (fuel + 1) s)
      (execute rule (fuel + 1) (s.rename r)) := by
  cases s with
  | expression e => exact carries_bind (ih.evaluate e) fun _ => carries_pure rfl
  | declaration name typeName value record =>
    have defined (v : Value) : Carries (Machine.carry r) id
        (define name true v >>= fun _ => pure Flow.next)
        (define (r.ofVariable name) true v >>= fun _ => pure Flow.next) :=
      carries_bind (carries_define name true v) fun _ => carries_pure rfl
    have missing : Carries (Machine.carry r) id (pure Value.nil) (pure Value.nil) :=
      carries_pure rfl
    cases value with
    | none => exact carries_bind missing defined
    | some e => exact carries_bind (ih.evaluate e) defined
  | assignment receiver value =>
    exact carries_bind (ih.assign receiver value) fun _ => carries_pure rfl
  | conditional c whenTrue whenFalse =>
    refine carries_bind (ih.condition c) fun b => carries_inChild ?_
    cases b with
    | true => exact carries_sequence ih.execute whenTrue
    | false => exact carries_sequence ih.execute whenFalse
  | switch c arms =>
    refine carries_bind (ih.evaluate c) fun v => carries_inChild ?_
    refine carries_bind (carries_matching ih.evaluate v arms) fun body => ?_
    rw [defaultBody_renameAll]
    cases body with
    | some body => exact carries_inChild (carries_sequence ih.execute body)
    | none =>
      cases defaultBody arms with
      | some body => exact carries_inChild (carries_sequence ih.execute body)
      | none => exact carries_pure rfl
  | loop c body => exact ih.repeatWhile c body
  | «return» e => exact carries_bind (ih.evaluate e) fun v => carries_pure rfl

theorem carries_assign (ih : RenamedAt r rule fuel) (receiver value : Expr) :
    Carries (Machine.carry r) id (assign rule (fuel + 1) receiver value)
      (assign rule (fuel + 1) (receiver.rename r) (value.rename r)) := by
  cases receiver with
  | access name record slot =>
    refine carries_read name fun i c => carries_guard .rfl rfl ?_
    exact carries_bind (ih.evaluate value) fun v => carries_setCell i v
  | element name index record slot =>
    refine carries_read name fun i c => carries_bind (carries_listOf c) fun place => ?_
    refine carries_bind (ih.evaluate index) fun k => ?_
    refine carries_bind (ih.evaluate value) fun v => ?_
    refine carries_bind (carries_onHeap fun h => nameless_closesCycle h place v) fun cyclic => ?_
    refine carries_guard .rfl rfl ?_
    refine carries_bind (carries_elements place) fun vs => ?_
    exact carries_bind (carries_position vs.length k) fun k => carries_setElement place k v
  | _ => exact carries_fail rfl

theorem carries_repeatWhile (ih : RenamedAt r rule fuel) (c : Expr) (body : List Stmt) :
    Carries (Machine.carry r) id (repeatWhile rule (fuel + 1) c body)
      (repeatWhile rule (fuel + 1) (c.rename r) (Stmt.renameAll r body)) := by
  refine carries_bind (ih.condition c) fun b => ?_
  cases b with
  | false => exact carries_pure rfl
  | true =>
    refine carries_bind (carries_inChild (carries_sequence ih.execute body)) fun flow => ?_
    cases flow with
    | next => exact ih.repeatWhile c body
    | returned v => exact carries_pure rfl

theorem renamed_at (r : Renaming) (rule : DivisionScale) (fuel : Nat) : RenamedAt r rule fuel := by
  induction fuel with
  | zero =>
    constructor <;> intros <;> exact carries_throw rfl
  | succ fuel ih =>
    exact ⟨carries_evaluate ih, fun e => carries_bind (ih.evaluate e) carries_boolean,
      carries_invoke ih, carries_execute ih, carries_assign ih, carries_repeatWhile ih⟩

theorem carries_defineGlobal (g : Global) :
    Carries (Machine.carry r) id (defineGlobal rule fuel g)
      (defineGlobal rule fuel (g.rename r)) := by
  obtain ⟨name, typeName, mutable, list, value, record⟩ := g
  have defined (v : Value) : Carries (Machine.carry r) id (define name mutable v)
      (define (r.ofVariable name) mutable v) := carries_define name mutable v
  cases value with
  | some e => exact carries_bind ((renamed_at r rule fuel).evaluate e) defined
  | none =>
    cases list with
    | true => exact carries_bind (carries_newList []) defined
    | false =>
      have missing : Carries (Machine.carry r) id (pure Value.nil) (pure Value.nil) :=
        carries_pure rfl
      exact carries_bind missing defined

theorem carries_main (r : Renaming) (rule : DivisionScale) (fuel : Nat) (main : Option Callable) :
    Carries (Machine.carry r) id
      (match main with
        | none => fail .mainMissing
        | some main => invoke rule fuel main [] >>= mainResult)
      (match main.map (Callable.rename r) with
        | none => fail .mainMissing
        | some main => invoke rule fuel main [] >>= mainResult) := by
  cases main with
  | none => exact carries_fail rfl
  | some main => exact carries_bind ((renamed_at r rule fuel).invoke main []) carries_mainResult

theorem carries_program (p : Program) :
    Carries (Machine.carry r) id (program rule fuel p) (program rule fuel (p.rename r)) := by
  refine carries_bind (carries_forM p.globals carries_defineGlobal) fun _ => ?_
  refine carries_bind (carries_forM p.functions carries_defineFunction) fun _ => ?_
  refine carries_get fun m => carries_get fun n => ?_
  have found := m.scopes.findFunction?_rename r id (Callable.rename r) n.current "main" 0
  rw [r.main] at found
  have main := carries_main r rule fuel (m.scopes.findFunction? n.current "main" 0)
  rw [← found] at main
  exact main

end Eval

end Plc

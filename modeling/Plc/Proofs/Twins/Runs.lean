import Plc.Program.Chain
import Plc.Proofs.Parts
import Plc.Proofs.Twins

/-!
What two machines that are alike do alike. Expressions need no more than that names in use mean the
same; statements define variables as well, in scopes that are new on both sides. A called function
runs where all names mean the same, so that in it no name is out of use.
-/

namespace Plc

theorem Expr.allVariables_eq (es : List Expr) :
    Expr.allVariables es = es.flatMap Expr.variables := by
  induction es with
  | nil => rfl
  | cons e es ih => rw [Expr.allVariables, List.flatMap_cons, ih]

theorem Stmt.allVariables_eq (ss : List Stmt) :
    Stmt.allVariables ss = ss.flatMap Stmt.variables := by
  induction ss with
  | nil => rfl
  | cons s ss ih => rw [Stmt.allVariables, List.flatMap_cons, ih]

theorem Case.allVariables_eq (arms : List Case) :
    Case.allVariables arms = arms.flatMap Case.variables := by
  induction arms with
  | nil => rfl
  | cons arm arms ih => rw [Case.allVariables, List.flatMap_cons, ih]

namespace Eval

variable {start : Machine} {gap : Gap} {view : View} {l r : Machine} {α : Type}

/-- An action that keeps what is asked of expressions keeps blocks too: seen as one, it leaves all
scopes that there are. -/
theorem keeps_block {act act' : Eval α} (all : ∀ other : View, other.known = view.known →
    Keeps (Twins start gap other) act act') : Keeps (Block start gap view) act act' := by
  intro l r block
  have inner := all { view with left := l.scopes, right := r.scopes } rfl l r
    (twins_narrow block.toTwins)
  exact alike_imp inner fun _ _ => block_widen block

theorem alike_inChildOf {parent parent' : Nat} {known : String → Prop} {act act' : Eval α}
    (twins : Twins start gap view l r)
    (inner : Alike (Block start gap ({ view with known }.inside l r)) (act (l.entered parent))
      (act' (r.entered parent'))) :
    Alike (Twins start gap view) (inChildOf parent act l) (inChildOf parent' act' r) := by
  rw [inChildOf_entered, inChildOf_entered]
  exact alike_back inner fun _ _ after => twins_back twins after.toAligned

theorem keeps_inChild {act act' : Eval α} (body : ∀ other : View, other.known = view.known →
    Keeps (Block start gap other) act act') :
    Keeps (Twins start gap view) (inChild act) (inChild act') := by
  intro l r twins
  have entered : Block start gap (view.inside l r) (l.entered l.current) (r.entered r.current) :=
    block_entered twins twins.left.here twins.right.here twins.names twins.functions
  exact alike_inChildOf twins (body (view.inside l r) rfl _ _ entered)

/-- In the scopes of `start` names mean the same for both machines, as none of its cells is behind
the gap. -/
theorem keeps_call (regular : start.Regular) {scope : Nat} (inside : scope < start.scopes.next)
    {act act' : Eval α} (body : ∀ other : View, (∀ x, other.known x) →
      Keeps (Block start gap other) act act') :
    Keeps (Twins start gap view) (inChildOf scope act) (inChildOf scope act') := by
  intro l r twins
  have left := twins.left.started
  have right := twins.right.started
  have names : ∀ x, True →
      r.scopes.findVariable? scope x = (l.scopes.findVariable? scope x).map gap.shift := by
    intro x _
    rw [Scopes.findVariable?_of_extends regular.founded left inside,
      Scopes.findVariable?_of_extends regular.founded right inside]
    cases found : start.scopes.findVariable? scope x with
    | none => rfl
    | some i =>
      have backed : i < start.cells.size := Machine.lt_size_of_found regular.backed found
      rw [Option.map_some, Gap.shift_of_lt (Nat.lt_of_lt_of_le backed twins.old)]
  have functions : ∃ base < start.scopes.next, ∀ name arity,
      l.scopes.findFunction? scope name arity = start.scopes.findFunction? base name arity ∧
        r.scopes.findFunction? scope name arity = start.scopes.findFunction? base name arity :=
    ⟨scope, inside, fun name arity =>
      ⟨Scopes.findFunction?_of_extends regular.founded left inside name arity,
        Scopes.findFunction?_of_extends regular.founded right inside name arity⟩⟩
  have entered := block_entered twins (Nat.lt_of_lt_of_le inside left.next)
    (Nat.lt_of_lt_of_le inside right.next) names functions
  exact alike_inChildOf twins (body _ (fun _ => trivial) _ _ entered)

theorem keeps_define {name : String} (known : view.known name) (mutable : Bool) (v : Value) :
    Keeps (Block start gap view) (define name mutable v) (define name mutable v) := by
  intro l r block
  have own := block.own name known
  unfold define Scopes.variableClash?
  rw [own]
  cases (l.scopes.ownVariable? l.current name).isSome with
  | true => exact .error block
  | false => exact .ok (block_defining block name mutable v)

/-- The cell that a name means, and what follows. -/
theorem keeps_read {name : String} (known : view.known name) {next next' : Nat → Cell → Eval α}
    (rest : ∀ i c, Keeps (Twins start gap view) (next i c) (next' (gap.shift i) c)) :
    Keeps (Twins start gap view) (cellNamed name >>= fun i => cell i >>= next i)
      (cellNamed name >>= fun i => cell i >>= next' i) := by
  intro l r twins
  have same := twins.names name known
  simp only [bind, EStateM.bind, cellNamed, cell, same]
  cases l.cell? name with
  | none => exact .error twins
  | some i =>
    simp only [Option.map_some, twins.cells.own i]
    exact rest i _ l r twins

theorem keeps_setCell (i : Nat) (v : Value) :
    Keeps (Twins start gap view) (setCell i v) (setCell (gap.shift i) v) := by
  intro l r twins
  have aligned := aligned_setting twins.toAligned i v
  exact .ok { aligned with names := twins.names, functions := twins.functions }

theorem keeps_onHeap (f : Heap → Except Halt α) :
    Keeps (Twins start gap view) (onHeap f) (onHeap f) := by
  intro l r twins
  show Alike _ (lift (f l.heap) l) (lift (f r.heap) r)
  rw [twins.heap]
  cases f l.heap with
  | ok a => exact .ok twins
  | error e => exact .error twins

theorem keeps_elements (place : Nat) :
    Keeps (Twins start gap view) (elements place) (elements place) := by
  intro l r twins
  unfold elements
  rw [twins.heap]
  exact .ok twins

/-- Lists and lines have no part in what names mean. -/
theorem twins_aside (twins : Twins start gap view l r) {heap heap' : Heap}
    {output output' : Array String} (sameHeap : heap' = heap) (sameOutput : output' = output) :
    Twins start gap view { l with heap, output } { r with heap := heap', output := output' } where
  left := { twins.left with }
  right := { twins.right with }
  here := twins.here
  there := twins.there
  heap := sameHeap
  output := sameOutput
  backed := twins.backed
  cells := twins.cells
  old := twins.old
  names := twins.names
  functions := twins.functions

theorem keeps_newList (vs : List Value) :
    Keeps (Twins start gap view) (newList vs) (newList vs) := by
  intro l r twins
  unfold newList
  rw [twins.heap]
  exact .ok (twins_aside twins rfl twins.output)

theorem keeps_setElement (place index : Nat) (v : Value) :
    Keeps (Twins start gap view) (setElement place index v) (setElement place index v) :=
  fun _ _ twins => .ok (twins_aside twins (by rw [twins.heap]) twins.output)

theorem keeps_printLine (line : String) :
    Keeps (Twins start gap view) (printLine line) (printLine line) :=
  fun _ _ twins => .ok (twins_aside twins twins.heap (by rw [twins.output]))

theorem keeps_callableNamed (regular : start.Regular) (name : String) (arity : Nat)
    {next next' : Callable → Eval α}
    (rest : ∀ f, f.Below start.scopes.next → Keeps (Twins start gap view) (next f) (next' f)) :
    Keeps (Twins start gap view) (callableNamed name arity >>= next)
      (callableNamed name arity >>= next') := by
  intro l r twins
  obtain ⟨base, -, same⟩ := twins.functions
  obtain ⟨left, right⟩ := same name arity
  simp only [bind, EStateM.bind, callableNamed, left, right]
  cases found : start.scopes.findFunction? base name arity with
  | none => exact .error twins
  | some f => exact rest f (Machine.below_of_found regular found) l r twins

theorem isAlive_same (regular : start.Regular) (twins : Twins start gap view l r) (scope : Nat) :
    r.isAlive scope = l.isAlive scope := by
  have path {m : Machine} {kept : Scopes Nat Callable} (since : start.Since kept m) :
      m.scopes.path m.home = start.scopes.path start.home := by
    rw [since.home]
    exact Scopes.path_of_later (Scopes.later_of_extends since.started regular.home) regular.home
  unfold Machine.isAlive
  rw [path twins.left, path twins.right]

/-- Whether the scope of a function is still there, and what follows. -/
theorem keeps_alive (regular : start.Regular) (scope : Nat) {e : RuntimeError} {β : Type}
    {next next' : β → Eval α} {rest rest' : Eval α}
    (other : Keeps (Twins start gap view) rest rest') :
    Keeps (Twins start gap view)
      (get >>= fun m => if !m.isAlive scope then fail e >>= next else rest)
      (get >>= fun m => if !m.isAlive scope then fail e >>= next' else rest') := by
  intro l r twins
  show Alike _ ((if !l.isAlive scope then fail e >>= next else rest) l)
    ((if !r.isAlive scope then fail e >>= next' else rest') r)
  rw [isAlive_same regular twins]
  exact keeps_guard e other l r twins

theorem keeps_listOf (c : Cell) : Keeps (Twins start gap view) (listOf c) (listOf c) := by
  unfold listOf
  cases c.value with
  | list place => exact keeps_pure place
  | _ => exact keeps_fail _

theorem keeps_position (length : Nat) (v : Value) :
    Keeps (Twins start gap view) (position length v) (position length v) := by
  cases v with
  | integer n =>
    unfold position
    dsimp only
    split
    · exact keeps_pure n.toNat
    · exact keeps_fail _
  | _ => exact keeps_fail _

theorem keeps_boolean (v : Value) :
    Keeps (Twins start gap view) (boolean v) (boolean v) := by
  cases v with
  | boolean b => exact keeps_pure b
  | _ => exact keeps_fail _

theorem keeps_print (vs : List Value) : Keeps (Twins start gap view) (print vs) (print vs) := by
  unfold print
  split
  · refine keeps_bind (keeps_onHeap _) fun line => ?_
    exact keeps_bind (keeps_printLine line) fun _ => keeps_pure _
  · exact keeps_fail _

theorem keeps_bindParameters (all : ∀ x, view.known x) (ps : List Parameter) (vs : List Value) :
    Keeps (Block start gap view) (bindParameters ps vs) (bindParameters ps vs) := by
  induction ps generalizing vs with
  | nil => exact keeps_pure ()
  | cons p ps ih =>
    cases vs with
    | nil => exact keeps_pure ()
    | cons v vs => exact keeps_bind (keeps_define (all p.name) true v) fun _ => ih vs

theorem keeps_sequence {I : Machine → Machine → Prop} {act act' : Stmt → Eval Flow}
    (ss : List Stmt) (each : ∀ s ∈ ss, Keeps I (act s) (act' s)) :
    Keeps I (sequence act ss) (sequence act' ss) := by
  induction ss with
  | nil => exact keeps_pure Flow.next
  | cons s ss ih =>
    refine keeps_bind (each s List.mem_cons_self) fun flow => ?_
    cases flow with
    | next => exact ih fun other member => each other (List.mem_cons_of_mem s member)
    | returned v => exact keeps_pure _

def running {μ : Type → Type} [Monad μ] (run : List Stmt → μ Flow) : Option (List Stmt) → μ Flow
  | some body => run body
  | none => pure .next

/-- `matching` and what follows it, in one: the body of the first arm that fits is run, or else
`other`. -/
def picking (evaluate : Expr → Eval Value) (run : List Stmt → Eval Flow) (v : Value)
    (other : Option (List Stmt)) : List Case → Eval Flow
  | [] => running run other
  | .arm none _ :: others => picking evaluate run v other others
  | .arm (some e) body :: others => do
    let w ← evaluate e
    if ← onHeap fun h => Operation.equal h w v then run body
    else picking evaluate run v other others

theorem matching_bind (evaluate : Expr → Eval Value) (run : List Stmt → Eval Flow) (v : Value)
    (other : Option (List Stmt)) (arms : List Case) :
    (matching evaluate v arms >>= fun found => running run (found <|> other)) =
      picking evaluate run v other arms := by
  induction arms with
  | nil => cases other <;> rfl
  | cons arm arms ih =>
    obtain ⟨value, body⟩ := arm
    cases value with
    | none => exact ih
    | some e =>
      simp only [matching, picking, bind_assoc, ← ih]
      refine bind_congr fun w => bind_congr fun same => ?_
      cases same <;> rfl

def enclosed (rule : DivisionScale) (fuel : Nat) (body : List Stmt) : Eval Flow :=
  inChild (sequence (execute rule fuel) body)

theorem execute_switch (rule : DivisionScale) (fuel : Nat) (c : Expr) (arms : List Case) :
    execute rule (fuel + 1) (.switch c arms) = evaluate rule fuel c >>= fun v =>
      inChild (picking (evaluate rule fuel) (enclosed rule fuel) v (defaultBody arms) arms) := by
  simp only [← matching_bind]
  rfl

theorem keeps_picking {I : Machine → Machine → Prop} {act act' : Expr → Eval Value}
    {run run' : List Stmt → Eval Flow} (v : Value) (other : Option (List Stmt)) (arms : List Case)
    (values : ∀ arm ∈ arms, ∀ e, arm.value = some e → Keeps I (act e) (act' e))
    (equal : ∀ w, Keeps I (onHeap fun h => Operation.equal h w v)
      (onHeap fun h => Operation.equal h w v))
    (bodies : ∀ arm ∈ arms, Keeps I (run arm.body) (run' arm.body))
    (left : ∀ body, other = some body → Keeps I (run body) (run' body)) :
    Keeps I (picking act run v other arms) (picking act' run' v other arms) := by
  induction arms with
  | nil =>
    cases other with
    | none => exact keeps_pure Flow.next
    | some body => exact left body rfl
  | cons arm arms ih =>
    have others := ih (fun other member => values other (List.mem_cons_of_mem arm member))
      fun other member => bodies other (List.mem_cons_of_mem arm member)
    obtain ⟨value, body⟩ := arm
    cases value with
    | none => exact others
    | some e =>
      refine keeps_bind (values _ List.mem_cons_self e rfl) fun w => keeps_bind (equal w) ?_
      intro same
      cases same with
      | true => exact bodies _ List.mem_cons_self
      | false => exact others

section

variable (rule : DivisionScale) (start : Machine) (gap : Gap)

structure TwinsAt (fuel : Nat) : Prop where
  evaluate : ∀ (view : View) e, (∀ x ∈ e.variables, view.known x) →
    Keeps (Twins start gap view) (evaluate rule fuel e) (evaluate rule fuel e)
  condition : ∀ (view : View) e, (∀ x ∈ e.variables, view.known x) →
    Keeps (Twins start gap view) (condition rule fuel e) (condition rule fuel e)
  invoke : ∀ (view : View) (f : Callable) vs, f.Below start.scopes.next →
    Keeps (Twins start gap view) (invoke rule fuel f vs) (invoke rule fuel f vs)
  execute : ∀ (view : View) s, (∀ x ∈ s.variables, view.known x) →
    Keeps (Block start gap view) (execute rule fuel s) (execute rule fuel s)
  assign : ∀ (view : View) receiver value,
    (∀ x ∈ receiver.variables ++ value.variables, view.known x) →
    Keeps (Twins start gap view) (assign rule fuel receiver value) (assign rule fuel receiver value)
  repeatWhile : ∀ (view : View) c body,
    (∀ x ∈ c.variables ++ Stmt.allVariables body, view.known x) →
    Keeps (Twins start gap view) (repeatWhile rule fuel c body) (repeatWhile rule fuel c body)

end

variable {rule : DivisionScale} {fuel : Nat}

theorem keeps_values (ih : TwinsAt rule start gap fuel) (es : List Expr)
    (used : ∀ x ∈ Expr.allVariables es, view.known x) :
    Keeps (Twins start gap view) (es.mapM (evaluate rule fuel)) (es.mapM (evaluate rule fuel)) := by
  rw [Expr.allVariables_eq] at used
  exact keeps_mapM es fun e member => ih.evaluate view e fun x among =>
    used x (List.mem_flatMap.mpr ⟨e, member, among⟩)

/-- The statements of a block, in a scope of their own. -/
theorem keeps_body (ih : TwinsAt rule start gap fuel) (ss : List Stmt)
    (used : ∀ x ∈ Stmt.allVariables ss, view.known x) :
    Keeps (Block start gap view) (sequence (execute rule fuel) ss)
      (sequence (execute rule fuel) ss) := by
  rw [Stmt.allVariables_eq] at used
  exact keeps_sequence ss fun s member => ih.execute view s fun x among =>
    used x (List.mem_flatMap.mpr ⟨s, member, among⟩)

theorem keeps_enclosed (walk : TwinsAt rule start gap fuel) (ss : List Stmt)
    (used : ∀ x ∈ Stmt.allVariables ss, view.known x) :
    Keeps (Twins start gap view) (enclosed rule fuel ss) (enclosed rule fuel ss) :=
  keeps_inChild fun _ same => keeps_body walk ss (same ▸ used)

/-- The arms, whatever of them is evaluated or run. -/
theorem keeps_arms (ih : TwinsAt rule start gap fuel) (v : Value) (arms : List Case)
    (used : ∀ x ∈ Case.allVariables arms, view.known x) : Keeps (Twins start gap view)
      (picking (evaluate rule fuel) (enclosed rule fuel) v (defaultBody arms) arms)
      (picking (evaluate rule fuel) (enclosed rule fuel) v (defaultBody arms) arms) := by
  rw [Case.allVariables_eq] at used
  have bodies : ∀ arm ∈ arms, Keeps (Twins start gap view) (enclosed rule fuel arm.body)
      (enclosed rule fuel arm.body) := by
    rintro ⟨value, body⟩ member
    refine keeps_enclosed ih body fun x among => used x (List.mem_flatMap.mpr ⟨_, member, ?_⟩)
    cases value with
    | none => exact among
    | some e => exact List.mem_append_right _ among
  apply keeps_picking
  case values =>
    rintro ⟨_, body⟩ member e rfl
    refine ih.evaluate view e fun x among => used x (List.mem_flatMap.mpr ⟨_, member, ?_⟩)
    exact List.mem_append_left _ among
  case equal => exact fun w => keeps_onHeap _
  case bodies => exact bodies
  case left =>
    intro body found
    obtain ⟨arm, member, rfl⟩ := mem_of_defaultBody found
    exact bodies arm member

theorem twins_evaluate (regular : start.Regular) (ih : TwinsAt rule start gap fuel) (e : Expr)
    (used : ∀ x ∈ e.variables, view.known x) : Keeps (Twins start gap view)
      (evaluate rule (fuel + 1) e) (evaluate rule (fuel + 1) e) := by
  cases e with
  | literal value slot => exact keeps_pure _
  | group inner slot => exact ih.evaluate view inner used
  | binary op left right slot =>
    obtain ⟨first, second⟩ := List.forall_mem_append.mp used
    cases op with
    | and =>
      refine keeps_bind (ih.condition view left first) fun b => ?_
      cases b with
      | true => exact keeps_bind (ih.condition view right second) fun b => keeps_pure _
      | false => exact keeps_pure _
    | or =>
      refine keeps_bind (ih.condition view left first) fun b => ?_
      cases b with
      | true => exact keeps_pure _
      | false => exact keeps_bind (ih.condition view right second) fun b => keeps_pure _
    | _ =>
      exact keeps_bind (ih.evaluate view left first) fun v =>
        keeps_bind (ih.evaluate view right second) fun w => keeps_onHeap _
  | access name record slot =>
    refine keeps_read (used name List.mem_cons_self) fun i c => ?_
    exact keeps_pure c.value
  | element name index record slot =>
    obtain ⟨known, inner⟩ := List.forall_mem_cons.mp used
    refine keeps_read known fun i c => keeps_bind (keeps_listOf c) fun place => ?_
    refine keeps_bind (ih.evaluate view index inner) fun v => ?_
    refine keeps_bind (keeps_elements place) fun vs => ?_
    exact keeps_bind (keeps_position vs.length v) fun k => keeps_pure _
  | call name args signature slot =>
    refine keeps_callableNamed regular name args.length fun f below => ?_
    exact keeps_bind (keeps_values ih args used) fun vs => ih.invoke view f vs below
  | list es slot => exact keeps_bind (keeps_values ih es used) fun vs => keeps_newList vs

/-- In a called function all names may be in use. -/
theorem twins_invoke (regular : start.Regular) (ih : TwinsAt rule start gap fuel) (f : Callable)
    (vs : List Value) (below : f.Below start.scopes.next) : Keeps (Twins start gap view)
      (invoke rule (fuel + 1) f vs) (invoke rule (fuel + 1) f vs) := by
  cases f with
  | print => exact keeps_print vs
  | function d scope =>
    have body : Keeps (Twins start gap view)
        (inChildOf scope (bindParameters d.parameters vs >>= fun _ =>
          sequence (execute rule fuel) d.body))
        (inChildOf scope (bindParameters d.parameters vs >>= fun _ =>
          sequence (execute rule fuel) d.body)) :=
      keeps_call regular (below d scope rfl) fun other all =>
        keeps_bind (keeps_bindParameters all d.parameters vs) fun _ =>
          keeps_body ih d.body fun x _ => all x
    refine keeps_alive regular scope (keeps_bind body fun flow => ?_)
    cases flow with
    | returned v => exact keeps_pure v
    | next => exact keeps_pure _

theorem twins_execute (ih : TwinsAt rule start gap fuel) (s : Stmt)
    (used : ∀ x ∈ s.variables, view.known x) : Keeps (Block start gap view)
      (execute rule (fuel + 1) s) (execute rule (fuel + 1) s) := by
  cases s with
  | expression e =>
    exact keeps_bind (keeps_block fun other same => ih.evaluate other e (same ▸ used)) fun _ =>
      keeps_pure _
  | declaration name typeName value record =>
    have defined (known : view.known name) (v : Value) : Keeps (Block start gap view)
        (define name true v >>= fun _ => pure Flow.next)
        (define name true v >>= fun _ => pure Flow.next) :=
      keeps_bind (keeps_define known true v) fun _ => keeps_pure _
    cases value with
    | none => exact keeps_bind (keeps_pure Value.nil) (defined (used name List.mem_cons_self))
    | some e =>
      obtain ⟨known, inner⟩ := List.forall_mem_cons.mp used
      exact keeps_bind (keeps_block fun other same => ih.evaluate other e (same ▸ inner))
        (defined known)
  | assignment receiver value =>
    exact keeps_bind (keeps_block fun other same => ih.assign other receiver value (same ▸ used))
      fun _ => keeps_pure _
  | conditional c whenTrue whenFalse =>
    obtain ⟨first, second⟩ := List.forall_mem_append.mp used
    obtain ⟨yes, no⟩ := List.forall_mem_append.mp second
    refine keeps_block fun other same => ?_
    refine keeps_bind (ih.condition other c (same ▸ first)) fun b => ?_
    cases b with
    | true => exact keeps_enclosed ih whenTrue (same ▸ yes)
    | false => exact keeps_enclosed ih whenFalse (same ▸ no)
  | switch c arms =>
    obtain ⟨first, second⟩ := List.forall_mem_append.mp used
    rw [execute_switch]
    refine keeps_block fun other same => ?_
    refine keeps_bind (ih.evaluate other c (same ▸ first)) fun v => ?_
    refine keeps_inChild fun inner same' => keeps_block fun more same'' => ?_
    exact keeps_arms ih v arms (same'' ▸ same' ▸ same ▸ second)
  | loop c body =>
    exact keeps_block fun other same => ih.repeatWhile other c body (same ▸ used)
  | «return» e =>
    exact keeps_bind (keeps_block fun other same => ih.evaluate other e (same ▸ used)) fun v =>
      keeps_pure _

theorem twins_assign (ih : TwinsAt rule start gap fuel) (receiver value : Expr)
    (used : ∀ x ∈ receiver.variables ++ value.variables, view.known x) :
    Keeps (Twins start gap view) (assign rule (fuel + 1) receiver value)
      (assign rule (fuel + 1) receiver value) := by
  obtain ⟨first, second⟩ := List.forall_mem_append.mp used
  cases receiver with
  | access name record slot =>
    refine keeps_read (first name List.mem_cons_self) fun i c => keeps_guard _ ?_
    exact keeps_bind (ih.evaluate view value second) fun v => keeps_setCell i v
  | element name index record slot =>
    obtain ⟨known, inner⟩ := List.forall_mem_cons.mp first
    refine keeps_read known fun i c => keeps_bind (keeps_listOf c) fun place => ?_
    refine keeps_bind (ih.evaluate view index inner) fun k => ?_
    refine keeps_bind (ih.evaluate view value second) fun v => ?_
    refine keeps_bind (keeps_onHeap _) fun cyclic => keeps_guard _ ?_
    refine keeps_bind (keeps_elements place) fun vs => ?_
    exact keeps_bind (keeps_position vs.length k) fun k => keeps_setElement place k v
  | _ => exact keeps_fail _

theorem twins_repeatWhile (ih : TwinsAt rule start gap fuel) (c : Expr) (body : List Stmt)
    (used : ∀ x ∈ c.variables ++ Stmt.allVariables body, view.known x) :
    Keeps (Twins start gap view) (repeatWhile rule (fuel + 1) c body)
      (repeatWhile rule (fuel + 1) c body) := by
  obtain ⟨first, second⟩ := List.forall_mem_append.mp used
  refine keeps_bind (ih.condition view c first) fun b => ?_
  cases b with
  | false => exact keeps_pure _
  | true =>
    refine keeps_bind (keeps_enclosed ih body second) fun flow => ?_
    cases flow with
    | next => exact ih.repeatWhile view c body used
    | returned v => exact keeps_pure _

theorem twins_at (regular : start.Regular) (rule : DivisionScale) (gap : Gap) (fuel : Nat) :
    TwinsAt rule start gap fuel := by
  induction fuel with
  | zero =>
    constructor <;> intros <;> exact keeps_throw .exhausted
  | succ fuel ih =>
    exact ⟨fun _ => twins_evaluate regular ih,
      fun view e used => keeps_bind (ih.evaluate view e used) keeps_boolean,
      fun _ => twins_invoke regular ih, fun _ => twins_execute ih, fun _ => twins_assign ih,
      fun _ => twins_repeatWhile ih⟩

end Eval

end Plc

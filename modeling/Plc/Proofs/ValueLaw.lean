import Plc.Proofs.Acyclic
import Plc.Proofs.Parts
import Plc.Proofs.Scopes

/-!
Laws of values. A value law says which values there may be after the moments so far, when only code
of some kind is evaluated. New values come from literals and from operators, each at a moment of its
own; all others are there already, in variables and in lists. So a law that these two keep holds at
every moment of every run of a program made of such code. And only operators break a run off, so
what the law says of their operands is known of a run that ends so.
-/

namespace Plc

open Watched

structure ValueLaw (rule : DivisionScale) where
  /-- What may be evaluated. -/
  code : Expr → Prop
  /-- What may be there after these moments, the latest of which comes first. -/
  valid : List Moment → Value → Prop
  lasts : ∀ {moments : List Moment} {v : Value} (x : Moment), valid moments v →
    valid (x :: moments) v
  nil : ∀ moments, valid moments .nil
  boolean : ∀ moments b, valid moments (.boolean b)
  list : ∀ moments p, valid moments (.list p)
  literal : ∀ {l : Literal} {slot : Option Ty} (m : Machine) (moments : List Moment),
    code (.literal l slot) →
      valid (⟨.evaluated (.literal l slot) (.ofLiteral l), m⟩ :: moments) (.ofLiteral l)
  operation : ∀ {op : Operator} {left right : Expr} {slot : Option Ty} {h : Heap} {l r v : Value}
    (m : Machine) {moments : List Moment}, valid moments l → valid moments r →
      Operation.apply rule h op l r = .ok v →
        valid (⟨.evaluated (.binary op left right slot) v, m⟩ :: moments) v
  /-- What is known after these moments if the run has broken off. -/
  broken : List Moment → Prop
  overflow : ∀ {op : Operator} {h : Heap} {l r : Value} {moments : List Moment},
    valid moments l → valid moments r → Operation.apply rule h op l r = .error .overflow →
      broken moments
  later : ∀ {moments : List Moment} (x : Moment), broken moments → broken (x :: moments)

namespace ValueLaw

variable {rule : DivisionScale} (L : ValueLaw rule)

def Covers (e : Expr) : Prop := ∀ x ∈ e.parts, L.code x

def CoversStmt (s : Stmt) : Prop := ∀ t ∈ s.parts, ∀ e ∈ t.own, L.Covers e

def CoversBlock (ss : List Stmt) : Prop := ∀ t ∈ Stmt.allParts ss, ∀ e ∈ t.own, L.Covers e

def CoversFunction : Callable → Prop
  | .print => True
  | .function d _ => L.CoversBlock d.body

/-- At each moment, whatever is there may be there. -/
def Told : List Moment → Prop
  | [] => True
  | x :: earlier => (∀ v, x.Shows v → L.valid (x :: earlier) v) ∧ Told earlier

/-- What variables and lists hold now may be there, and so may all that was there before. -/
structure Holds (h : History) : Prop where
  cells : ∀ c ∈ h.machine.cells, L.valid h.moments c.value
  elements : ∀ p, ∀ v ∈ h.machine.heap.elements p, L.valid h.moments v
  functions : ∀ i name arity f, h.machine.scopes.ownFunction? i name arity = some f →
    L.CoversFunction f
  told : L.Told h.moments

def Kept (h k : History) : Prop := L.Holds k ∧ h.moments <:+ k.moments

def Valid (v : Value) (h : History) : Prop := L.valid h.moments v

def Stops (reason : Halt) (h : History) : Prop := reason = .overflow → L.broken h.moments

variable {L} {h k l : History}

theorem kept_refl (holds : L.Holds h) : L.Kept h h := ⟨holds, List.suffix_rfl⟩

theorem kept_trans (first : L.Kept h k) (second : L.Kept k l) : L.Kept h l :=
  ⟨second.1, first.2.trans second.2⟩

theorem valid_suffix {early late : List Moment} {v : Value} (suffix : early <:+ late)
    (valid : L.valid early v) : L.valid late v := by
  obtain ⟨new, rfl⟩ := suffix
  induction new with
  | nil => exact valid
  | cons x new ih => exact L.lasts x ih

theorem valid_lasts {v : Value} (kept : L.Kept h k) (valid : L.Valid v h) : L.Valid v k :=
  valid_suffix kept.2 valid

theorem told_suffix {early late : List Moment} (suffix : early <:+ late) (told : L.Told late) :
    L.Told early := by
  obtain ⟨new, rfl⟩ := suffix
  induction new with
  | nil => exact told
  | cons x new ih => exact ih told.2

def Sees (L : ValueLaw rule) (moments : List Moment) : Event → Prop
  | .evaluated _ v => L.valid moments v
  | .invoked _ vs => ∀ v ∈ vs, L.valid moments v
  | _ => True

/-- The machine comes to a state where all that variables and lists hold may be there. -/
theorem kept_come (e : Event) {m : Machine} (holds : L.Holds h)
    (cells : ∀ c ∈ m.cells, L.Valid c.value h)
    (elements : ∀ p, ∀ v ∈ m.heap.elements p, L.Valid v h)
    (functions : ∀ i name arity f, m.scopes.ownFunction? i name arity = some f →
      L.CoversFunction f)
    (sees : L.Sees (⟨e, m⟩ :: h.moments) e) : L.Kept h (h.come e m) := by
  have later : h.moments <:+ (h.come e m).moments := List.suffix_cons _ _
  refine ⟨⟨fun c member => valid_suffix later (cells c member), fun p v member =>
    valid_suffix later (elements p v member), functions, fun v shows => ?_, holds.told⟩, later⟩
  rcases shows with ⟨c, member, rfl⟩ | ⟨p, member⟩ | ⟨p, _, rfl⟩ | ⟨x, event⟩ |
    ⟨f, vs, event, member⟩
  · exact valid_suffix later (cells c member)
  · exact valid_suffix later (elements p v member)
  · exact L.list _ p
  · cases event
    exact sees
  · cases event
    exact sees v member

/-- Neither variables nor lists nor functions change. -/
theorem kept_aside (e : Event) {m : Machine} (holds : L.Holds h)
    (cells : m.cells = h.machine.cells) (heap : m.heap = h.machine.heap)
    (functions : ∀ i name arity, m.scopes.ownFunction? i name arity =
      h.machine.scopes.ownFunction? i name arity)
    (sees : L.Sees (⟨e, m⟩ :: h.moments) e) : L.Kept h (h.come e m) := by
  refine kept_come e holds (cells ▸ holds.cells) (heap ▸ holds.elements) ?_ sees
  intro i name arity f own
  exact holds.functions i name arity f (functions i name arity ▸ own)

theorem kept_note (e : Event) (holds : L.Holds h)
    (sees : L.Sees (⟨e, h.machine⟩ :: h.moments) e) : L.Kept h (h.note e) :=
  kept_aside e holds rfl rfl (fun _ _ _ => rfl) sees

theorem kept_reach (holds : L.Holds h) : L.Kept h (h.reach h.machine) :=
  kept_note .reached holds trivial

variable {α β γ : Type}

def Keeps (L : ValueLaw rule) (h : History) (act : Watched α) (good : α → History → Prop) : Prop :=
  Runs L.Kept L.Stops h act good

theorem keeps_pure {a : α} {good : α → History → Prop} (holds : L.Holds h) (value : good a h) :
    L.Keeps h (pure a) good := runs_pure (kept_refl holds) value

theorem keeps_bind {act : Watched α} {next : α → Watched β} {good : α → History → Prop}
    {result : β → History → Prop} (first : L.Keeps h act good)
    (rest : ∀ a k, L.Kept h k → good a k → L.Keeps k (next a) result) :
    L.Keeps h (act >>= next) result := runs_bind kept_trans first rest

theorem keeps_note (e : Event) (holds : L.Holds h)
    (sees : L.Sees (⟨e, h.machine⟩ :: h.moments) e) :
    L.Keeps h (note e) fun _ _ => True := ⟨kept_note e holds sees, trivial⟩

theorem keeps_look {act : Eval α} {good : α → History → Prop} (holds : L.Holds h)
    (looks : Looks act) (errs : Errs act)
    (value : ∀ a, act h.machine = .ok a h.machine → good a (h.reach h.machine)) :
    L.Keeps h (step act) good := by
  refine runs_look looks (kept_reach holds) value fun e ended => ?_
  obtain ⟨cause, rfl⟩ := errs _ _ _ ended
  nofun

/-- A look whose answer does not matter. -/
theorem keeps_glance {act : Eval α} (holds : L.Holds h) (looks : Looks act) (errs : Errs act) :
    L.Keeps h (step act) fun _ _ => True := keeps_look holds looks errs fun _ _ => trivial

theorem keeps_onHeap {f : Heap → Except Halt α} {good : α → History → Prop} (holds : L.Holds h)
    (value : ∀ a, f h.machine.heap = .ok a → good a (h.reach h.machine))
    (overflow : f h.machine.heap = .error .overflow → L.broken h.moments) :
    L.Keeps h (step (Eval.onHeap f)) good := by
  refine runs_step ?_
  unfold Eval.onHeap Eval.lift
  cases ended : f h.machine.heap with
  | ok a => exact ⟨kept_reach holds, value a ended⟩
  | error e => exact ⟨kept_reach holds, fun is => L.later _ (overflow (is ▸ ended))⟩

theorem keeps_answer {f : Heap → Except Halt α} (holds : L.Holds h)
    (answers : ∀ heap, f heap ≠ .error .overflow) :
    L.Keeps h (step (Eval.onHeap f)) fun _ _ => True :=
  keeps_onHeap holds (fun _ _ => trivial) fun overflown => (answers _ overflown).elim

theorem keeps_fail {e : RuntimeError} {next : α → Watched β} {result : β → History → Prop}
    (holds : L.Holds h) : L.Keeps h (step (Eval.fail e : Eval α) >>= next) result := by
  have failed : L.Keeps h (step (Eval.fail e : Eval α)) fun _ _ => False :=
    keeps_look holds (looks_fail e) (errs_fail e) fun a found => by cases found
  exact keeps_bind failed fun _ _ _ never => never.elim

theorem keeps_inChildOf {parent : Nat} {act : Watched α} {good : α → History → Prop}
    (holds : L.Holds h) (body : ∀ k, L.Kept h k → L.Keeps k act good)
    (lasts : ∀ a {k l}, L.Kept k l → good a k → good a l) :
    L.Keeps h (inChildOf parent act) good := by
  have enter : L.Kept h (h.reach (h.machine.entered parent)) :=
    kept_aside .reached holds rfl rfl (fun i => Scopes.ownFunction?_addChild parent i) trivial
  have leave : ∀ k : History, L.Holds k → L.Kept k (k.reach (k.machine.backIn h.machine.current)) :=
    fun k holds => kept_aside .reached holds rfl rfl (fun _ _ _ => rfl) trivial
  refine runs_inChildOf (body _ enter) (fun k kept => ?_) (fun e k stops is => L.later _ (stops is))
    fun a k kept value => ?_
  · exact kept_trans (kept_trans enter kept) (leave k kept.1)
  · exact lasts a (leave k kept.1) value

theorem keeps_inChild {act : Watched α} {good : α → History → Prop}
    (holds : L.Holds h) (body : ∀ k, L.Kept h k → L.Keeps k act good)
    (lasts : ∀ a {k l}, L.Kept k l → good a k → good a l) : L.Keeps h (inChild act) good :=
  keeps_inChildOf holds body lasts

theorem keeps_define (record : Option Variable) (name : String) (mutable : Bool) {v : Value}
    (holds : L.Holds h) (valid : L.Valid v h) :
    L.Keeps h (define record name mutable v) fun _ _ => True := by
  unfold Keeps Runs define Eval.define
  cases h.machine.scopes.variableClash? h.machine.current name with
  | some r => exact ⟨kept_reach holds, nofun⟩
  | none =>
    refine ⟨kept_come _ holds (fun c member => ?_) holds.elements ?_ trivial, trivial⟩
    · rcases Array.mem_push.mp member with old | rfl
      · exact holds.cells c old
      · exact valid
    · intro i other arity f own
      rw [Scopes.ownFunction?_bindVariable] at own
      exact holds.functions i other arity f own

theorem keeps_resolve (record : Option Variable) (name : String) (holds : L.Holds h) :
    L.Keeps h (resolve record name) fun _ _ => True := by
  apply keeps_bind (keeps_glance holds (looks_cellNamed name) (errs_cellNamed name))
  intro i k kept _
  exact keeps_bind (keeps_note _ kept.1 trivial) fun _ l kept _ => keeps_pure kept.1 trivial

theorem keeps_cell (i : Nat) (holds : L.Holds h) :
    L.Keeps h (step (Eval.cell i)) fun c k => L.Valid c.value k := by
  apply keeps_look holds (looks_cell i) (errs_cell i)
  intro c found
  obtain rfl : h.machine.cells[i]?.getD default = c := by injection found
  cases there : h.machine.cells[i]? with
  | none => exact L.nil _
  | some c => exact L.lasts _ (holds.cells c (Array.mem_of_getElem? there))

theorem keeps_elements (place : Nat) (holds : L.Holds h) :
    L.Keeps h (step (Eval.elements place)) fun vs k => ∀ v ∈ vs, L.Valid v k := by
  apply keeps_look holds (looks_elements place) (errs_elements place)
  intro vs found v member
  cases found
  exact L.lasts _ (holds.elements place v member)

theorem keeps_setCell (i : Nat) {v : Value} (holds : L.Holds h) (valid : L.Valid v h) :
    L.Keeps h (step (Eval.setCell i v)) fun _ _ => True := by
  refine runs_step ⟨kept_come .reached holds (fun c member => ?_) holds.elements holds.functions
    trivial, trivial⟩
  obtain ⟨j, found⟩ := Array.getElem?_of_mem member
  simp only [Array.getElem?_modify] at found
  split at found
  · obtain ⟨d, _, rfl⟩ := Option.map_eq_some_iff.mp found
    exact valid
  · exact holds.cells c (Array.mem_of_getElem? found)

theorem keeps_newList {vs : List Value} (holds : L.Holds h) (valid : ∀ v ∈ vs, L.Valid v h) :
    L.Keeps h (step (Eval.newList vs)) L.Valid := by
  refine runs_step ⟨kept_come .reached holds holds.cells (fun p v member => ?_) holds.functions
    trivial, L.list _ _⟩
  rw [Heap.elements_push] at member
  split at member
  · exact valid v member
  · exact holds.elements p v member

theorem keeps_setElement (place i : Nat) {v : Value} (holds : L.Holds h) (valid : L.Valid v h) :
    L.Keeps h (step (Eval.setElement place i v)) fun _ _ => True := by
  refine runs_step ⟨kept_come .reached holds holds.cells (fun p w member => ?_) holds.functions
    trivial, trivial⟩
  change w ∈ (h.machine.heap.store place i v).elements p at member
  rw [Heap.elements_store] at member
  split at member
  · rcases List.mem_or_eq_of_mem_set member with old | rfl
    · exact holds.elements p w old
    · exact valid
  · exact holds.elements p w member

theorem keeps_print (vs : List Value) (holds : L.Holds h) :
    L.Keeps h (step (Eval.print vs)) L.Valid := by
  refine runs_step ?_
  cases vs with
  | nil => exact ⟨kept_reach holds, nofun⟩
  | cons v others =>
    cases others with
    | cons => exact ⟨kept_reach holds, nofun⟩
    | nil =>
      rcases print_one v h.machine with ⟨line, printed⟩ | stopped
      · rw [printed]
        exact ⟨kept_aside .reached holds rfl rfl (fun _ _ _ => rfl) trivial, L.nil _⟩
      · rw [stopped]
        exact ⟨kept_reach holds, nofun⟩

theorem keeps_defineFunction (f : Function) (holds : L.Holds h) (covers : L.CoversBlock f.body) :
    L.Keeps h (step (Eval.defineFunction f)) fun _ _ => True := by
  refine runs_step ?_
  unfold Eval.defineFunction
  cases h.machine.scopes.functionClash? h.machine.current f.name f.arity with
  | some r => exact ⟨kept_reach holds, nofun⟩
  | none =>
    refine ⟨kept_come .reached holds holds.cells holds.elements ?_ trivial, trivial⟩
    intro i name arity g own
    rw [Scopes.ownFunction?_bindFunction] at own
    split at own
    · cases own
      exact covers
    · exact holds.functions i name arity g own

theorem keeps_mapM {act : γ → Watched Value} (cs : List γ) (holds : L.Holds h)
    (each : ∀ c ∈ cs, ∀ k, L.Holds k → L.Keeps k (act c) L.Valid) :
    L.Keeps h (cs.mapM act) fun vs k => ∀ v ∈ vs, L.Valid v k :=
  runs_mapM cs (kept_refl holds) (fun kept => kept_refl kept.1) kept_trans valid_lasts
    fun c member k kept => each c member k kept.1

theorem keeps_forM {act : γ → Watched Unit} (cs : List γ) (holds : L.Holds h)
    (each : ∀ c ∈ cs, ∀ k, L.Holds k → L.Keeps k (act c) fun _ _ => True) :
    L.Keeps h (cs.forM act) fun _ _ => True := by
  induction cs generalizing h with
  | nil => exact keeps_pure holds trivial
  | cons c cs ih =>
    apply keeps_bind (each c List.mem_cons_self h holds)
    intro _ k kept _
    exact ih kept.1 fun d member => each d (List.mem_cons_of_mem c member)

end ValueLaw

end Plc

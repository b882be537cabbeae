import Plc.Outcome
import Plc.Proofs.Scopes

/-!
Recoded machines. A machine keeps parts of the programs that it runs, in the functions that its
scopes know; recoding puts others in their place. An action mirrors another one when it does on
every recoded machine what the other does on the machine itself. It is proved of a sequence of
actions from one for each of them.
-/

namespace Plc

namespace Scopes

variable {V F G : Type} {t : Scopes V F}

def mapFunctions (g : F → G) (t : Scopes V F) : Scopes V G :=
  ⟨t.table.map fun s => ⟨s.enclosing, s.bindings, s.functions.map fun f => (f.1, g f.2)⟩⟩

section

variable (g : F → G)

@[simp] theorem next_mapFunctions : (t.mapFunctions g).next = t.next := by
  simp [mapFunctions, next]

theorem scope?_mapFunctions (i : Nat) :
    (t.mapFunctions g).scope? i = (t.scope? i).map fun s =>
      ⟨s.enclosing, s.bindings, s.functions.map fun f => (f.1, g f.2)⟩ := by
  simp [mapFunctions, scope?]

@[simp] theorem path_mapFunctions (i : Nat) : (t.mapFunctions g).path i = t.path i := by
  simp only [path, scope?_mapFunctions, Option.map_map]
  rfl

@[simp] theorem ownVariable?_mapFunctions (i : Nat) (name : String) :
    (t.mapFunctions g).ownVariable? i name = t.ownVariable? i name := by
  simp only [ownVariable?, scope?_mapFunctions, Option.bind_map]
  rfl

/-- No two keys become one, so nothing hides what was found. -/
theorem lookup_map_of_injective {α β γ δ : Type} [BEq α] [LawfulBEq α] [BEq γ] [LawfulBEq γ]
    {code : α → γ} (injective : ∀ x y, code x = code y → x = y) (g : β → δ) (key : α)
    (pairs : List (α × β)) :
    (pairs.map fun p => (code p.1, g p.2)).lookup (code key) = (pairs.lookup key).map g := by
  induction pairs with
  | nil => rfl
  | cons p ps ih =>
    have same : (code key == code p.1) = (key == p.1) := by
      rw [Bool.eq_iff_iff, beq_iff_eq, beq_iff_eq]
      exact ⟨injective key p.1, congrArg code⟩
    rw [List.map_cons, List.lookup_cons, List.lookup_cons, same]
    cases key == p.1 with
    | true => rfl
    | false => exact ih

@[simp] theorem ownFunction?_mapFunctions (i : Nat) (name : String) (arity : Nat) :
    (t.mapFunctions g).ownFunction? i name arity = (t.ownFunction? i name arity).map g := by
  simp only [ownFunction?, scope?_mapFunctions]
  cases t.scope? i with
  | none => rfl
  | some s =>
    have same : ∀ x y : String × Nat, id x = id y → x = y := fun _ _ same => same
    exact lookup_map_of_injective same g (name, arity) s.functions

@[simp] theorem findVariable?_mapFunctions (i : Nat) (name : String) :
    (t.mapFunctions g).findVariable? i name = t.findVariable? i name := by
  simp only [findVariable?, path_mapFunctions, ownVariable?_mapFunctions]

theorem findFunction?_mapFunctions (i : Nat) (name : String) (arity : Nat) :
    (t.mapFunctions g).findFunction? i name arity = (t.findFunction? i name arity).map g := by
  rw [findFunction?, findFunction?, path_mapFunctions, List.map_findSome?]
  exact congrArg (List.findSome? · _) (funext fun j => ownFunction?_mapFunctions g j name arity)

@[simp] theorem variableClash?_mapFunctions (i : Nat) (name : String) :
    (t.mapFunctions g).variableClash? i name = t.variableClash? i name := by
  simp only [variableClash?, ownVariable?_mapFunctions]

@[simp] theorem functionClash?_mapFunctions (i : Nat) (name : String) (arity : Nat) :
    (t.mapFunctions g).functionClash? i name arity = t.functionClash? i name arity := by
  simp only [functionClash?, ownFunction?_mapFunctions, Option.isSome_map]

theorem mapFunctions_addChild (parent : Nat) :
    (t.addChild parent).mapFunctions g = (t.mapFunctions g).addChild parent := by
  simp only [addChild, path_mapFunctions]
  simp [mapFunctions]

theorem map_modify {α β : Type} {f : α → β} {h : α → α} {k : β → β}
    (commute : ∀ a, f (h a) = k (f a)) (as : Array α) (i : Nat) :
    (as.modify i h).map f = (as.map f).modify i k := by
  apply Array.ext_getElem?
  intro j
  simp only [Array.getElem?_map, Array.getElem?_modify]
  split <;> simp [Function.comp_def, commute]

theorem mapFunctions_bindVariable (i : Nat) (name : String) (v : V) :
    (t.bindVariable i name v).mapFunctions g = (t.mapFunctions g).bindVariable i name v := by
  simp only [bindVariable, mapFunctions, Scopes.mk.injEq]
  apply map_modify
  intro s
  rfl

theorem mapFunctions_bindFunction (i : Nat) (name : String) (arity : Nat) (f : F) :
    (t.bindFunction i name arity f).mapFunctions g =
      (t.mapFunctions g).bindFunction i name arity (g f) := by
  simp only [bindFunction, mapFunctions, Scopes.mk.injEq]
  apply map_modify
  intro s
  rfl

end

end Scopes

namespace Machine

/-- The machine with what `g` gives in the place of its functions. -/
def recode (g : Callable → Callable) (m : Machine) : Machine :=
  { m with scopes := m.scopes.mapFunctions g }

theorem isAlive_recode (g : Callable → Callable) (m : Machine) (scope : Nat) :
    (m.recode g).isAlive scope = m.isAlive scope := by
  simp only [isAlive, recode, Scopes.path_mapFunctions]

end Machine

namespace Eval

variable {α β : Type} {g : Callable → Callable}

def recoded (g : Callable → Callable) (value : α → α) :
    EStateM.Result Halt Machine α → EStateM.Result Halt Machine α
  | .ok a m => .ok (value a) (m.recode g)
  | .error e m => .error e (m.recode g)

/-- What `act` does on a machine, `plain` does on the recoded machine, with the value recoded. -/
def MirrorsTo (g : Callable → Callable) (value : α → α) (act plain : Eval α) : Prop :=
  ∀ m, plain (m.recode g) = recoded g value (act m)

abbrev Mirrors (g : Callable → Callable) (act plain : Eval α) : Prop := MirrorsTo g id act plain

theorem mirrors_pure (a : α) : Mirrors g (pure a) (pure a) := fun _ => rfl

theorem mirrors_throw (e : Halt) : Mirrors g (throw e : Eval α) (throw e) := fun _ => rfl

theorem mirrors_fail (e : RuntimeError) : Mirrors g (fail e : Eval α) (fail e) := fun _ => rfl

theorem mirrors_bind {value : α → α} {result : β → β} {act plain : Eval α}
    {next plainNext : α → Eval β} (first : MirrorsTo g value act plain)
    (rest : ∀ a, MirrorsTo g result (next a) (plainNext (value a))) :
    MirrorsTo g result (act >>= next) (plain >>= plainNext) := by
  intro m
  show EStateM.bind plain plainNext (m.recode g) = recoded g result (EStateM.bind act next m)
  unfold EStateM.bind
  rw [first m]
  cases act m with
  | ok a n => exact rest a n
  | error e n => rfl

theorem mirrors_get {next plainNext : Machine → Eval α}
    (rest : ∀ m, Mirrors g (next m) (plainNext (m.recode g))) :
    Mirrors g (get >>= next) (get >>= plainNext) := fun m => rest m m

theorem mirrors_inChildOf (parent : Nat) {act plain : Eval α} (inner : Mirrors g act plain) :
    Mirrors g (inChildOf parent act) (inChildOf parent plain) := by
  intro m
  have entered := inner { m with scopes := m.scopes.addChild parent, current := m.scopes.next }
  unfold inChildOf inScope
  simp only [Machine.recode, Scopes.mapFunctions_addChild, Scopes.next_mapFunctions] at entered ⊢
  rw [entered]
  cases act _ <;> rfl

theorem mirrors_inChild {act plain : Eval α} (inner : Mirrors g act plain) :
    Mirrors g (inChild act) (inChild plain) := fun m => mirrors_inChildOf m.current inner m

theorem mirrors_define (name : String) (mutable : Bool) (value : Value) :
    Mirrors g (define name mutable value) (define name mutable value) := by
  intro m
  unfold define
  simp only [Machine.recode, Scopes.variableClash?_mapFunctions]
  cases m.scopes.variableClash? m.current name with
  | some r => rfl
  | none =>
    dsimp only
    rw [← Scopes.mapFunctions_bindVariable]
    rfl

theorem mirrors_defineFunction {f d : Function} (name : d.name = f.name) (arity : d.arity = f.arity)
    (coded : ∀ scope, g (.function f scope) = .function d scope) :
    Mirrors g (defineFunction f) (defineFunction d) := by
  intro m
  unfold defineFunction
  simp only [Machine.recode, name, arity, Scopes.functionClash?_mapFunctions]
  cases m.scopes.functionClash? m.current f.name f.arity with
  | some r => rfl
  | none =>
    have bound := Scopes.mapFunctions_bindFunction (t := m.scopes) g m.current f.name f.arity
      (.function f m.current)
    dsimp only [recoded]
    rw [Machine.recode, bound, coded]

theorem mirrors_cellNamed (name : String) : Mirrors g (cellNamed name) (cellNamed name) := by
  intro m
  unfold cellNamed Machine.cell?
  simp only [Machine.recode, Scopes.findVariable?_mapFunctions]
  cases m.scopes.findVariable? m.current name <;> rfl

theorem mirrors_callableNamed (name : String) (arity : Nat) :
    MirrorsTo g g (callableNamed name arity) (callableNamed name arity) := by
  intro m
  unfold callableNamed
  simp only [Machine.recode, Scopes.findFunction?_mapFunctions]
  cases m.scopes.findFunction? m.current name arity <;> rfl

theorem mirrors_cell (i : Nat) : Mirrors g (cell i) (cell i) := fun _ => rfl

theorem mirrors_setCell (i : Nat) (value : Value) : Mirrors g (setCell i value) (setCell i value) :=
  fun _ => rfl

theorem mirrors_newList (elements : List Value) :
    Mirrors g (newList elements) (newList elements) := fun _ => rfl

theorem mirrors_elements (place : Nat) : Mirrors g (elements place) (elements place) :=
  fun _ => rfl

theorem mirrors_setElement (place index : Nat) (value : Value) :
    Mirrors g (setElement place index value) (setElement place index value) := fun _ => rfl

theorem mirrors_printLine (line : String) : Mirrors g (printLine line) (printLine line) :=
  fun _ => rfl

theorem mirrors_onHeap (f : Heap → Except Halt α) : Mirrors g (onHeap f) (onHeap f) := by
  intro m
  show lift (f m.heap) (m.recode g) = recoded g id (lift (f m.heap) m)
  cases f m.heap <;> rfl

theorem mirrors_listOf (c : Cell) : Mirrors g (listOf c) (listOf c) := by
  unfold listOf
  cases c.value with
  | list place => exact mirrors_pure place
  | _ => exact mirrors_fail _

theorem mirrors_position (length : Nat) (v : Value) :
    Mirrors g (position length v) (position length v) := by
  cases v with
  | integer n =>
    unfold position
    dsimp only
    split
    · exact mirrors_pure _
    · exact mirrors_fail _
  | _ => exact mirrors_fail _

theorem mirrors_boolean (v : Value) : Mirrors g (boolean v) (boolean v) := by
  cases v with
  | boolean b => exact mirrors_pure b
  | _ => exact mirrors_fail _

theorem mirrors_print (vs : List Value) : Mirrors g (print vs) (print vs) := by
  unfold print
  split
  · exact mirrors_bind (mirrors_onHeap _) fun line =>
      mirrors_bind (mirrors_printLine line) fun _ => mirrors_pure _
  · exact mirrors_fail _

theorem mirrors_bindParameters (ps : List Parameter) (vs : List Value) :
    Mirrors g (bindParameters ps vs) (bindParameters ps vs) := by
  induction ps generalizing vs with
  | nil => exact mirrors_pure ()
  | cons p ps ih =>
    cases vs with
    | nil => exact mirrors_pure ()
    | cons v vs => exact mirrors_bind (mirrors_define _ _ _) fun _ => ih vs

theorem mirrors_mainResult (v : Value) : Mirrors g (mainResult v) (mainResult v) := by
  cases v with
  | integer n => exact mirrors_pure n
  | _ => exact mirrors_fail _

end Eval

end Plc

import Mathlib.Data.List.Induction
import Plc.Proofs.Scopes

/-!
Nested environments. What names mean after any sequence of operations on a table is told by the
operations alone: the scopes that were made one in another, the definitions that each scope took
and the nearest scope that has one. A new definition is seen in its scope and in the scopes inside
that have none on the way.
-/

namespace Plc

namespace Scopes

inductive Action (V F : Type) where
  | root
  | child (parent : Nat)
  | defineVariable (scope : Nat) (name : String) (v : V)
  | defineFunction (scope : Nat) (name : String) (arity : Nat) (f : F)
  | bindFunction (scope : Nat) (name : String) (arity : Nat) (f : F)

variable {V F : Type}

def act? (t : Scopes V F) : Action V F → Except Redefinition (Scopes V F)
  | .root => .ok t.addRoot
  | .child parent => .ok (t.addChild parent)
  | .defineVariable i name v => t.defineVariable i name v
  | .defineFunction i name arity f => t.defineFunction i name arity f
  | .bindFunction i name arity f => .ok (t.bindFunction i name arity f)

def act (t : Scopes V F) (a : Action V F) : Scopes V F :=
  match t.act? a with
  | .ok u => u
  | .error _ => t

def after (log : List (Action V F)) : Scopes V F := log.foldl act ⟨#[]⟩

namespace Action

def made? : Action V F → Option (Option Nat)
  | .root => some none
  | .child parent => some (some parent)
  | _ => none

def Within (scopes : Nat) : Action V F → Prop
  | .root => True
  | .child i => i < scopes
  | .defineVariable i _ _ => i < scopes
  | .defineFunction i _ _ _ => i < scopes
  | .bindFunction i _ _ _ => i < scopes

def variableFor? (i : Nat) (name : String) : Action V F → Option V
  | .defineVariable j other v => if j = i ∧ other = name then some v else none
  | _ => none

def functionFor? (i : Nat) (name : String) (arity : Nat) : Action V F → Option F
  | .defineFunction j other many f =>
    if j = i ∧ other = name ∧ many = arity then some f else none
  | _ => none

def bindingFor? (i : Nat) (name : String) (arity : Nat) : Action V F → Option F
  | .bindFunction j other many f =>
    if j = i ∧ other = name ∧ many = arity then some f else none
  | _ => none

end Action

def made (log : List (Action V F)) : List (Option Nat) := log.filterMap Action.made?

def around? (log : List (Action V F)) (i : Nat) : Option Nat := (made log)[i]?.join

/-- The first definition of a variable in scope `i`: any later one is refused. -/
def variableIn? (log : List (Action V F)) (name : String) (i : Nat) : Option V :=
  log.findSome? (Action.variableFor? i name)

/-- The latest binding of a function in scope `i`, or else the first definition of it there. -/
def functionIn? (log : List (Action V F)) (name : String) (arity i : Nat) : Option F :=
  (log.reverse.findSome? (Action.bindingFor? i name arity)).or
    (log.findSome? (Action.functionFor? i name arity))

/-- Each operation names only scopes that there are by then, at first this many. -/
def Possible : Nat → List (Action V F) → Prop
  | _, [] => True
  | scopes, a :: log => a.Within scopes ∧ Possible (scopes + (made [a]).length) log

instance Action.decidableWithin (scopes : Nat) : (a : Action V F) → Decidable (a.Within scopes)
  | .root => isTrue trivial
  | .child i => inferInstanceAs (Decidable (i < scopes))
  | .defineVariable i _ _ => inferInstanceAs (Decidable (i < scopes))
  | .defineFunction i _ _ _ => inferInstanceAs (Decidable (i < scopes))
  | .bindFunction i _ _ _ => inferInstanceAs (Decidable (i < scopes))

instance decidablePossible : (scopes : Nat) → (log : List (Action V F)) →
    Decidable (Possible scopes log)
  | _, [] => isTrue trivial
  | scopes, a :: log =>
    have := decidablePossible (scopes + (made [a]).length) log
    inferInstanceAs (Decidable (a.Within scopes ∧ Possible (scopes + (made [a]).length) log))

/-- What is found from scope `i` on: what the nearest scope has that has something. -/
inductive Means {α : Type} (own : Nat → Option α) (around : Nat → Option Nat) : Nat → α → Prop
  | here {i : Nat} {x : α} : own i = some x → Means own around i x
  | outside {i j : Nat} {x : α} :
    own i = none → around i = some j → Means own around j x → Means own around i x

inductive Reaches {α : Type} (own : Nat → Option α) (around : Nat → Option Nat) (i : Nat) :
    Nat → Prop
  | here : Reaches own around i i
  | outside {j k : Nat} :
    own j = none → around j = some k → Reaches own around i k → Reaches own around i j

/-- From `t` to `u`, after this log, a variable gets this meaning in scope `i` and in the scopes
inside that have none on the way. Everything else means what it meant. -/
structure NewVariable (log : List (Action V F)) (i : Nat) (name : String) (v : V)
    (t u : Scopes V F) : Prop where
  seen : ∀ j, Reaches (variableIn? log name) (around? log) i j →
    i ∈ u.path j ∧ u.findVariable? j name = some v
  unseen : ∀ j, ¬ Reaches (variableIn? log name) (around? log) i j →
    u.findVariable? j name = t.findVariable? j name
  names : ∀ j other, other ≠ name → u.findVariable? j other = t.findVariable? j other
  apart : ∀ j other arity, u.findFunction? j other arity = t.findFunction? j other arity

structure NewFunction (log : List (Action V F)) (i : Nat) (name : String) (arity : Nat) (f : F)
    (t u : Scopes V F) : Prop where
  seen : ∀ j, Reaches (functionIn? log name arity) (around? log) i j →
    i ∈ u.path j ∧ u.findFunction? j name arity = some f
  unseen : ∀ j, ¬ Reaches (functionIn? log name arity) (around? log) i j →
    u.findFunction? j name arity = t.findFunction? j name arity
  keys : ∀ j other many, ¬ (other = name ∧ many = arity) →
    u.findFunction? j other many = t.findFunction? j other many
  apart : ∀ j other, u.findVariable? j other = t.findVariable? j other

section

variable {t : Scopes V F} {i : Nat}

theorem path_of_next_le (new : t.next ≤ i) : t.path i = [i] := by
  have absent : t.scope? i = none := Array.getElem?_eq_none_iff.mpr new
  simp [path, absent]

@[simp] theorem next_addRoot : t.addRoot.next = t.next + 1 := by
  simp [addRoot, next]

/-- A scope that no other is around has the path that a number without a scope has. -/
@[simp] theorem path_addRoot : t.addRoot.path i = t.path i := by
  by_cases new : i = t.next
  · rw [path_of_next_le (Nat.le_of_eq new.symm)]
    simp [path, addRoot, scope?, new, next]
  · have same : t.addRoot.scope? i = t.scope? i := by
      simp only [addRoot, scope?, next, Array.getElem?_push] at new ⊢
      rw [if_neg new]
    simp only [path, same]

/-- A new scope has no variables, whichever scopes are around it. -/
theorem ownVariable?_push (enclosing : List Nat) (name : String) :
    (⟨t.table.push ⟨enclosing, [], []⟩⟩ : Scopes V F).ownVariable? i name =
      t.ownVariable? i name := by
  simp only [ownVariable?, scope?, Array.getElem?_push]
  split
  · next new => simp [new]
  · rfl

theorem ownFunction?_addRoot (name : String) (arity : Nat) :
    t.addRoot.ownFunction? i name arity = t.ownFunction? i name arity := by
  simp only [ownFunction?, addRoot, scope?, Array.getElem?_push]
  split
  · next new => simp [new]
  · rfl

theorem ownVariable?_bindVariable_elsewhere {j : Nat} (other : i ≠ j) (name key : String) (v : V) :
    (t.bindVariable i name v).ownVariable? j key = t.ownVariable? j key := by
  simp only [ownVariable?, scope?_bindVariable, if_neg other]

theorem ownVariable?_bindFunction (j : Nat) (name key : String) (arity : Nat) (f : F) :
    (t.bindFunction i name arity f).ownVariable? j key = t.ownVariable? j key := by
  simp only [ownVariable?, scope?_bindFunction]
  split
  · cases t.scope? j <;> rfl
  · rfl

theorem act_defineVariable (name : String) (v : V) :
    t.act (.defineVariable i name v) =
      if (t.ownVariable? i name).isSome then t else t.bindVariable i name v := by
  simp only [act, act?, defineVariable, variableClash?]
  by_cases own : (t.ownVariable? i name).isSome <;> simp [own]

theorem act_defineFunction (name : String) (arity : Nat) (f : F) :
    t.act (.defineFunction i name arity f) =
      if (t.ownFunction? i name arity).isSome then t else t.bindFunction i name arity f := by
  simp only [act, act?, defineFunction, functionClash?]
  by_cases own : (t.ownFunction? i name arity).isSome <;> simp [own]

theorem next_act (a : Action V F) : (t.act a).next = t.next + (made [a]).length := by
  cases a with
  | root => exact next_addRoot
  | child parent => exact next_addChild parent
  | defineVariable i name v =>
    rw [act_defineVariable]
    split
    · rfl
    · exact next_bindVariable i name v
  | defineFunction i name arity f =>
    rw [act_defineFunction]
    split
    · rfl
    · exact next_bindFunction i name arity f
  | bindFunction i name arity f => exact next_bindFunction i name arity f

/-- Only a scope made inside another has scopes around it that it had not. -/
theorem path_act_of_join_none {a : Action V F} (plain : a.made?.join = none) :
    (t.act a).path i = t.path i := by
  cases a with
  | root => exact path_addRoot
  | child parent => cases plain
  | defineVariable j name v =>
    rw [act_defineVariable]
    split
    · rfl
    · exact path_bindVariable j i name v
  | defineFunction j name arity f =>
    rw [act_defineFunction]
    split
    · rfl
    · exact path_bindFunction j i name arity f
  | bindFunction j name arity f => exact path_bindFunction j i name arity f

theorem eq_child_of_join {a : Action V F} {parent : Nat} (inner : a.made?.join = some parent) :
    a = .child parent := by
  cases a <;> simp_all [Action.made?]

theorem path_act (a : Action V F) (inside : i < t.next) : (t.act a).path i = t.path i := by
  cases inner : a.made?.join with
  | none => exact path_act_of_join_none inner
  | some parent =>
    cases eq_child_of_join inner
    exact path_addChild parent inside

/-- A variable stays what it is in a scope that has it; a definition tells what it is in one that
has not. -/
theorem ownVariable?_act (a : Action V F) (within : a.Within t.next) (name : String) :
    (t.act a).ownVariable? i name = (t.ownVariable? i name).or (a.variableFor? i name) := by
  cases a with
  | root => exact (ownVariable?_push [] name).trans Option.or_none.symm
  | child parent => exact (ownVariable?_push (t.path parent) name).trans Option.or_none.symm
  | defineVariable j key v =>
    rw [act_defineVariable]
    by_cases here : j = i ∧ key = name
    · obtain ⟨rfl, rfl⟩ := here
      cases own : t.ownVariable? j key with
      | some w => simp [own]
      | none => simp [ownVariable?_bindVariable within, Action.variableFor?]
    · have same : (t.bindVariable j key v).ownVariable? i name = t.ownVariable? i name := by
        by_cases scope : j = i
        · subst scope
          rw [ownVariable?_bindVariable within, if_neg fun same => here ⟨rfl, same.symm⟩]
        · exact ownVariable?_bindVariable_elsewhere scope key name v
      simp only [Action.variableFor?, if_neg here, Option.or_none]
      split
      · rfl
      · exact same
  | defineFunction j key arity f =>
    rw [act_defineFunction]
    simp only [Action.variableFor?, Option.or_none]
    split
    · rfl
    · exact ownVariable?_bindFunction i key name arity f
  | bindFunction j key arity f =>
    exact (ownVariable?_bindFunction i key name arity f).trans Option.or_none.symm

/-- A binding takes the place of what the scope has; a definition does not. -/
theorem ownFunction?_act (a : Action V F) (within : a.Within t.next) (name : String)
    (arity : Nat) :
    (t.act a).ownFunction? i name arity =
      (a.bindingFor? i name arity).or
        ((t.ownFunction? i name arity).or (a.functionFor? i name arity)) := by
  cases a with
  | root =>
    simp only [Action.bindingFor?, Action.functionFor?, Option.none_or, Option.or_none]
    exact ownFunction?_addRoot name arity
  | child parent =>
    simp only [Action.bindingFor?, Action.functionFor?, Option.none_or, Option.or_none]
    exact ownFunction?_addChild parent i name arity
  | defineVariable j key v =>
    simp only [Action.bindingFor?, Action.functionFor?, Option.none_or, Option.or_none]
    rw [act_defineVariable]
    split
    · rfl
    · exact ownFunction?_bindVariable j i key name v arity
  | defineFunction j key many f =>
    rw [act_defineFunction]
    simp only [Action.bindingFor?, Action.functionFor?, Option.none_or]
    by_cases here : j = i ∧ key = name ∧ many = arity
    · obtain ⟨rfl, rfl, rfl⟩ := here
      cases own : t.ownFunction? j key many with
      | some g => simp [own]
      | none => simp [ownFunction?_bindFunction, show j < t.next from within]
    · rw [if_neg here, Option.or_none]
      split
      · rfl
      · rw [ownFunction?_bindFunction, if_neg]
        exact fun same => here ⟨same.1.symm, same.2.2.1.symm, same.2.2.2.symm⟩
  | bindFunction j key many f =>
    simp only [Action.bindingFor?, Action.functionFor?, Option.or_none]
    show (t.bindFunction j key many f).ownFunction? i name arity = _
    rw [ownFunction?_bindFunction]
    by_cases here : j = i ∧ key = name ∧ many = arity
    · obtain ⟨rfl, rfl, rfl⟩ := here
      simp [show j < t.next from within]
    · rw [if_neg here, Option.none_or, if_neg]
      exact fun same => here ⟨same.1.symm, same.2.2.1.symm, same.2.2.2.symm⟩

end

section

variable {log : List (Action V F)} {t : Scopes V F}

theorem after_snoc (log : List (Action V F)) (a : Action V F) :
    after (log ++ [a]) = (after log).act a := by
  simp [after]

theorem made_append (log more : List (Action V F)) : made (log ++ more) = made log ++ made more :=
  List.filterMap_append

theorem variableIn?_snoc (log : List (Action V F)) (a : Action V F) (name : String) (i : Nat) :
    variableIn? (log ++ [a]) name i = (variableIn? log name i).or (a.variableFor? i name) := by
  simp [variableIn?, List.findSome?_append]

theorem functionIn?_snoc (log : List (Action V F)) (a : Action V F) (name : String)
    (arity i : Nat) :
    functionIn? (log ++ [a]) name arity i =
      (a.bindingFor? i name arity).or
        ((functionIn? log name arity i).or (a.functionFor? i name arity)) := by
  simp only [functionIn?, List.reverse_append, List.reverse_singleton, List.findSome?_append,
    List.findSome?_singleton, Option.or_assoc]

theorem around?_snoc (log : List (Action V F)) (a : Action V F) (i : Nat) :
    around? (log ++ [a]) i =
      if i = (made log).length then a.made?.join else around? log i := by
  rw [around?, made_append]
  rcases Nat.lt_trichotomy i (made log).length with old | rfl | beyond
  · rw [List.getElem?_append_left old, if_neg (Nat.ne_of_lt old), around?]
  · rw [List.getElem?_append_right (Nat.le_refl _), if_pos rfl, Nat.sub_self]
    cases a <;> rfl
  · have short : (made [a]).length ≤ 1 := List.length_filterMap_le _ [a]
    rw [List.getElem?_append_right (Nat.le_of_lt beyond), if_neg (Nat.ne_of_gt beyond), around?,
      List.getElem?_eq_none (by omega), List.getElem?_eq_none (Nat.le_of_lt beyond)]

theorem possible_snoc {scopes : Nat} {a : Action V F} :
    Possible scopes (log ++ [a]) ↔
      Possible scopes log ∧ a.Within (scopes + (made log).length) := by
  induction log generalizing scopes with
  | nil => simp [Possible, made]
  | cons b log ih =>
    have count : (made (b :: log)).length = (made [b]).length + (made log).length := by
      rw [← List.length_append, ← made_append, List.singleton_append]
    simp only [List.cons_append, Possible, ih, count, and_assoc, Nat.add_assoc]

structure Told (log : List (Action V F)) (t : Scopes V F) : Prop where
  next : t.next = (made log).length
  path : ∀ i, t.path i = i :: ((around? log i).map t.path).getD []
  older : ∀ i j, around? log i = some j → j < i
  ownVariable : ∀ i name, t.ownVariable? i name = variableIn? log name i
  ownFunction : ∀ i name arity, t.ownFunction? i name arity = functionIn? log name arity i

theorem told_nil : Told ([] : List (Action V F)) ⟨#[]⟩ := by
  constructor
  · rfl
  · intro i
    simp [path, scope?, around?, made]
  · simp [around?, made]
  · simp [ownVariable?, scope?, variableIn?]
  · simp [ownFunction?, scope?, functionIn?]

theorem around?_eq_none {i : Nat} (new : (made log).length ≤ i) : around? log i = none := by
  simp [around?, List.getElem?_eq_none new]

theorem Told.inside (told : Told log t) {i j : Nat} (outer : around? log i = some j) :
    i < t.next := by
  rw [told.next]
  refine Nat.lt_of_not_le fun beyond => ?_
  rw [around?_eq_none beyond] at outer
  cases outer

theorem path_snoc (told : Told log t) {a : Action V F} (within : a.Within t.next) (i : Nat) :
    (t.act a).path i = i :: ((around? (log ++ [a]) i).map (t.act a).path).getD [] := by
  rw [around?_snoc, ← told.next]
  cases inner : a.made?.join with
  | none =>
    have same : (if i = t.next then none else around? log i) = around? log i := by
      split
      · next new => rw [around?_eq_none (Nat.le_of_eq (told.next.symm.trans new.symm))]
      · rfl
    have paths : (t.act a).path = t.path := funext fun j => path_act_of_join_none inner
    rw [same, paths, told.path i]
  | some parent =>
    cases eq_child_of_join inner
    show (t.addChild parent).path i = _
    split
    · next new =>
      subst new
      rw [path_addChild_new, Option.map_some, Option.getD_some]
      exact congrArg (t.next :: ·) (path_addChild parent within).symm
    · next old =>
      have paths : (t.addChild parent).path i = t.path i := by
        simp only [path, scope?_addChild, if_neg old]
      rw [paths, told.path i]
      cases outer : around? log i with
      | none => rfl
      | some j =>
        have inside : j < t.next := Nat.lt_trans (told.older i j outer) (told.inside outer)
        simp only [Option.map_some, Option.getD_some]
        rw [path_act _ inside]

theorem told_snoc (told : Told log t) {a : Action V F} (within : a.Within t.next) :
    Told (log ++ [a]) (t.act a) := by
  constructor
  · rw [next_act, made_append, List.length_append, told.next]
  · exact path_snoc told within
  · intro i j outer
    rw [around?_snoc] at outer
    split at outer
    · next new =>
      cases eq_child_of_join outer
      rw [new, ← told.next]
      exact within
    · exact told.older i j outer
  · intro i name
    rw [ownVariable?_act a within, variableIn?_snoc, told.ownVariable]
  · intro i name arity
    rw [ownFunction?_act a within, functionIn?_snoc, told.ownFunction]

theorem told_after (possible : Possible 0 log) : Told log (after log) := by
  induction log using List.reverseRecOn with
  | nil => exact told_nil
  | append_singleton log a ih =>
    obtain ⟨before, within⟩ := possible_snoc.mp possible
    have told := ih before
    rw [Nat.zero_add, ← told.next] at within
    rw [after_snoc]
    exact told_snoc told within

section

variable {α : Type} {own : Nat → Option α}

theorem findSome?_path (told : Told log t) (own : Nat → Option α) (i : Nat) :
    (t.path i).findSome? own =
      (own i).or ((around? log i).bind fun j => (t.path j).findSome? own) := by
  rw [told.path i, List.findSome?_cons]
  cases own i with
  | some x => rfl
  | none => cases around? log i <;> rfl

theorem findSome?_path_iff_means (told : Told log t) (i : Nat) (x : α) :
    (t.path i).findSome? own = some x ↔ Means own (around? log) i x := by
  constructor
  · intro found
    induction i using Nat.strongRecOn with
    | ind i ih =>
      rw [findSome?_path told] at found
      cases here : own i with
      | some y =>
        rw [here] at found
        exact .here (here.trans found)
      | none =>
        rw [here, Option.none_or] at found
        obtain ⟨j, outer, found⟩ := Option.bind_eq_some_iff.mp found
        exact .outside here outer (ih j (told.older i j outer) found)
  · intro means
    induction means with
    | here own =>
      rw [findSome?_path told, own]
      rfl
    | outside none outer _ ih =>
      rw [findSome?_path told, none, outer]
      exact ih

theorem mem_path_of_reaches (told : Told log t) {i j : Nat}
    (reaches : Reaches own (around? log) i j) : i ∈ t.path j := by
  induction reaches with
  | here => exact List.mem_cons_self
  | outside _ outer _ ih =>
    rw [told.path, outer]
    exact List.mem_cons_of_mem _ ih

variable {later : Nat → Option α} {i : Nat} {x : α}

/-- What scope `i` has anew is found wherever the scope is reached. -/
theorem findSome?_path_of_reaches (told : Told log t) (new : later i = some x)
    (others : ∀ j, j ≠ i → later j = own j) {j : Nat} (reaches : Reaches own (around? log) i j) :
    (t.path j).findSome? later = some x := by
  induction reaches with
  | here => rw [findSome?_path told, new, Option.some_or]
  | @outside j k none outer _ ih =>
    rw [findSome?_path told]
    by_cases here : j = i
    · rw [here, new, Option.some_or]
    · rw [others j here, none, outer]
      exact ih

theorem findSome?_path_of_not_reaches (told : Told log t)
    (others : ∀ j, j ≠ i → later j = own j) {j : Nat} (apart : ¬ Reaches own (around? log) i j) :
    (t.path j).findSome? later = (t.path j).findSome? own := by
  induction j using Nat.strongRecOn with
  | ind j ih =>
    have different : j ≠ i := fun same => apart (same ▸ .here)
    rw [findSome?_path told, findSome?_path told, others j different]
    cases here : own j with
    | some y => rfl
    | none =>
      cases outer : around? log j with
      | none => rfl
      | some k =>
        exact ih k (told.older j k outer) fun reaches => apart (.outside here outer reaches)

end

theorem findVariable?_told (told : Told log t) (i : Nat) (name : String) :
    t.findVariable? i name = (t.path i).findSome? (variableIn? log name) :=
  findSome?_congr fun j _ => told.ownVariable j name

theorem findFunction?_told (told : Told log t) (i : Nat) (name : String) (arity : Nat) :
    t.findFunction? i name arity = (t.path i).findSome? (functionIn? log name arity) :=
  findSome?_congr fun j _ => told.ownFunction j name arity

theorem newVariable_bindVariable (told : Told log t) {i : Nat} (inside : i < t.next)
    (name : String) (v : V) : NewVariable log i name v t (t.bindVariable i name v) := by
  have others (j : Nat) (other : j ≠ i) :
      (t.bindVariable i name v).ownVariable? j name = variableIn? log name j := by
    rw [ownVariable?_bindVariable_elsewhere other.symm, told.ownVariable]
  constructor
  · intro j reaches
    rw [findVariable?, path_bindVariable]
    constructor
    · exact mem_path_of_reaches told reaches
    · apply findSome?_path_of_reaches told _ others reaches
      rw [ownVariable?_bindVariable inside, if_pos rfl]
  · intro j apart
    rw [findVariable?_told told, ← findSome?_path_of_not_reaches told others apart, findVariable?,
      path_bindVariable]
  · intro j other different
    simp only [findVariable?, path_bindVariable]
    refine findSome?_congr fun k _ => ?_
    by_cases here : i = k
    · rw [← here, ownVariable?_bindVariable inside, if_neg different]
    · exact ownVariable?_bindVariable_elsewhere here name other v
  · intro j other arity
    simp only [findFunction?, path_bindVariable, ownFunction?_bindVariable]

theorem newFunction_bindFunction (told : Told log t) {i : Nat} (inside : i < t.next)
    (name : String) (arity : Nat) (f : F) :
    NewFunction log i name arity f t (t.bindFunction i name arity f) := by
  have others (j : Nat) (other : j ≠ i) :
      (t.bindFunction i name arity f).ownFunction? j name arity = functionIn? log name arity j := by
    rw [ownFunction?_bindFunction, if_neg fun same => other same.1, told.ownFunction]
  constructor
  · intro j reaches
    rw [findFunction?, path_bindFunction]
    constructor
    · exact mem_path_of_reaches told reaches
    · apply findSome?_path_of_reaches told _ others reaches
      rw [ownFunction?_bindFunction, if_pos ⟨rfl, inside, rfl, rfl⟩]
  · intro j apart
    rw [findFunction?_told told, ← findSome?_path_of_not_reaches told others apart, findFunction?,
      path_bindFunction]
  · intro j other many different
    simp only [findFunction?, path_bindFunction]
    refine findSome?_congr fun k _ => ?_
    rw [ownFunction?_bindFunction, if_neg fun same => different same.2.2]
  · intro j other
    exact findVariable?_bindFunction i j name other arity f

end

structure Nested (log : List (Action V F)) : Prop where
  around : ∀ i, (after log).parent? i = around? log i
  outward : ∀ i j, j ∈ (after log).path i → j ≤ i
  findVariable : ∀ i name v,
    (after log).findVariable? i name = some v ↔
      Means (variableIn? log name) (around? log) i v
  findFunction : ∀ i name arity f,
    (after log).findFunction? i name arity = some f ↔
      Means (functionIn? log name arity) (around? log) i f
  defineVariable : ∀ i name v, i < (made log).length →
    if (variableIn? log name i).isSome then
      (after log).act? (.defineVariable i name v) = .error (.variable name) ∧
        after (log ++ [.defineVariable i name v]) = after log
    else
      (after log).act? (.defineVariable i name v) =
          .ok (after (log ++ [.defineVariable i name v])) ∧
        NewVariable log i name v (after log) (after (log ++ [.defineVariable i name v]))
  defineFunction : ∀ i name arity f, i < (made log).length →
    if (functionIn? log name arity i).isSome then
      (after log).act? (.defineFunction i name arity f) = .error (.function name arity) ∧
        after (log ++ [.defineFunction i name arity f]) = after log
    else
      (after log).act? (.defineFunction i name arity f) =
          .ok (after (log ++ [.defineFunction i name arity f])) ∧
        NewFunction log i name arity f (after log) (after (log ++ [.defineFunction i name arity f]))
  bindFunction : ∀ i name arity f, i < (made log).length →
    (after log).act? (.bindFunction i name arity f) =
        .ok (after (log ++ [.bindFunction i name arity f])) ∧
      NewFunction log i name arity f (after log) (after (log ++ [.bindFunction i name arity f]))

section

variable {log : List (Action V F)} {t : Scopes V F}

theorem defineVariable_told (told : Told log t) {i : Nat} (inside : i < t.next) (name : String)
    (v : V) :
    if (variableIn? log name i).isSome then
      t.act? (.defineVariable i name v) = .error (.variable name) ∧
        t.act (.defineVariable i name v) = t
    else
      t.act? (.defineVariable i name v) = .ok (t.act (.defineVariable i name v)) ∧
        NewVariable log i name v t (t.act (.defineVariable i name v)) := by
  rw [act_defineVariable, act?, Scopes.defineVariable, variableClash?, told.ownVariable]
  split
  · exact ⟨rfl, rfl⟩
  · exact ⟨rfl, newVariable_bindVariable told inside name v⟩

theorem defineFunction_told (told : Told log t) {i : Nat} (inside : i < t.next) (name : String)
    (arity : Nat) (f : F) :
    if (functionIn? log name arity i).isSome then
      t.act? (.defineFunction i name arity f) = .error (.function name arity) ∧
        t.act (.defineFunction i name arity f) = t
    else
      t.act? (.defineFunction i name arity f) = .ok (t.act (.defineFunction i name arity f)) ∧
        NewFunction log i name arity f t (t.act (.defineFunction i name arity f)) := by
  rw [act_defineFunction, act?, Scopes.defineFunction, functionClash?, told.ownFunction]
  split
  · exact ⟨rfl, rfl⟩
  · exact ⟨rfl, newFunction_bindFunction told inside name arity f⟩

theorem outward_told (told : Told log t) {i j : Nat} (member : j ∈ t.path i) : j ≤ i := by
  induction i using Nat.strongRecOn with
  | ind i ih =>
    rw [told.path] at member
    rcases List.mem_cons.mp member with rfl | member
    · exact Nat.le_refl _
    · cases outer : around? log i with
      | none => simp [outer] at member
      | some k =>
        rw [outer] at member
        have older := told.older i k outer
        exact Nat.le_trans (ih k older member) (Nat.le_of_lt older)

theorem parent?_told (told : Told log t) (i : Nat) : t.parent? i = around? log i := by
  rw [parent?, told.path]
  cases outer : around? log i with
  | none => rfl
  | some j => exact (congrArg List.head? (told.path j)).trans rfl

end

/-- However the operations come one after another, they make nested environments. -/
theorem scopes_nested (log : List (Action V F)) (possible : Possible 0 log) : Nested log := by
  have told := told_after possible
  constructor
  · exact parent?_told told
  · exact fun _ _ => outward_told told
  · intro i name v
    rw [findVariable?_told told, findSome?_path_iff_means told]
  · intro i name arity f
    rw [findFunction?_told told, findSome?_path_iff_means told]
  · intro i name v inside
    rw [after_snoc]
    exact defineVariable_told told (told.next ▸ inside) name v
  · intro i name arity f inside
    rw [after_snoc]
    exact defineFunction_told told (told.next ▸ inside) name arity f
  · intro i name arity f inside
    rw [after_snoc]
    exact ⟨rfl, newFunction_bindFunction told (told.next ▸ inside) name arity f⟩

def lateLog : List (Action Nat Nat) :=
  [.root, .child 0, .child 0, .child 1, .defineVariable 0 "x" 1, .defineVariable 1 "x" 2,
    .defineVariable 1 "x" 3]

theorem scopes_nested_late :
    (after lateLog).findVariable? 3 "x" = some 2 ∧ (after lateLog).findVariable? 2 "x" = some 1 ∧
      (after lateLog).findFunction? 2 "x" 0 = none := by
  have nested := scopes_nested lateLog (by decide)
  refine ⟨(nested.findVariable 3 "x" 2).mpr ?_, (nested.findVariable 2 "x" 1).mpr ?_, by decide⟩
  · exact .outside (j := 1) (by decide) (by decide) (.here (by decide))
  · exact .outside (j := 0) (by decide) (by decide) (.here (by decide))

end Scopes

end Plc

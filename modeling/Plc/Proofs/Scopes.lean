import Plc.Scope

/-!
What the operations on a table of scopes change and what they leave. A new scope changes none that
there are; a definition changes the bindings of one scope. On a well-founded table, where the scopes
around a scope are older than it, this settles every lookup.
-/

namespace Plc

namespace Scope

/-- Names that a list lacks, its end lacks too. -/
theorem lookup_of_append {α β : Type} [BEq α] {front back : List (α × β)} {key : α}
    (absent : (front ++ back).lookup key = none) : back.lookup key = none := by
  rw [List.lookup_append, Option.or_eq_none_iff] at absent
  exact absent.2

/-- What the end of a list says of a name, a front that has only other names does not hide. -/
theorem lookup_behind {α β : Type} [BEq α] [LawfulBEq α] {front back : List (α × β)} {key : α}
    {v : β} (free : ∀ p ∈ front, back.lookup p.1 = none) (found : back.lookup key = some v) :
    (front ++ back).lookup key = some v := by
  have absent : front.lookup key = none := by
    rw [List.lookup_eq_none_iff]
    intro p member
    have other : key ≠ p.1 := by
      rintro rfl
      simp [free p member] at found
    simpa using other
  rw [List.lookup_append, absent, Option.none_or, found]

end Scope

namespace Scopes

variable {V F : Type}

def Founded (t : Scopes V F) : Prop := ∀ i s, t.scope? i = some s → ∀ j ∈ s.enclosing, j < i

section

variable {t : Scopes V F}

theorem lt_next {i : Nat} {s : Scope V F} (found : t.scope? i = some s) : i < t.next :=
  (Array.getElem?_eq_some_iff.mp found).1

theorem scope?_of_lt {i : Nat} (inside : i < t.next) : ∃ s, t.scope? i = some s :=
  ⟨t.table[i], Array.getElem?_eq_getElem inside⟩

@[simp] theorem next_addChild (parent : Nat) : (t.addChild parent).next = t.next + 1 := by
  simp [addChild, next]

theorem scope?_addChild (parent i : Nat) :
    (t.addChild parent).scope? i =
      if i = t.next then some ⟨t.path parent, [], []⟩ else t.scope? i := by
  simp only [addChild, scope?, next, Array.getElem?_push]
  rfl

@[simp] theorem next_bindVariable (i : Nat) (name : String) (v : V) :
    (t.bindVariable i name v).next = t.next := by
  simp [bindVariable, next]

theorem scope?_bindVariable (i j : Nat) (name : String) (v : V) :
    (t.bindVariable i name v).scope? j =
      if i = j then (t.scope? j).map fun s => { s with bindings := (name, v) :: s.bindings }
      else t.scope? j := by
  simp only [bindVariable, scope?, Array.getElem?_modify]

@[simp] theorem next_bindFunction (i : Nat) (name : String) (arity : Nat) (f : F) :
    (t.bindFunction i name arity f).next = t.next := by
  simp [bindFunction, next]

theorem scope?_bindFunction (i j : Nat) (name : String) (arity : Nat) (f : F) :
    (t.bindFunction i name arity f).scope? j =
      if i = j then
        (t.scope? j).map fun s => { s with functions := ((name, arity), f) :: s.functions }
      else t.scope? j := by
  simp only [bindFunction, scope?, Array.getElem?_modify]

theorem path_of_scope? {i : Nat} {s : Scope V F} (found : t.scope? i = some s) :
    t.path i = i :: s.enclosing := by
  simp [path, found]

theorem path_addChild_new (parent : Nat) :
    (t.addChild parent).path t.next = t.next :: t.path parent := by
  simp [path, scope?_addChild]

theorem path_addChild {i : Nat} (parent : Nat) (inside : i < t.next) :
    (t.addChild parent).path i = t.path i := by
  simp only [path, scope?_addChild, if_neg (Nat.ne_of_lt inside)]

@[simp] theorem path_bindVariable (i j : Nat) (name : String) (v : V) :
    (t.bindVariable i name v).path j = t.path j := by
  simp only [path, scope?_bindVariable]
  split
  · cases t.scope? j <;> rfl
  · rfl

@[simp] theorem path_bindFunction (i j : Nat) (name : String) (arity : Nat) (f : F) :
    (t.bindFunction i name arity f).path j = t.path j := by
  simp only [path, scope?_bindFunction]
  split
  · cases t.scope? j <;> rfl
  · rfl

theorem path_le (founded : t.Founded) {i j : Nat} (inside : i < t.next) (member : j ∈ t.path i) :
    j ≤ i := by
  obtain ⟨s, found⟩ := scope?_of_lt inside
  rw [path_of_scope? found] at member
  rcases List.mem_cons.mp member with rfl | around
  · exact Nat.le_refl _
  · exact Nat.le_of_lt (founded i s found j around)

theorem path_lt (founded : t.Founded) {i j : Nat} (inside : i < t.next) (member : j ∈ t.path i) :
    j < t.next := Nat.lt_of_le_of_lt (path_le founded inside member) inside

theorem lookup_of_variableClash? {i : Nat} {s : Scope V F} {name : String}
    (found : t.scope? i = some s) (free : t.variableClash? i name = none) :
    s.bindings.lookup name = none := by
  unfold variableClash? ownVariable? at free
  rw [found, Option.bind_some] at free
  cases known : s.bindings.lookup name with
  | none => rfl
  | some v => simp [known] at free

theorem lookup_of_functionClash? {i : Nat} {s : Scope V F} {name : String} {arity : Nat}
    (found : t.scope? i = some s) (free : t.functionClash? i name arity = none) :
    s.functions.lookup (name, arity) = none := by
  unfold functionClash? ownFunction? at free
  rw [found, Option.bind_some] at free
  cases known : s.functions.lookup (name, arity) with
  | none => rfl
  | some f => simp [known] at free

theorem founded_addChild (founded : t.Founded) {parent : Nat} (inside : parent < t.next) :
    (t.addChild parent).Founded := by
  intro i s found j around
  rw [scope?_addChild] at found
  split at found
  · next new =>
    cases found
    rw [new]
    exact path_lt founded inside around
  · exact founded i s found j around

theorem founded_bindVariable (founded : t.Founded) (i : Nat) (name : String) (v : V) :
    (t.bindVariable i name v).Founded := by
  intro j s found k around
  rw [scope?_bindVariable] at found
  split at found
  · obtain ⟨old, before, rfl⟩ := Option.map_eq_some_iff.mp found
    exact founded j old before k around
  · exact founded j s found k around

theorem founded_bindFunction (founded : t.Founded) (i : Nat) (name : String) (arity : Nat) (f : F) :
    (t.bindFunction i name arity f).Founded := by
  intro j s found k around
  rw [scope?_bindFunction] at found
  split at found
  · obtain ⟨old, before, rfl⟩ := Option.map_eq_some_iff.mp found
    exact founded j old before k around
  · exact founded j s found k around

theorem founded_single : (single : Scopes V F).Founded := by
  intro i s found j around
  simp only [single, scope?, List.getElem?_toArray] at found
  match i, found with
  | 0, found =>
    cases found
    simp at around

@[simp] theorem ownFunction?_single (i : Nat) (name : String) (arity : Nat) :
    (single : Scopes V F).ownFunction? i name arity = none := by
  simp only [ownFunction?, single, scope?, List.getElem?_toArray]
  match i with
  | 0 => rfl
  | _ + 1 => rfl

end

section

variable {t u v : Scopes V F} {i j : Nat}

structure Extends (t u : Scopes V F) : Prop where
  next : t.next ≤ u.next
  same : ∀ j < t.next, u.scope? j = t.scope? j

/-- The scopes of `t` are those of `u`, but for the variables that scope `i` defines. -/
structure Later (i : Nat) (t u : Scopes V F) : Prop where
  next : t.next ≤ u.next
  others : ∀ j < t.next, j ≠ i → u.scope? j = t.scope? j
  here : ∀ s, t.scope? i = some s →
    ∃ bindings, u.scope? i = some { s with bindings }

theorem findSome?_congr {α β : Type} {f g : α → Option β} {as : List α}
    (same : ∀ a ∈ as, f a = g a) : as.findSome? f = as.findSome? g := by
  induction as with
  | nil => rfl
  | cons a as ih =>
    simp only [List.findSome?_cons, same a List.mem_cons_self,
      ih fun b member => same b (List.mem_cons_of_mem a member)]

theorem extends_refl (t : Scopes V F) : t.Extends t := ⟨Nat.le_refl _, fun _ _ => rfl⟩

theorem extends_trans (first : t.Extends u) (second : u.Extends v) : t.Extends v := by
  refine ⟨Nat.le_trans first.next second.next, fun j inside => ?_⟩
  rw [second.same j (Nat.lt_of_lt_of_le inside first.next), first.same j inside]

theorem extends_addChild (t : Scopes V F) (parent : Nat) : t.Extends (t.addChild parent) := by
  refine ⟨by simp, fun j inside => ?_⟩
  rw [scope?_addChild, if_neg (Nat.ne_of_lt inside)]

theorem later_of_extends (same : t.Extends u) (inside : i < t.next) : t.Later i u := by
  refine ⟨same.next, fun j inside _ => same.same j inside, fun s found => ⟨s.bindings, ?_⟩⟩
  rw [same.same i inside, found]

theorem later_trans (first : t.Later i u) (second : u.Later i v) : t.Later i v := by
  refine ⟨Nat.le_trans first.next second.next, fun j inside other => ?_, fun s found => ?_⟩
  · rw [second.others j (Nat.lt_of_lt_of_le inside first.next) other, first.others j inside other]
  · obtain ⟨_, between⟩ := first.here s found
    obtain ⟨bindings, after⟩ := second.here _ between
    exact ⟨bindings, after⟩

/-- What is done in a new scope leaves all scopes that there were. -/
theorem extends_of_child {parent : Nat} (later : (t.addChild parent).Later t.next u) :
    t.Extends u := by
  have more := later.next
  rw [next_addChild] at more
  refine ⟨by omega, fun j inside => ?_⟩
  rw [later.others j (by simp; omega) (Nat.ne_of_lt inside), scope?_addChild,
    if_neg (Nat.ne_of_lt inside)]

theorem later_bindVariable (t : Scopes V F) (i : Nat) (name : String) (v : V) :
    t.Later i (t.bindVariable i name v) := by
  refine ⟨by simp, fun j _ other => ?_, fun s found => ⟨(name, v) :: s.bindings, ?_⟩⟩
  · rw [scope?_bindVariable, if_neg (Ne.symm other)]
  · rw [scope?_bindVariable, if_pos rfl, found]
    rfl

theorem path_of_later (later : t.Later i u) (inside : j < t.next) : u.path j = t.path j := by
  by_cases here : j = i
  · subst here
    obtain ⟨s, found⟩ := scope?_of_lt inside
    obtain ⟨_, after⟩ := later.here s found
    rw [path_of_scope? found, path_of_scope? after]
  · simp only [path, later.others j inside here]

theorem ownFunction?_of_later (later : t.Later i u) (inside : j < t.next) (name : String)
    (arity : Nat) : u.ownFunction? j name arity = t.ownFunction? j name arity := by
  by_cases here : j = i
  · subst here
    obtain ⟨s, found⟩ := scope?_of_lt inside
    obtain ⟨_, after⟩ := later.here s found
    simp only [ownFunction?, found, after, Option.bind_some]
  · simp only [ownFunction?, later.others j inside here]

theorem findFunction?_of_later (founded : t.Founded) (later : t.Later i u) (inside : j < t.next)
    (name : String) (arity : Nat) :
    u.findFunction? j name arity = t.findFunction? j name arity := by
  unfold findFunction?
  rw [path_of_later later inside]
  exact findSome?_congr fun k member =>
    ownFunction?_of_later later (path_lt founded inside member) name arity

theorem ownVariable?_of_extends (same : t.Extends u) (inside : j < t.next) (name : String) :
    u.ownVariable? j name = t.ownVariable? j name := by
  simp only [ownVariable?, same.same j inside]

theorem findVariable?_of_extends (founded : t.Founded) (same : t.Extends u) (inside : j < t.next)
    (name : String) : u.findVariable? j name = t.findVariable? j name := by
  unfold findVariable?
  rw [path_of_later (later_of_extends same inside) inside]
  exact findSome?_congr fun k member =>
    ownVariable?_of_extends same (path_lt founded inside member) name

theorem findFunction?_of_extends (founded : t.Founded) (same : t.Extends u) (inside : j < t.next)
    (name : String) (arity : Nat) : u.findFunction? j name arity = t.findFunction? j name arity :=
  findFunction?_of_later founded (later_of_extends same inside) inside name arity

theorem ownVariable?_addChild_new (parent : Nat) (name : String) :
    (t.addChild parent).ownVariable? t.next name = none := by
  simp [ownVariable?, scope?_addChild]

theorem findVariable?_addChild_new (founded : t.Founded) {parent : Nat} (inside : parent < t.next)
    (name : String) :
    (t.addChild parent).findVariable? t.next name = t.findVariable? parent name := by
  rw [← findVariable?_of_extends founded (extends_addChild t parent) inside]
  unfold findVariable?
  rw [path_addChild_new, path_addChild parent inside, List.findSome?_cons,
    ownVariable?_addChild_new]

theorem findFunction?_addChild_new (founded : t.Founded) {parent : Nat} (inside : parent < t.next)
    (name : String) (arity : Nat) :
    (t.addChild parent).findFunction? t.next name arity = t.findFunction? parent name arity := by
  have none : (t.addChild parent).ownFunction? t.next name arity = none := by
    simp [ownFunction?, scope?_addChild]
  rw [← findFunction?_of_extends founded (extends_addChild t parent) inside]
  unfold findFunction?
  rw [path_addChild_new, path_addChild parent inside, List.findSome?_cons, none]

theorem ownVariable?_bindVariable (inside : i < t.next) (name other : String) (v : V) :
    (t.bindVariable i name v).ownVariable? i other =
      if other = name then some v else t.ownVariable? i other := by
  obtain ⟨s, found⟩ := scope?_of_lt inside
  simp only [ownVariable?, scope?_bindVariable, if_true, found, Option.map_some, Option.bind_some,
    List.lookup_cons]
  by_cases same : other = name
  · simp [same]
  · simp [same, beq_false_of_ne same]

@[simp] theorem ownFunction?_addChild (parent j : Nat) (name : String) (arity : Nat) :
    (t.addChild parent).ownFunction? j name arity = t.ownFunction? j name arity := by
  simp only [ownFunction?, scope?_addChild]
  split
  · next new => simp [new, scope?, next]
  · rfl

@[simp] theorem ownFunction?_bindVariable (i j : Nat) (name other : String) (v : V) (arity : Nat) :
    (t.bindVariable i name v).ownFunction? j other arity = t.ownFunction? j other arity := by
  simp only [ownFunction?, scope?_bindVariable]
  split
  · cases t.scope? j <;> rfl
  · rfl

theorem ownFunction?_bindFunction (i j : Nat) (name other : String) (arity many : Nat) (f : F) :
    (t.bindFunction i name arity f).ownFunction? j other many =
      if j = i ∧ j < t.next ∧ other = name ∧ many = arity then some f
      else t.ownFunction? j other many := by
  simp only [ownFunction?, scope?_bindFunction]
  by_cases here : i = j
  · subst here
    cases found : t.scope? i with
    | none =>
      have outside : ¬ i < t.next := fun inside => by
        obtain ⟨s, there⟩ := scope?_of_lt inside
        simp [found] at there
      simp [outside]
    | some s =>
      have inside := lt_next found
      by_cases same : (other, many) = (name, arity)
      · simp only [Prod.mk.injEq] at same
        simp [same, inside]
      · simp only [Prod.mk.injEq] at same
        have differ : ((other, many) == (name, arity)) = false := by simpa using same
        simp [List.lookup_cons, differ, same]
  · simp [here, Ne.symm here]

theorem findFunction?_bindFunction (inside : i < t.next) (name other : String) (arity many : Nat)
    (f : F) : (t.bindFunction i name arity f).findFunction? i other many =
      if other = name ∧ many = arity then some f else t.findFunction? i other many := by
  simp only [findFunction?, path_bindFunction, ownFunction?_bindFunction]
  by_cases same : other = name ∧ many = arity
  · have first : t.path i = i :: (t.path i).tail := rfl
    rw [first, List.findSome?_cons]
    simp only [same, inside, and_self, if_true]
  · simp only [same, and_false, if_false]

theorem findVariable?_bindVariable (founded : t.Founded) (inside : i < t.next)
    (name other : String) (v : V) :
    (t.bindVariable i name v).findVariable? i other =
      if other = name then some v else t.findVariable? i other := by
  obtain ⟨s, found⟩ := scope?_of_lt inside
  have around : s.enclosing.findSome? (fun j => (t.bindVariable i name v).ownVariable? j other) =
      s.enclosing.findSome? fun j => t.ownVariable? j other := by
    refine findSome?_congr fun j member => ?_
    have older := founded i s found j member
    simp only [ownVariable?, scope?_bindVariable, if_neg (Nat.ne_of_gt older)]
  simp only [findVariable?, path_bindVariable, path_of_scope? found, List.findSome?_cons, around,
    ownVariable?_bindVariable inside]
  by_cases same : other = name <;> simp [same]

@[simp] theorem findVariable?_bindFunction (i j : Nat) (name other : String) (arity : Nat) (f : F) :
    (t.bindFunction i name arity f).findVariable? j other = t.findVariable? j other := by
  unfold findVariable?
  rw [path_bindFunction]
  refine findSome?_congr fun k _ => ?_
  simp only [ownVariable?, scope?_bindFunction]
  split
  · cases t.scope? k <;> rfl
  · rfl

theorem findVariable?_bindVariable_outer (founded : t.Founded) (inside : i < t.next)
    (deeper : i < j) (name other : String) (v : V) :
    (t.bindVariable j name v).findVariable? i other = t.findVariable? i other := by
  unfold findVariable?
  rw [path_bindVariable]
  refine findSome?_congr fun k member => ?_
  have outer := path_le founded inside member
  simp only [ownVariable?, scope?_bindVariable, if_neg (show j ≠ k by omega)]

end

end Scopes

end Plc

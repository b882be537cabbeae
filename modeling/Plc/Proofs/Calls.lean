import Plc.Proofs.Parts
import Plc.Proofs.Scopes
import Plc.Proofs.Watch.Runs

/-!
What calls find. While functions run, new scopes come and variables are defined, but no scope gets a
function by it. So a call finds what the table said when the running began, in the scope of that
table in which the call stands.
-/

namespace Plc

namespace Scopes

variable {V F : Type} {t u : Scopes V F} {a c : Nat}

structure Quiet (t u : Scopes V F) : Prop where
  next : t.next ≤ u.next
  path : ∀ j < t.next, u.path j = t.path j
  old : ∀ j < t.next, ∀ name arity, u.ownFunction? j name arity = t.ownFunction? j name arity
  new : ∀ j, t.next ≤ j → ∀ name arity, u.ownFunction? j name arity = none

theorem quiet_refl (t : Scopes V F) : t.Quiet t := by
  refine ⟨Nat.le_refl _, fun _ _ => rfl, fun _ _ _ _ => rfl, fun j outside name arity => ?_⟩
  cases found : t.scope? j with
  | none => simp [ownFunction?, found]
  | some s => exact absurd (lt_next found) (Nat.not_lt.mpr outside)

theorem quiet_addChild (quiet : t.Quiet u) (parent : Nat) : t.Quiet (u.addChild parent) := by
  constructor
  · rw [next_addChild]
    exact Nat.le_succ_of_le quiet.next
  · intro j inside
    rw [path_addChild parent (Nat.lt_of_lt_of_le inside quiet.next), quiet.path j inside]
  · intro j inside name arity
    rw [ownFunction?_addChild, quiet.old j inside]
  · intro j outside name arity
    rw [ownFunction?_addChild, quiet.new j outside]

theorem quiet_bindVariable (quiet : t.Quiet u) (i : Nat) (name : String) (v : V) :
    t.Quiet (u.bindVariable i name v) := by
  constructor
  · rw [next_bindVariable]
    exact quiet.next
  · intro j inside
    rw [path_bindVariable, quiet.path j inside]
  · intro j inside other arity
    rw [ownFunction?_bindVariable, quiet.old j inside]
  · intro j outside other arity
    rw [ownFunction?_bindVariable, quiet.new j outside]

/-- A function that both tables get is no difference between them. -/
theorem quiet_bindFunction (quiet : t.Quiet u) {i : Nat} (inside : i < t.next) (name : String)
    (arity : Nat) (f : F) :
    (t.bindFunction i name arity f).Quiet (u.bindFunction i name arity f) := by
  have there : i < u.next := Nat.lt_of_lt_of_le inside quiet.next
  constructor
  · rw [next_bindFunction, next_bindFunction]
    exact quiet.next
  · intro j old
    rw [next_bindFunction] at old
    rw [path_bindFunction, path_bindFunction, quiet.path j old]
  · intro j old other many
    rw [next_bindFunction] at old
    simp only [ownFunction?_bindFunction, quiet.old j old, old, Nat.lt_of_lt_of_le old quiet.next]
  · intro j outside other many
    rw [next_bindFunction] at outside
    have elsewhere : j ≠ i := by omega
    simp only [ownFunction?_bindFunction, elsewhere, false_and, if_false, quiet.new j outside]

/-- Scope `c` of `u` is scope `a` of `t`, or lies in it with none but new scopes between them. -/
def LiesIn (t u : Scopes V F) (c a : Nat) : Prop :=
  ∃ inner, u.path c = inner ++ t.path a ∧ ∀ j ∈ inner, t.next ≤ j

theorem liesIn_self (quiet : t.Quiet u) (inside : a < t.next) : t.LiesIn u a a :=
  ⟨[], quiet.path a inside, nofun⟩

theorem liesIn_child (quiet : t.Quiet u) (lies : t.LiesIn u c a) :
    t.LiesIn (u.addChild c) u.next a := by
  obtain ⟨inner, path, new⟩ := lies
  refine ⟨u.next :: inner, ?_, ?_⟩
  · rw [path_addChild_new, path, List.cons_append]
  · intro j member
    rcases List.mem_cons.mp member with rfl | member
    · exact quiet.next
    · exact new j member

theorem findFunction?_liesIn (founded : t.Founded) (quiet : t.Quiet u) (inside : a < t.next)
    (lies : t.LiesIn u c a) (name : String) (arity : Nat) :
    u.findFunction? c name arity = t.findFunction? a name arity := by
  obtain ⟨inner, path, new⟩ := lies
  have nothing : inner.findSome? (fun j => u.ownFunction? j name arity) = none :=
    List.findSome?_eq_none_iff.mpr fun j member => quiet.new j (new j member) name arity
  unfold findFunction?
  rw [path, List.findSome?_append, nothing, Option.none_or]
  exact findSome?_congr fun j member => quiet.old j (path_lt founded inside member) name arity

end Scopes

open Watched

/-- A table whose functions are settled, and the expressions that may be evaluated in scopes that
lie in one of its scopes. The functions of the table keep to these. -/
structure Stage where
  table : Scopes Nat Callable
  founded : table.Founded
  code : Nat → Expr → Prop
  bodies : ∀ i name arity d c, table.ownFunction? i name arity = some (.function d c) →
    c < table.next ∧ ∀ s ∈ Stmt.allParts d.body, ∀ e ∈ s.own, ∀ x ∈ e.parts, code c x

namespace Stage

variable (S : Stage)

def Covers (a : Nat) (e : Expr) : Prop := ∀ x ∈ e.parts, S.code a x

def CoversStmt (a : Nat) (s : Stmt) : Prop := ∀ t ∈ s.parts, ∀ e ∈ t.own, S.Covers a e

def CoversBlock (a : Nat) (ss : List Stmt) : Prop :=
  ∀ t ∈ Stmt.allParts ss, ∀ e ∈ t.own, S.Covers a e

def Knows : Callable → Prop
  | .print => True
  | .function d c => c < S.table.next ∧ S.CoversBlock c d.body

structure Placed (a : Nat) (m : Machine) : Prop where
  quiet : S.table.Quiet m.scopes
  inside : a < S.table.next
  here : m.current < m.scopes.next
  lies : S.table.LiesIn m.scopes m.current a

/-- A call at this moment is one of its scope, and it runs what its name means there. -/
def Resolves (x : Moment) : Prop :=
  ∀ e f, x.event = .called e f → ∃ a, S.Placed a x.machine ∧ S.code a e ∧
    ∃ name args signature slot, e = .call name args signature slot ∧
      S.table.findFunction? a name args.length = some f

structure Goes (h k : History) : Prop where
  quiet : S.table.Quiet k.machine.scopes
  current : k.machine.current = h.machine.current
  next : h.machine.scopes.next ≤ k.machine.scopes.next
  path : ∀ j < h.machine.scopes.next, k.machine.scopes.path j = h.machine.scopes.path j
  moments : ∀ x ∈ k.moments, x ∈ h.moments ∨ S.Resolves x

variable {S} {h k l : History} {a : Nat}

theorem placed_at {a : Nat} {m : Machine} (quiet : S.table.Quiet m.scopes)
    (inside : a < S.table.next) (here : m.current = a) : S.Placed a m := by
  subst here
  constructor
  · exact quiet
  · exact inside
  · exact Nat.lt_of_lt_of_le inside quiet.next
  · exact Scopes.liesIn_self quiet inside

theorem knows_of_found {a : Nat} {name : String} {arity : Nat} {f : Callable}
    (found : S.table.findFunction? a name arity = some f) : S.Knows f := by
  obtain ⟨i, _, own⟩ := List.exists_of_findSome?_eq_some found
  cases f with
  | print => trivial
  | function d c => exact S.bodies i name arity d c own

theorem goes_refl (quiet : S.table.Quiet h.machine.scopes) : S.Goes h h :=
  ⟨quiet, rfl, Nat.le_refl _, fun _ _ => rfl, fun _ => .inl⟩

theorem goes_trans (first : S.Goes h k) (second : S.Goes k l) : S.Goes h l := by
  refine ⟨second.quiet, second.current.trans first.current, Nat.le_trans first.next second.next,
    fun j inside => ?_, fun x member => ?_⟩
  · rw [second.path j (Nat.lt_of_lt_of_le inside first.next), first.path j inside]
  · rcases second.moments x member with between | resolves
    · exact first.moments x between
    · exact .inr resolves

theorem placed_of_goes (placed : S.Placed a h.machine) (goes : S.Goes h k) :
    S.Placed a k.machine := by
  refine ⟨goes.quiet, placed.inside, ?_, ?_⟩
  · rw [goes.current]
    exact Nat.lt_of_lt_of_le placed.here goes.next
  · obtain ⟨inner, path, new⟩ := placed.lies
    refine ⟨inner, ?_, new⟩
    rw [goes.current, goes.path _ placed.here, path]

/-- The machine comes to a state with the same scopes but for new variables. -/
theorem goes_come (e : Event) {m : Machine} (quiet : S.table.Quiet m.scopes)
    (current : m.current = h.machine.current) (next : m.scopes.next = h.machine.scopes.next)
    (path : ∀ j, m.scopes.path j = h.machine.scopes.path j) (resolves : S.Resolves ⟨e, m⟩) :
    S.Goes h (h.come e m) := by
  refine ⟨quiet, current, Nat.le_of_eq next.symm, fun j _ => path j, fun x member => ?_⟩
  rcases List.mem_cons.mp member with rfl | before
  · exact .inr resolves
  · exact .inl before

theorem resolves_other {e : Event} {m : Machine} (other : ∀ x f, e ≠ .called x f) :
    S.Resolves ⟨e, m⟩ := fun x f is => absurd is (other x f)

variable {α β : Type} {good : α → Prop}

def Finds (S : Stage) (h : History) (act : Watched α) (good : α → Prop) : Prop :=
  Runs S.Goes (fun _ _ => True) h act fun a _ => good a

theorem finds_pure {b : α} (placed : S.Placed a h.machine) (value : good b) :
    S.Finds h (pure b) good := runs_pure (goes_refl placed.quiet) value

theorem finds_bind {act : Watched α} {next : α → Watched β} {result : β → Prop}
    (placed : S.Placed a h.machine) (first : S.Finds h act good)
    (rest : ∀ b k, S.Placed a k.machine → good b → S.Finds k (next b) result) :
    S.Finds h (act >>= next) result :=
  runs_bind goes_trans first fun b k goes value => rest b k (placed_of_goes placed goes) value

def Aside (act : Eval α) : Prop :=
  ∀ m, match act m with
    | .ok _ n | .error _ n => n.scopes = m.scopes ∧ n.current = m.current

theorem aside_of_looks {act : Eval α} (looks : Looks act) : Aside act := by
  intro m
  rcases looks m with ⟨b, ends⟩ | ⟨e, ends⟩ <;> rw [ends] <;> exact ⟨rfl, rfl⟩

theorem goes_aside (placed : S.Placed a h.machine) (e : Event) {m : Machine}
    (scopes : m.scopes = h.machine.scopes) (current : m.current = h.machine.current)
    (resolves : S.Resolves ⟨e, m⟩) : S.Goes h (h.come e m) :=
  goes_come e (scopes ▸ placed.quiet) current (by rw [scopes]) (fun j => by rw [scopes]) resolves

theorem finds_step {act : Eval α} (placed : S.Placed a h.machine) (aside : Aside act) :
    S.Finds h (step act) fun _ => True := by
  have leaves := aside h.machine
  refine runs_step ?_
  cases ended : act h.machine with
  | ok b m =>
    rw [ended] at leaves
    exact ⟨goes_aside placed .reached leaves.1 leaves.2 (resolves_other nofun), trivial⟩
  | error e m =>
    rw [ended] at leaves
    exact ⟨goes_aside placed .reached leaves.1 leaves.2 (resolves_other nofun), trivial⟩

theorem finds_look {act : Eval α} (placed : S.Placed a h.machine) (looks : Looks act)
    (value : ∀ b, act h.machine = .ok b h.machine → good b) : S.Finds h (step act) good :=
  runs_look looks (goes_aside placed .reached rfl rfl (resolves_other nofun)) value
    fun _ _ => trivial

theorem finds_note {e : Event} (placed : S.Placed a h.machine)
    (resolves : S.Resolves ⟨e, h.machine⟩) : S.Finds h (note e) fun _ => True :=
  ⟨goes_aside placed e rfl rfl resolves, trivial⟩

/-- What runs in a new scope in `parent` is placed where `parent` lies. -/
theorem finds_inChildOf {parent b : Nat} {act : Watched α} (placed : S.Placed a h.machine)
    (inside : b < S.table.next) (lies : S.table.LiesIn h.machine.scopes parent b)
    (body : ∀ k, S.Placed b k.machine → S.Finds k act good) :
    S.Finds h (inChildOf parent act) good := by
  have entered : S.Placed b (h.machine.entered parent) := by
    refine ⟨Scopes.quiet_addChild placed.quiet parent, inside, ?_, ?_⟩
    · simp [Machine.entered]
    · exact Scopes.liesIn_child placed.quiet lies
  have back : ∀ k, S.Goes (h.reach (h.machine.entered parent)) k →
      S.Goes h (k.reach (k.machine.backIn h.machine.current)) := by
    intro k goes
    have more : h.machine.scopes.next ≤ k.machine.scopes.next := by
      have grown : (h.machine.scopes.addChild parent).next ≤ k.machine.scopes.next := goes.next
      rw [Scopes.next_addChild] at grown
      omega
    refine ⟨goes.quiet, rfl, more, fun j old => ?_, fun x member => ?_⟩
    · have later : j < (h.machine.scopes.addChild parent).next := by
        rw [Scopes.next_addChild]
        omega
      exact (goes.path j later).trans (Scopes.path_addChild parent old)
    · rcases List.mem_cons.mp member with rfl | member
      · exact .inr (resolves_other nofun)
      · rcases goes.moments x member with before | resolves
        · rcases List.mem_cons.mp before with rfl | before
          · exact .inr (resolves_other nofun)
          · exact .inl before
        · exact .inr resolves
  exact runs_inChildOf (body _ entered) back (fun _ _ _ => trivial) fun b k _ value => value

theorem finds_inChild {act : Watched α} (placed : S.Placed a h.machine)
    (body : ∀ k, S.Placed a k.machine → S.Finds k act good) : S.Finds h (inChild act) good :=
  finds_inChildOf placed placed.inside placed.lies body

theorem finds_define (record : Option Variable) (name : String) (mutable : Bool) (v : Value)
    (placed : S.Placed a h.machine) : S.Finds h (define record name mutable v) fun _ => True := by
  unfold Finds Runs define Eval.define
  cases h.machine.scopes.variableClash? h.machine.current name with
  | some r => exact ⟨goes_aside placed .reached rfl rfl (resolves_other nofun), trivial⟩
  | none =>
    refine ⟨goes_come _ ?_ rfl ?_ ?_ (resolves_other nofun), trivial⟩
    · exact Scopes.quiet_bindVariable placed.quiet _ _ _
    · exact Scopes.next_bindVariable _ _ _
    · intro j
      exact Scopes.path_bindVariable _ _ _ _

theorem finds_resolve (record : Option Variable) (name : String) (placed : S.Placed a h.machine) :
    S.Finds h (resolve record name) fun _ => True := by
  apply finds_bind placed (finds_step placed (aside_of_looks (looks_cellNamed name)))
  intro i k placed _
  exact finds_bind placed (finds_note placed (resolves_other nofun)) fun _ l placed _ =>
    finds_pure placed trivial

theorem finds_callableNamed (name : String) (arity : Nat) (placed : S.Placed a h.machine) :
    S.Finds h (step (Eval.callableNamed name arity)) fun f =>
      S.table.findFunction? a name arity = some f := by
  apply finds_look placed (looks_callableNamed name arity)
  intro f found
  unfold Eval.callableNamed at found
  rw [Scopes.findFunction?_liesIn S.founded placed.quiet placed.inside placed.lies] at found
  cases known : S.table.findFunction? a name arity with
  | none => simp [known] at found
  | some g =>
    simp only [known, EStateM.Result.ok.injEq, and_true] at found
    rw [found]

end Stage

end Plc

import Plc.Proofs.Calls
import Plc.Proofs.Restoration
import Plc.Proofs.Typing.Sound

/-!
What a called function can reach. It runs in scopes that are made for it, inside the global scope.
So its names mean what it defines itself or what is global, and of the variables that there are when
it is called, it changes none but global ones.
-/

namespace Plc

open Watched

namespace Scopes

variable {V F : Type} {t u : Scopes V F}

theorem ownVariable?_addChild (parent j : Nat) (name : String) :
    (t.addChild parent).ownVariable? j name = t.ownVariable? j name := by
  simp only [ownVariable?, scope?_addChild]
  split
  · next new => simp [new, scope?, next]
  · rfl

theorem extends_bindVariable (same : t.Extends u) {i : Nat} (new : t.next ≤ i) (name : String)
    (v : V) : t.Extends (u.bindVariable i name v) := by
  refine ⟨by simpa using same.next, fun j inside => ?_⟩
  rw [scope?_bindVariable, if_neg (Nat.ne_of_gt (Nat.lt_of_lt_of_le inside new)),
    same.same j inside]

/-- A variable that a scope has after a definition was defined by it or was there before. -/
theorem ownVariable?_of_bindVariable {i j : Nat} {name other : String} {v w : V}
    (own : (t.bindVariable i name v).ownVariable? j other = some w) :
    w = v ∨ t.ownVariable? j other = some w := by
  by_cases here : j = i
  · subst here
    cases found : t.scope? j with
    | none => simp [ownVariable?, scope?_bindVariable, found] at own
    | some s =>
      rw [ownVariable?_bindVariable (lt_next found)] at own
      split at own
      · exact .inl (Option.some.inj own).symm
      · exact .inr own
  · right
    rwa [ownVariable?, scope?_bindVariable, if_neg (Ne.symm here)] at own

/-- A name is found in one of the scopes between, or it means what it means further out. -/
theorem findVariable?_liesIn (founded : t.Founded) (same : t.Extends u) {a c : Nat}
    (inside : a < t.next) (lies : t.LiesIn u c a) {name : String} {v : V}
    (found : u.findVariable? c name = some v) :
    (∃ j, t.next ≤ j ∧ u.ownVariable? j name = some v) ∨ t.findVariable? a name = some v := by
  obtain ⟨inner, path, new⟩ := lies
  rw [findVariable?, path, List.findSome?_append] at found
  rcases Option.or_eq_some_iff.mp found with between | ⟨-, outer⟩
  · obtain ⟨j, member, own⟩ := List.exists_of_findSome?_eq_some between
    exact .inl ⟨j, new j member, own⟩
  · refine .inr (outer ▸ findSome?_congr fun j member => ?_)
    exact (ownVariable?_of_extends same (path_lt founded inside member) name).symm

end Scopes

def Callable.DefinedIn (root : Nat) (f : Callable) : Prop :=
  ∀ d scope, f = .function d scope → scope = root

structure Machine.Rooted (root : Nat) (m : Machine) : Prop where
  home : m.home = root
  founded : m.scopes.Founded
  there : root < m.scopes.next
  here : m.current < m.scopes.next
  functions : ∀ i name arity f, m.scopes.ownFunction? i name arity = some f → f.DefinedIn root

namespace Machine

variable {root : Nat} {m n : Machine}

theorem definedIn_of_found (rooted : m.Rooted root) {i arity : Nat} {name : String} {f : Callable}
    (found : m.scopes.findFunction? i name arity = some f) : f.DefinedIn root := by
  obtain ⟨j, _, own⟩ := List.exists_of_findSome?_eq_some found
  exact rooted.functions j name arity f own

theorem rooted_entered (rooted : m.Rooted root) {parent : Nat} (inside : parent < m.scopes.next) :
    (m.entered parent).Rooted root := by
  refine ⟨rooted.home, Scopes.founded_addChild rooted.founded inside, ?_, ?_, ?_⟩
  · exact Nat.lt_of_lt_of_le rooted.there (by simp [entered])
  · simp [entered]
  · intro i name arity f own
    rw [entered, Scopes.ownFunction?_addChild] at own
    exact rooted.functions i name arity f own

theorem rooted_defining (rooted : m.Rooted root) (name : String) (mutable : Bool) (v : Value) :
    (m.defining name mutable v).Rooted root := by
  refine ⟨rooted.home, Scopes.founded_bindVariable rooted.founded _ _ _, ?_, ?_, ?_⟩
  · simpa [defining] using rooted.there
  · simpa [defining] using rooted.here
  · intro i other arity f own
    rw [defining, Scopes.ownFunction?_bindVariable] at own
    exact rooted.functions i other arity f own

theorem rooted_registering (rooted : m.Rooted root) (here : m.current = root) (f : Function) :
    (m.registering f).Rooted root := by
  refine ⟨rooted.home, Scopes.founded_bindFunction rooted.founded _ _ _ _, ?_, ?_, ?_⟩
  · simpa [registering] using rooted.there
  · simpa [registering] using rooted.here
  · intro i name arity g own
    rw [registering, Scopes.ownFunction?_bindFunction] at own
    split at own
    · rintro d scope rfl
      cases own
      exact here
    · exact rooted.functions i name arity g own

theorem rooted_fresh : fresh.Rooted 1 := by
  have single : (Scopes.single.addChild 0 : Scopes Nat Callable).Founded :=
    Scopes.founded_addChild Scopes.founded_single (by decide)
  refine ⟨rfl, Scopes.founded_bindFunction single _ _ _ _, by decide, by decide, ?_⟩
  intro i name arity f own
  rw [fresh, inside, empty, Scopes.ownFunction?_bindFunction, Scopes.ownFunction?_addChild,
    Scopes.ownFunction?_single] at own
  split at own
  · cases own
    exact nofun
  · cases own

end Machine

@[reducible] def ScopeLaw.rooted (root : Nat) : ScopeLaw where
  holds := Machine.Rooted root
  knows _ _ f := f.DefinedIn root
  grows _ m n := n.current = m.current ∧ m.scopes.next ≤ n.scopes.next
  refl _ := ⟨rfl, Nat.le_refl _⟩
  trans first second := ⟨second.1.trans first.1, Nat.le_trans first.2 second.2⟩
  found holds known := Machine.definedIn_of_found holds known
  child holds := Machine.rooted_entered holds holds.here
  call holds known := Machine.rooted_entered holds (known _ _ rfl ▸ holds.there)
  back {m n parent _} before after inner := by
    have more : m.scopes.next + 1 ≤ n.scopes.next := by
      simpa [Machine.entered] using inner.2
    have grown := Nat.le_of_succ_le more
    exact ⟨⟨after.home, after.founded, after.there, Nat.lt_of_lt_of_le before.here grown,
      after.functions⟩, rfl, grown⟩
  defined mutable v holds _ := ⟨Machine.rooted_defining holds _ mutable v, rfl, by
    simp [Machine.defining]⟩
  assigned _ _ _ _ holds := ⟨⟨holds.home, holds.founded, holds.there, holds.here,
    holds.functions⟩, rfl, Nat.le_refl _⟩
  aside _ _ holds _ := ⟨⟨holds.home, holds.founded, holds.there, holds.here, holds.functions⟩, rfl,
    Nat.le_refl _⟩

structure ScopeLaw.Registers (L : ScopeLaw) (scope : Nat → Prop) : Prop where
  registers : ∀ m f, L.holds m → scope m.current →
    L.holds (m.registering f) ∧ L.grows [] m (m.registering f)
  lasts : ∀ names m n, L.grows names m n → n.current = m.current

section

variable {L : ScopeLaw} {scope : Nat → Prop} {h : History}

theorem stays_registered (registers : L.Registers scope) (fs : List Function)
    (holds : L.holds h.machine) (here : scope h.machine.current) :
    L.Stays h (fs.forM fun f => step (Eval.defineFunction f)) fun _ _ => True := by
  induction fs generalizing h with
  | nil => exact ScopeLaw.stays_pure holds trivial
  | cons f fs ih =>
    have first : L.Stays h (step (Eval.defineFunction f)) fun _ _ => True := by
      refine runs_step ?_
      unfold Eval.defineFunction
      cases h.machine.scopes.functionClash? h.machine.current f.name f.arity with
      | some r => exact ⟨ScopeLaw.kept_come _ .reached holds (L.refl _) trivial, trivial⟩
      | none =>
        obtain ⟨after, grows⟩ := registers.registers h.machine f holds here
        exact ⟨ScopeLaw.kept_come _ .reached after grows trivial, trivial⟩
    refine ScopeLaw.stays_bind first fun _ k kept _ => ih kept.holds ?_
    rwa [registers.lasts _ _ _ kept.grows]

/-- The law is kept by a program that starts in such a scope. -/
theorem opens_program (registers : L.Registers scope) (rule : DivisionScale) (fuel : Nat)
    (p : Program) (holds : L.holds h.machine) (here : scope h.machine.current) :
    L.Opens (p.globals.map Global.name) h (program rule fuel p) fun _ => False := by
  rw [← List.append_nil (p.globals.map Global.name)]
  refine ScopeLaw.opens_then (ScopeLaw.opens_globals p.globals holds) fun _ k kept => ?_
  have same : scope k.machine.current := by rwa [registers.lasts _ _ _ kept.grows]
  refine ScopeLaw.opens_after (stays_registered registers p.functions kept.holds same)
    fun _ l kept => ?_
  exact ScopeLaw.opens_of_stays (runs_get (runs_get (ScopeLaw.stays_main kept.holds)))

end

theorem rooted_registers (root : Nat) : (ScopeLaw.rooted root).Registers (· = root) where
  registers m f rooted here := by
    refine ⟨Machine.rooted_registering rooted here f, rfl, ?_⟩
    simp [Machine.registering]
  lasts _ _ _ grows := grows.1

namespace Machine

def IsGlobal (m : Machine) (i : Nat) : Prop :=
  ∃ j ∈ m.scopes.path m.home, ∃ name, m.scopes.ownVariable? j name = some i

def KeepsLocals (m n : Machine) : Prop :=
  ∀ i < m.cells.size, ¬ m.IsGlobal i → n.cells[i]? = m.cells[i]?

/-- Where names are looked up in `n`, there are scopes made since `m` and then the global scope of
`m` with those around it. -/
def SeesFrom (m n : Machine) : Prop := m.scopes.LiesIn n.scopes n.current m.home

/-- A moment of a call that was made in `m`: the machine is in a scope of the caller only before and
after it, and what is looked up in between belongs to the call or is global. -/
structure Lexical (m : Machine) (x : Moment) : Prop where
  scope : x.machine.current = m.current ∨ m.SeesFrom x.machine
  resolved : ∀ record i, x.event = .resolved record i → m.SeesFrom x.machine ∧
    ∃ name, x.machine.cell? name = some i ∧
      (m.cells.size ≤ i ∨ m.scopes.findVariable? m.home name = some i)
  called : ∀ e f, x.event = .called e f → m.SeesFrom x.machine ∧
    ∃ name args signature slot, e = .call name args signature slot ∧
      m.scopes.findFunction? m.home name args.length = some f

structure InCall (m n : Machine) : Prop where
  home : n.home = m.home
  scopes : m.scopes.Extends n.scopes
  quiet : m.scopes.Quiet n.scopes
  here : n.current < n.scopes.next
  sees : m.SeesFrom n
  inner : m.scopes.next ≤ n.current
  fresh : ∀ j, m.scopes.next ≤ j → ∀ name i, n.scopes.ownVariable? j name = some i →
    m.cells.size ≤ i
  cells : m.cells.size ≤ n.cells.size
  locals : m.KeepsLocals n

variable {root : Nat} {m n o : Machine}

theorem isGlobal_of_found {name : String} {i : Nat}
    (found : m.scopes.findVariable? m.home name = some i) : m.IsGlobal i := by
  obtain ⟨j, member, own⟩ := List.exists_of_findSome?_eq_some found
  exact ⟨j, member, name, own⟩

theorem variable_of_inCall (rooted : m.Rooted root) (call : m.InCall n) {name : String} {i : Nat}
    (found : n.cell? name = some i) :
    m.cells.size ≤ i ∨ m.scopes.findVariable? m.home name = some i := by
  have there : m.home < m.scopes.next := rooted.home ▸ rooted.there
  rcases Scopes.findVariable?_liesIn rooted.founded call.scopes there call.sees found with
    ⟨j, new, own⟩ | outer
  · exact .inl (call.fresh j new name i own)
  · exact .inr outer

theorem function_of_inCall (rooted : m.Rooted root) (call : m.InCall n) (name : String)
    (arity : Nat) : n.scopes.findFunction? n.current name arity =
      m.scopes.findFunction? m.home name arity := by
  have there : m.home < m.scopes.next := rooted.home ▸ rooted.there
  exact Scopes.findFunction?_liesIn rooted.founded call.quiet there call.sees name arity

/-- A call made in `m`, or in the middle of another call made there. -/
theorem inCall_entered (home : n.home = m.home) (scopes : m.scopes.Extends n.scopes)
    (quiet : m.scopes.Quiet n.scopes) {parent : Nat}
    (lies : m.scopes.LiesIn n.scopes parent m.home)
    (fresh : ∀ j, m.scopes.next ≤ j → ∀ name i, n.scopes.ownVariable? j name = some i →
      m.cells.size ≤ i)
    (cells : m.cells.size ≤ n.cells.size) (locals : m.KeepsLocals n) :
    m.InCall (n.entered parent) where
  home := home
  scopes := Scopes.extends_trans scopes (Scopes.extends_addChild n.scopes parent)
  quiet := Scopes.quiet_addChild quiet parent
  here := by simp [entered]
  sees := Scopes.liesIn_child quiet lies
  inner := quiet.next
  fresh j new name i own := by
    rw [entered, Scopes.ownVariable?_addChild] at own
    exact fresh j new name i own
  cells := cells
  locals := locals

theorem liesIn_home (rooted : m.Rooted root) (quiet : m.scopes.Quiet n.scopes) :
    m.scopes.LiesIn n.scopes m.home m.home :=
  Scopes.liesIn_self quiet (rooted.home ▸ rooted.there)

/-- The scopes of `m` have no variables outside the table. -/
theorem inCall_of_rooted (rooted : m.Rooted root) : m.InCall (m.entered m.home) := by
  have quiet := Scopes.quiet_refl m.scopes
  refine inCall_entered rfl (Scopes.extends_refl _) quiet (liesIn_home rooted quiet) ?_
    (Nat.le_refl _) fun _ _ _ => rfl
  intro j new name i own
  obtain ⟨s, found, -⟩ := Option.bind_eq_some_iff.mp own
  exact absurd (Scopes.lt_next found) (Nat.not_lt.mpr new)

theorem inCall_back (call : m.InCall n) (later : m.InCall o) {parent : Nat} {names : List String}
    (inner : (n.entered parent).Grows names [] o) : m.InCall (o.backIn n.current) := by
  have grows := grows_back inner
  refine ⟨later.home, later.scopes, later.quiet, Nat.lt_of_lt_of_le call.here grows.next, ?_,
    call.inner, later.fresh, later.cells, later.locals⟩
  obtain ⟨between, path, new⟩ := call.sees
  exact ⟨between, (path_of_grows grows call.here).trans path, new⟩

theorem inCall_defining (call : m.InCall n) (name : String) (mutable : Bool) (v : Value) :
    m.InCall (n.defining name mutable v) where
  home := call.home
  scopes := Scopes.extends_bindVariable call.scopes call.inner _ _
  quiet := Scopes.quiet_bindVariable call.quiet _ _ _
  here := by simpa [defining] using call.here
  sees := by
    obtain ⟨between, path, new⟩ := call.sees
    exact ⟨between, (Scopes.path_bindVariable _ _ _ _).trans path, new⟩
  inner := call.inner
  fresh j new other i own := by
    rcases Scopes.ownVariable?_of_bindVariable own with rfl | before
    · exact call.cells
    · exact call.fresh j new other i before
  cells := by
    rw [defining, Array.size_push]
    exact Nat.le_succ_of_le call.cells
  locals i inside only := by
    have older : i ≠ n.cells.size := Nat.ne_of_lt (Nat.lt_of_lt_of_le inside call.cells)
    rw [defining, Array.getElem?_push, if_neg older]
    exact call.locals i inside only

/-- What is changed in the middle of a call is a variable of the call or a global one. -/
theorem inCall_setting (call : m.InCall n) {i : Nat} (v : Value)
    (reached : m.cells.size ≤ i ∨ m.IsGlobal i) : m.InCall (n.setting i v) where
  home := call.home
  scopes := call.scopes
  quiet := call.quiet
  here := call.here
  sees := call.sees
  inner := call.inner
  fresh := call.fresh
  cells := by simpa [setting] using call.cells
  locals j inside only := by
    have other : i ≠ j := by
      rintro rfl
      exact reached.elim (Nat.not_le.mpr inside) only
    rw [setting, Array.getElem?_modify, if_neg other]
    exact call.locals j inside only

end Machine

@[reducible] def ScopeLaw.inCall {root : Nat} {m : Machine} (rooted : m.Rooted root) :
    ScopeLaw where
  holds := m.InCall
  knows name arity f := m.scopes.findFunction? m.home name arity = some f
  grows := growth.grows
  refl := growth.refl
  trans := growth.trans
  found holds found := (Machine.function_of_inCall rooted holds _ _).symm.trans found
  child call := Machine.inCall_entered call.home call.scopes call.quiet call.sees call.fresh
    call.cells call.locals
  call call known := by
    obtain rfl : _ = m.home :=
      (Machine.definedIn_of_found rooted known _ _ rfl).trans rooted.home.symm
    exact Machine.inCall_entered call.home call.scopes call.quiet
      (Machine.liesIn_home rooted call.quiet) call.fresh call.cells call.locals
  back before after inner :=
    ⟨Machine.inCall_back before after inner, Machine.grows_back inner⟩
  defined mutable v call free :=
    ⟨Machine.inCall_defining call _ mutable v, Machine.grows_defining mutable v free⟩
  assigned v before found _ call := by
    have reached := (Machine.variable_of_inCall rooted before found).imp_right
      Machine.isGlobal_of_found
    exact ⟨Machine.inCall_setting call v reached, Machine.grows_setting _ _ v⟩
  aside _ _ call more :=
    ⟨⟨call.home, call.scopes, call.quiet, call.here, call.sees, call.inner, call.fresh, call.cells,
      call.locals⟩, Machine.grows_same rfl rfl more (Nat.le_refl _) rfl⟩

section

variable {root : Nat} {m : Machine} {rule : DivisionScale} {fuel : Nat}

theorem lexical_of_inCall (rooted : m.Rooted root) {x : Moment} (call : m.InCall x.machine)
    (sees : (ScopeLaw.inCall rooted).Sees x) : m.Lexical x := by
  refine ⟨.inr call.sees, fun record i event => ?_, fun e f event => ?_⟩
  · rw [ScopeLaw.Sees, event] at sees
    obtain ⟨name, found⟩ := sees
    exact ⟨call.sees, name, found, Machine.variable_of_inCall rooted call found⟩
  · rw [ScopeLaw.Sees, event] at sees
    obtain ⟨name, args, signature, slot, is, known⟩ := sees
    exact ⟨call.sees, name, args, signature, slot, is, known⟩

/-- In the caller's scope nothing is looked up for the call. -/
theorem lexical_outside {x : Moment} (outside : x.machine.current = m.current)
    (uses : ∀ record i, x.event ≠ .resolved record i) (calls : ∀ e f, x.event ≠ .called e f) :
    m.Lexical x :=
  ⟨.inl outside, fun record i is => absurd is (uses record i),
    fun e f is => absurd is (calls e f)⟩

structure Machine.Spares (m : Machine) (h k : History) : Prop where
  locals : m.KeepsLocals k.machine
  moments : ∀ x ∈ k.moments, x ∈ h.moments ∨ m.Lexical x

theorem spares_trans {h k l : History} (first : m.Spares h k) (second : m.Spares k l) :
    m.Spares h l := by
  refine ⟨second.locals, fun x member => ?_⟩
  rcases second.moments x member with between | lexical
  · exact first.moments x between
  · exact .inr lexical

theorem spares_come {h : History} {e : Event} (lexical : m.Lexical ⟨e, m⟩) :
    m.Spares h (h.come e m) := by
  refine ⟨fun _ _ _ => rfl, fun x member => ?_⟩
  rcases List.mem_cons.mp member with rfl | before
  · exact .inr lexical
  · exact .inl before

/-- The body of a function, in the scope made for it. -/
theorem runs_callee (d : Function) (vs : List Value) {h : History}
    (rooted : h.machine.Rooted root) :
    Runs h.machine.Spares (fun _ _ => True) h (inChildOf h.machine.home do
      bindParameters d.parameters (parameterTypes d) vs
      sequence (execute rule fuel) d.body) fun _ _ => True := by
  have entered := Machine.inCall_of_rooted rooted
  have law := (ScopeLaw.inCall rooted).law_at rule fuel
  refine runs_inChildOf (ScopeLaw.opens_body law d vs entered) ?_
    (fun _ _ _ => trivial) fun _ _ _ _ => trivial
  rintro k ⟨known, -, kept⟩
  refine ⟨kept.holds.locals, fun x member => ?_⟩
  rcases List.mem_cons.mp member with rfl | inner
  · exact .inr (lexical_outside rfl nofun nofun)
  · rcases kept.moments x inner with before | ⟨call, sees⟩
    · rcases List.mem_cons.mp before with rfl | earlier
      · exact .inr (lexical_of_inCall rooted entered trivial)
      · exact .inl earlier
    · exact .inr (lexical_of_inCall rooted call sees)

theorem runs_call (rooted : m.Rooted root) (d : Function) (vs : List Value) :
    Runs m.Spares (fun _ _ => True) (.start m) (invoke rule fuel (.function d m.home) vs)
      fun _ _ => True := by
  cases fuel with
  | zero => exact runs_throw ⟨fun _ _ _ => rfl, fun _ => .inl⟩ trivial
  | succ fuel =>
    have noted : Runs m.Spares (fun _ _ => True) (.start m)
        (note (.invoked (.function d m.home) vs)) fun _ k => k.machine = m :=
      ⟨spares_come (lexical_outside rfl nofun nofun), rfl⟩
    apply runs_bind spares_trans noted
    rintro _ k _ rfl
    refine runs_get ?_
    have alive : k.machine.isAlive k.machine.home = true := by
      simp [Machine.isAlive, Scopes.path]
    simp only [alive, Bool.not_true, Bool.false_eq_true, if_false]
    apply runs_bind spares_trans (runs_callee d vs rooted)
    intro flow l spared _
    have here : k.machine.Spares l l := ⟨spared.locals, fun _ => .inl⟩
    cases flow <;> exact runs_pure here trivial

end

def Watched.momentsFrom {α : Type} (m : Machine) (act : Watched α) : List Moment :=
  match act (.start m) with
  | .ok _ k | .error _ k => k.moments

theorem spares_momentsFrom {α : Type} {m : Machine} {act : Watched α}
    {bad : Halt → History → Prop} {good : α → History → Prop}
    (runs : Runs m.Spares bad (.start m) act good) :
    ∀ x ∈ act.momentsFrom m, x ∈ (History.start m).moments ∨ m.Lexical x := by
  unfold Runs at runs
  unfold Watched.momentsFrom
  cases ended : act (.start m) with
  | ok a k =>
    rw [ended] at runs
    exact runs.1.moments
  | error e k =>
    rw [ended] at runs
    exact runs.1.moments

namespace Eval

variable {α : Type}

def backIn (c : Nat) : EStateM.Result Halt Machine α → EStateM.Result Halt Machine α
  | .ok a n => .ok a (n.backIn c)
  | .error e n => .error e (n.backIn c)

theorem inChildOf_backIn (parent : Nat) (act : Eval α) (m : Machine) (c : Nat) :
    inChildOf parent act (m.backIn c) = backIn c (inChildOf parent act m) := by
  unfold inChildOf inScope
  dsimp only [Machine.backIn]
  cases act { m with scopes := m.scopes.addChild parent, current := m.scopes.next } <;> rfl

/-- A function does the same wherever it is called. -/
theorem invoke_backIn (rule : DivisionScale) (fuel : Nat) (d : Function) (scope : Nat)
    (vs : List Value) (m : Machine) (c : Nat) :
    invoke rule fuel (.function d scope) vs (m.backIn c) =
      backIn c (invoke rule fuel (.function d scope) vs m) := by
  cases fuel with
  | zero => rfl
  | succ fuel =>
    have body := inChildOf_backIn scope (do
      bindParameters d.parameters vs
      sequence (execute rule fuel) d.body) m c
    have alive : (m.backIn c).isAlive scope = m.isAlive scope := rfl
    unfold invoke
    dsimp only [bind, EStateM.bind, get, getThe, MonadStateOf.get, EStateM.get]
    rw [alive]
    cases m.isAlive scope with
    | false => rfl
    | true =>
      simp only [Bool.not_true, Bool.false_eq_true, if_false]
      dsimp only [bind, EStateM.bind] at body ⊢
      rw [body]
      rcases inChildOf scope _ m with ⟨flow, n⟩ | ⟨e, n⟩
      · cases flow <;> rfl
      · rfl

end Eval

section

variable {rule : DivisionScale} {fuel : Nat} {p : Program} {x : Moment}

theorem rooted_moment (member : x ∈ (Machine.fresh.history rule fuel p).moments) :
    x.machine.Rooted 1 ∧ (ScopeLaw.rooted 1).Sees x := by
  have ran := runs_program (m := Machine.fresh)
    (opens_program (rooted_registers 1) rule fuel p Machine.rooted_fresh rfl)
  obtain ⟨known, -, kept⟩ := ran.1
  exact (kept.moments x member).resolve_left nofun

/-- In a run on a fresh machine, what is called was defined in the global scope. -/
theorem defined_home (member : x ∈ (Machine.fresh.history rule fuel p).moments) {d : Function}
    {scope : Nat} {vs : List Value} (called : x.event = .invoked (.function d scope) vs) :
    x.machine.Rooted 1 ∧ scope = x.machine.home := by
  obtain ⟨rooted, sees⟩ := rooted_moment member
  rw [ScopeLaw.Sees, called] at sees
  obtain ⟨_, _, known⟩ := sees
  exact ⟨rooted, (known d scope rfl).trans rooted.home.symm⟩

end

/-- A user function that is called anywhere in a run on a fresh machine changes none of the
variables that there are, other than global ones, however the call ends. What is looked up for it is
its own or global, and it does the same from whatever scope it is called. -/
theorem callee_apart (rule : DivisionScale) (fuel : Nat) (p : Program) {x : Moment}
    (member : x ∈ (Machine.fresh.history rule fuel p).moments) {d : Function} {scope : Nat}
    {vs : List Value} (called : x.event = .invoked (.function d scope) vs) (more : Nat) :
    (Eval.invoke rule more (.function d scope) vs).Leaves x.machine x.machine.KeepsLocals ∧
      (∀ y ∈ (invoke rule more (.function d scope) vs).momentsFrom x.machine,
        x.machine.Lexical y) ∧
      ∀ c, Eval.invoke rule more (.function d scope) vs (x.machine.backIn c) =
        Eval.backIn c (Eval.invoke rule more (.function d scope) vs x.machine) := by
  obtain ⟨rooted, rfl⟩ := defined_home member called
  have runs : Runs x.machine.Spares (fun _ _ => True) (.start x.machine)
      (invoke rule more (.function d x.machine.home) vs) fun _ _ => True := runs_call rooted d vs
  refine ⟨?_, ?_, Eval.invoke_backIn rule more d _ vs x.machine⟩
  · exact leaves_of_runs ((follows_at rule more).invoke _ vs) runs fun _ spared => spared.locals
  · have spared := spares_momentsFrom runs
    exact fun y seen => (spared y seen).resolve_left nofun

def Event.userCall? : Event → Option (Function × Nat × List Value)
  | .invoked (.function d scope) vs => some (d, scope, vs)
  | _ => none

theorem invoked_of_userCall? {event : Event} {d : Function} {scope : Nat} {vs : List Value}
    (call : event.userCall? = some (d, scope, vs)) : event = .invoked (.function d scope) vs := by
  unfold Event.userCall? at call
  split at call
  · cases call
    rfl
  · cases call

def sameNamed : String :=
  "VAR g = 1; FUN f(n: Integer): Integer DO LET x = n; g = g + x; x = 5; RETURN g; END " ++
    "FUN main(): Integer DO LET x = 3; RETURN f(x) + x; END"

theorem callee_apart_sameNamed : ∃ p, Source.parse sameNamed = .ok p ∧
    (p.run .dividend 20).ending = .exit 7 ∧
    ∃ x ∈ (Machine.fresh.history .dividend 20 p).moments, ∃ d scope vs,
      x.event = .invoked (.function d scope) vs ∧ d.name = "f" ∧ x.machine.cells.size = 2 ∧
      ((Eval.invoke .dividend 20 (.function d scope) vs).Leaves x.machine
          x.machine.KeepsLocals ∧
        (∀ y ∈ (invoke .dividend 20 (.function d scope) vs).momentsFrom x.machine,
          x.machine.Lexical y) ∧
        ∀ c, Eval.invoke .dividend 20 (.function d scope) vs (x.machine.backIn c) =
          Eval.backIn c (Eval.invoke .dividend 20 (.function d scope) vs x.machine)) := by
  have known : ∃ p ∈ (Source.parse sameNamed).toOption, (p.run .dividend 20).ending = .exit 7 ∧
      ∃ x ∈ (Machine.fresh.history .dividend 20 p).moments, ∃ c ∈ x.event.userCall?,
        c.1.name = "f" ∧ x.machine.cells.size = 2 := by decide +kernel
  obtain ⟨p, read, ends, x, member, ⟨d, scope, vs⟩, call, named, two⟩ := exists_ok known
  have event := invoked_of_userCall? call
  exact ⟨p, read, ends, x, member, d, scope, vs, event, named, two,
    callee_apart .dividend 20 p member event 20⟩

end Plc

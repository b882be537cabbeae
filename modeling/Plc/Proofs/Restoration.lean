import Plc.Proofs.ScopeLaw

/-!
What is left of scopes when an evaluation ends. Whether it ends with a value, by a return or by an
error, the machine is back in the scope where it was, no scope has lost or changed a name or a scope
around it, and output has only been added. New names are in the current scope alone, and there they
are those of declarations at the level of the block that was executed, up to one of them.
-/

namespace Plc

open Watched

def Scope.Gains (names : List String) (keys : List (String × Nat)) (least : Nat)
    (s t : Scope Nat Callable) : Prop :=
  ∃ bindings functions, t = ⟨s.enclosing, bindings ++ s.bindings, functions ++ s.functions⟩ ∧
    (bindings.map Prod.fst).reverse = names ∧ (functions.map Prod.fst).reverse = keys ∧
    (∀ b ∈ bindings, s.bindings.lookup b.1 = none ∧ least ≤ b.2) ∧
    ∀ f ∈ functions, s.functions.lookup f.1 = none

namespace Scope

variable {names more : List String} {keys others : List (String × Nat)} {least later : Nat}
  {s t u : Scope Nat Callable}

theorem gains_refl (s : Scope Nat Callable) (least : Nat) : s.Gains [] [] least s :=
  ⟨[], [], rfl, rfl, rfl, nofun, nofun⟩

theorem gains_trans (grown : least ≤ later) (first : s.Gains names keys least t)
    (second : t.Gains more others later u) :
    s.Gains (names ++ more) (keys ++ others) least u := by
  obtain ⟨bs, fs, rfl, rfl, rfl, newB, newF⟩ := first
  obtain ⟨cs, gs, rfl, rfl, rfl, newC, newG⟩ := second
  refine ⟨cs ++ bs, gs ++ fs, ?_, ?_, ?_, ?_, ?_⟩
  · simp only [List.append_assoc]
  · simp only [List.map_append, List.reverse_append]
  · simp only [List.map_append, List.reverse_append]
  · intro b member
    rcases List.mem_append.mp member with late | early
    · exact ⟨lookup_of_append (newC b late).1, Nat.le_trans grown (newC b late).2⟩
    · exact newB b early
  · intro f member
    rcases List.mem_append.mp member with late | early
    · exact lookup_of_append (newG f late)
    · exact newF f early

theorem variable_of_gains (gains : s.Gains names keys least t) {name : String} {c : Nat}
    (found : s.bindings.lookup name = some c) : t.bindings.lookup name = some c := by
  obtain ⟨bs, fs, rfl, -, -, new, -⟩ := gains
  exact lookup_behind (fun b member => (new b member).1) found

theorem function_of_gains (gains : s.Gains names keys least t) {key : String × Nat} {f : Callable}
    (found : s.functions.lookup key = some f) : t.functions.lookup key = some f := by
  obtain ⟨bs, fs, rfl, -, -, -, new⟩ := gains
  exact lookup_behind new found

end Scope

def Function.key (f : Function) : String × Nat := (f.name, f.arity)

namespace Machine

/-- The machine in the same scope later on. Of the scopes that there were, only the current one may
differ, by these variables and functions. -/
structure Grows (names : List String) (keys : List (String × Nat)) (m n : Machine) : Prop where
  current : n.current = m.current
  home : n.home = m.home
  output : m.output.toList <+: n.output.toList
  cells : m.cells.size ≤ n.cells.size
  next : m.scopes.next ≤ n.scopes.next
  others : ∀ i < m.scopes.next, i ≠ m.current → n.scopes.scope? i = m.scopes.scope? i
  here : ∀ s, m.scopes.scope? m.current = some s →
    ∃ t, n.scopes.scope? m.current = some t ∧ s.Gains names keys m.cells.size t

variable {names more : List String} {keys others : List (String × Nat)} {m n o : Machine}

theorem grows_refl (m : Machine) : m.Grows [] [] m :=
  ⟨rfl, rfl, List.prefix_rfl, Nat.le_refl _, Nat.le_refl _, fun _ _ _ => rfl,
    fun s found => ⟨s, found, s.gains_refl _⟩⟩

theorem grows_trans (first : m.Grows names keys n) (second : n.Grows more others o) :
    m.Grows (names ++ more) (keys ++ others) o := by
  refine ⟨second.current.trans first.current, second.home.trans first.home,
    first.output.trans second.output, Nat.le_trans first.cells second.cells,
    Nat.le_trans first.next second.next, fun i inside other => ?_, fun s found => ?_⟩
  · rw [second.others i (Nat.lt_of_lt_of_le inside first.next) (first.current ▸ other),
      first.others i inside other]
  · obtain ⟨t, between, gains⟩ := first.here s found
    obtain ⟨u, after, more⟩ := second.here t (first.current ▸ between)
    rw [first.current] at after
    exact ⟨u, after, Scope.gains_trans first.cells gains more⟩

/-- The scopes are as they were. -/
theorem grows_same (current : n.current = m.current) (home : n.home = m.home)
    (output : m.output.toList <+: n.output.toList) (cells : m.cells.size ≤ n.cells.size)
    (scopes : n.scopes = m.scopes) : m.Grows [] [] n := by
  refine ⟨current, home, output, cells, Nat.le_of_eq ?_, fun i _ _ => ?_, fun s found => ?_⟩
  · rw [scopes]
  · rw [scopes]
  · exact ⟨s, by rw [scopes, found], s.gains_refl _⟩

theorem grows_setting (m : Machine) (i : Nat) (v : Value) : m.Grows [] [] (m.setting i v) := by
  have cells : (m.setting i v).cells.size = m.cells.size := Array.size_modify ..
  exact grows_same rfl rfl List.prefix_rfl (Nat.le_of_eq cells.symm) rfl

theorem grows_back {parent : Nat} (inner : (m.entered parent).Grows names keys n) :
    m.Grows [] [] (n.backIn m.current) := by
  have more : m.scopes.next + 1 ≤ n.scopes.next := by
    have grown := inner.next
    rwa [entered, Scopes.next_addChild] at grown
  have same : ∀ i < m.scopes.next, n.scopes.scope? i = m.scopes.scope? i := by
    intro i inside
    have older : i < (m.entered parent).scopes.next := by
      rw [entered, Scopes.next_addChild]
      exact Nat.lt_succ_of_lt inside
    rw [inner.others i older (Nat.ne_of_lt inside), entered, Scopes.scope?_addChild,
      if_neg (Nat.ne_of_lt inside)]
  refine ⟨rfl, inner.home, inner.output, inner.cells, Nat.le_of_succ_le more,
    fun i inside _ => same i inside, fun s found => ⟨s, ?_, s.gains_refl _⟩⟩
  exact (same m.current (Scopes.lt_next found)).trans found

theorem grows_defining {name : String} (mutable : Bool) (v : Value)
    (free : m.scopes.variableClash? m.current name = none) :
    m.Grows [name] [] (m.defining name mutable v) := by
  refine ⟨rfl, rfl, List.prefix_rfl, ?_, ?_, fun i _ other => ?_, fun s found => ?_⟩
  · simp [defining]
  · simp [defining]
  · rw [defining, Scopes.scope?_bindVariable, if_neg (Ne.symm other)]
  · refine ⟨{ s with bindings := (name, m.cells.size) :: s.bindings }, ?_, ?_⟩
    · rw [defining, Scopes.scope?_bindVariable, if_pos rfl, found]
      rfl
    · refine ⟨[(name, m.cells.size)], [], rfl, rfl, rfl, fun b member => ?_, nofun⟩
      obtain rfl := List.mem_singleton.mp member
      exact ⟨Scopes.lookup_of_variableClash? found free, Nat.le_refl _⟩

def registering (m : Machine) (f : Function) : Machine :=
  { m with scopes := m.scopes.bindFunction m.current f.name f.arity (.function f m.current) }

theorem grows_registering {f : Function}
    (free : m.scopes.functionClash? m.current f.name f.arity = none) :
    m.Grows [] [f.key] (m.registering f) := by
  refine ⟨rfl, rfl, List.prefix_rfl, Nat.le_refl _, ?_, fun i _ other => ?_, fun s found => ?_⟩
  · simp [registering]
  · rw [registering, Scopes.scope?_bindFunction, if_neg (Ne.symm other)]
  · refine ⟨{ s with functions := (f.key, .function f m.current) :: s.functions }, ?_, ?_⟩
    · rw [registering, Scopes.scope?_bindFunction, if_pos rfl, found]
      rfl
    · refine ⟨[], [(f.key, .function f m.current)], rfl, rfl, rfl, nofun, fun g member => ?_⟩
      obtain rfl := List.mem_singleton.mp member
      exact Scopes.lookup_of_functionClash? found free

/-- What is left in `n` of the scopes of `m`, when of the variables `lets` and of the functions
`keys` some were defined on the way, the first of them first. -/
structure Restored (lets : List String) (keys : List (String × Nat)) (m n : Machine) : Prop where
  current : n.current = m.current
  output : m.output.toList <+: n.output.toList
  parents : ∀ i < m.scopes.next, i < n.scopes.next ∧ n.scopes.path i = m.scopes.path i
  bindings : ∀ i name c, m.scopes.ownVariable? i name = some c →
    n.scopes.ownVariable? i name = some c
  functions : ∀ i name arity f, m.scopes.ownFunction? i name arity = some f →
    n.scopes.ownFunction? i name arity = some f
  elsewhere : ∀ i < m.scopes.next, i ≠ m.current → n.scopes.scope? i = m.scopes.scope? i
  here : ∀ s, m.scopes.scope? m.current = some s → ∃ t, n.scopes.scope? m.current = some t ∧
    ∃ names known, names <+: lets ∧ known <+: keys ∧ s.Gains names known m.cells.size t

/-- What a scope has become: it is unchanged, or it is the current one with more names. -/
theorem scope_of_grows (grows : m.Grows names keys n) {i : Nat} {s : Scope Nat Callable}
    (found : m.scopes.scope? i = some s) :
    ∃ t known more, n.scopes.scope? i = some t ∧ s.Gains known more m.cells.size t := by
  by_cases here : i = m.current
  · subst here
    obtain ⟨t, after, gains⟩ := grows.here s found
    exact ⟨t, names, keys, after, gains⟩
  · refine ⟨s, [], [], ?_, s.gains_refl _⟩
    rw [grows.others i (Scopes.lt_next found) here, found]

theorem variable_of_grows (grows : m.Grows names keys n) {i c : Nat} {name : String}
    (own : m.scopes.ownVariable? i name = some c) : n.scopes.ownVariable? i name = some c := by
  obtain ⟨s, found, own⟩ := Option.bind_eq_some_iff.mp own
  obtain ⟨t, _, _, after, gains⟩ := scope_of_grows grows found
  rw [Scopes.ownVariable?, after, Option.bind_some]
  exact Scope.variable_of_gains gains own

theorem function_of_grows (grows : m.Grows names keys n) {i arity : Nat} {name : String}
    {f : Callable} (own : m.scopes.ownFunction? i name arity = some f) :
    n.scopes.ownFunction? i name arity = some f := by
  obtain ⟨s, found, own⟩ := Option.bind_eq_some_iff.mp own
  obtain ⟨t, _, _, after, gains⟩ := scope_of_grows grows found
  rw [Scopes.ownFunction?, after, Option.bind_some]
  exact Scope.function_of_gains gains own

theorem path_of_grows (grows : m.Grows names keys n) {i : Nat} (inside : i < m.scopes.next) :
    n.scopes.path i = m.scopes.path i := by
  obtain ⟨s, found⟩ := Scopes.scope?_of_lt inside
  obtain ⟨t, _, _, after, bindings, functions, rfl, -⟩ := scope_of_grows grows found
  rw [Scopes.path_of_scope? found, Scopes.path_of_scope? after]

theorem restored_of_grows {lets : List String} {known : List (String × Nat)}
    (grows : m.Grows names keys n) (some : names <+: lets) (those : keys <+: known) :
    m.Restored lets known n where
  current := grows.current
  output := grows.output
  parents i inside := ⟨Nat.lt_of_lt_of_le inside grows.next, path_of_grows grows inside⟩
  bindings _ _ _ := variable_of_grows grows
  functions _ _ _ _ := function_of_grows grows
  elsewhere := grows.others
  here s found := by
    obtain ⟨t, after, gains⟩ := grows.here s found
    exact ⟨t, after, names, keys, some, those, gains⟩

end Machine

namespace ScopeLaw

def growth : ScopeLaw where
  holds _ := True
  knows _ _ _ := True
  grows names := Machine.Grows names []
  refl := Machine.grows_refl
  trans := Machine.grows_trans
  found _ _ := trivial
  child _ := trivial
  call _ _ := trivial
  back _ _ inner := ⟨trivial, Machine.grows_back inner⟩
  defined mutable v _ free := ⟨trivial, Machine.grows_defining mutable v free⟩
  assigned v _ _ _ _ := ⟨trivial, Machine.grows_setting _ _ v⟩
  aside _ _ _ more := ⟨trivial, Machine.grows_same rfl rfl more (Nat.le_refl _) rfl⟩

end ScopeLaw

def Watched.Growing (names : List String) (keys : List (String × Nat)) (h k : History) : Prop :=
  ∃ a b, a <+: names ∧ b <+: keys ∧ h.machine.Grows a b k.machine

section

variable {rule : DivisionScale} {fuel : Nat} {h : History} {names : List String}

theorem growing_of_opens {α : Type} {act : Watched α} {done : α → Prop}
    (opens : ScopeLaw.growth.Opens names h act done) :
    Runs (Growing names []) (fun _ _ => True) h act fun a k =>
      done a → h.machine.Grows names [] k.machine := by
  refine runs_imp (runs_mono opens ?_ fun _ _ => id) fun a k _ kept last => (kept last).grows
  rintro k ⟨known, some, kept⟩
  exact ⟨known, [], some, List.nil_prefix, kept.grows⟩

theorem growing_of_stays {α : Type} {act : Watched α} {good : α → History → Prop}
    (stays : ScopeLaw.growth.Stays h act good) :
    Runs (Growing [] []) (fun _ _ => True) h act fun _ k => h.machine.Grows [] [] k.machine :=
  runs_imp (growing_of_opens (ScopeLaw.opens_of_stays stays)) fun _ _ _ grows => grows trivial

theorem runs_registered (fs : List Function) :
    Runs (Growing [] (fs.map Function.key)) (fun _ _ => True) h
      (fs.forM fun f => step (Eval.defineFunction f)) fun _ k =>
        h.machine.Grows [] (fs.map Function.key) k.machine := by
  have none : ∀ (k : History) (keys : List (String × Nat)), k.machine = h.machine →
      Growing [] keys h k := fun k keys same =>
    ⟨[], [], List.nil_prefix, List.nil_prefix, same ▸ Machine.grows_refl _⟩
  induction fs generalizing h with
  | nil => exact runs_pure (none h [] rfl) (Machine.grows_refl _)
  | cons f fs ih =>
    have first : Runs (Growing [] [f.key]) (fun _ _ => True) h (step (Eval.defineFunction f))
        fun _ k => h.machine.Grows [] [f.key] k.machine := by
      refine runs_step ?_
      unfold Eval.defineFunction
      cases free : h.machine.scopes.functionClash? h.machine.current f.name f.arity with
      | some r => exact ⟨none _ _ rfl, trivial⟩
      | none =>
        have grows := Machine.grows_registering free
        exact ⟨⟨[], [f.key], List.prefix_rfl, List.prefix_rfl, grows⟩, grows⟩
    refine runs_chain first ?_ ?_
    · rintro k ⟨a, b, some, those, grows⟩
      exact ⟨a, b, some, those.trans (List.prefix_append _ _), grows⟩
    · intro _ k _ grows
      have rest := ih (h := k) fun l keys same =>
        ⟨[], [], List.nil_prefix, List.nil_prefix, same ▸ Machine.grows_refl _⟩
      refine runs_imp (runs_mono rest ?_ fun _ _ => id) fun _ l _ more =>
        Machine.grows_trans grows more
      rintro l ⟨a, b, some, those, more⟩
      exact ⟨[] ++ a, [f.key] ++ b, some, (List.prefix_append_right_inj _).mpr those,
        Machine.grows_trans grows more⟩

theorem runs_growing (p : Program) :
    Runs (Growing (p.globals.map Global.name) (p.functions.map Function.key)) (fun _ _ => True) h
      (program rule fuel p) fun _ _ => True := by
  refine runs_chain (growing_of_opens (ScopeLaw.opens_globals p.globals trivial)) ?_ ?_
  · rintro k ⟨a, b, some, those, grows⟩
    exact ⟨a, b, some, those.trans List.nil_prefix, grows⟩
  intro _ k _ first
  have globals := first trivial
  refine runs_chain (runs_registered p.functions) ?_ ?_
  · rintro l ⟨a, b, some, those, grows⟩
    obtain rfl := List.prefix_nil.mp some
    have whole := Machine.grows_trans globals grows
    rw [List.append_nil, List.nil_append] at whole
    exact ⟨_, _, List.prefix_rfl, those, whole⟩
  intro _ l _ functions
  have whole := Machine.grows_trans globals functions
  rw [List.append_nil, List.nil_append] at whole
  refine runs_get (runs_get (runs_imp (runs_mono (growing_of_stays (ScopeLaw.stays_main trivial))
    ?_ fun _ _ => id) fun _ _ _ _ => trivial))
  rintro n ⟨a, b, some, those, grows⟩
  obtain rfl := List.prefix_nil.mp some
  obtain rfl := List.prefix_nil.mp those
  have last := Machine.grows_trans whole grows
  rw [List.append_nil, List.append_nil] at last
  exact ⟨_, _, List.prefix_rfl, List.prefix_rfl, last⟩

end

/-- Wherever `act` ends, with a value or without one. -/
def Eval.Leaves {α : Type} (act : Eval α) (m : Machine) (left : Machine → Prop) : Prop :=
  match act m with
  | .ok _ n | .error _ n => left n

section

variable {α : Type} {act : Watched α} {plain : Eval α} {m : Machine}

theorem leaves_of_runs {r : History → History → Prop} {bad : Halt → History → Prop}
    {good : α → History → Prop} {left : Machine → Prop} (follows : Follows act plain)
    (runs : Runs r bad (.start m) act good) (ends : ∀ k, r (.start m) k → left k.machine) :
    plain.Leaves m left := by
  have same : _ = plain m := follows (.start m)
  unfold Runs at runs
  unfold Eval.Leaves
  rw [← same]
  cases ended : act (.start m) with
  | ok a k =>
    rw [ended] at runs
    exact ends k runs.1
  | error e k =>
    rw [ended] at runs
    exact ends k runs.1

theorem leaves_of_growing {names : List String} {keys : List (String × Nat)}
    {good : α → History → Prop} (follows : Follows act plain)
    (runs : Runs (Growing names keys) (fun _ _ => True) (.start m) act good) :
    plain.Leaves m (m.Restored names keys) :=
  leaves_of_runs follows runs fun _ ⟨_, _, among, those, grows⟩ =>
    Machine.restored_of_grows grows among those

end

/-- Scopes and output after an evaluation of any kind, from any machine and however it ends. -/
theorem scopes_restored (rule : DivisionScale) (fuel : Nat) (m : Machine) :
    (∀ e, (Eval.evaluate rule fuel e).Leaves m (m.Restored [] [])) ∧
      (∀ s, (Eval.execute rule fuel s).Leaves m (m.Restored s.lets [])) ∧
      (∀ ss, (Eval.sequence (Eval.execute rule fuel) ss).Leaves m
        (m.Restored (ss.flatMap Stmt.lets) [])) ∧
      (∀ ss, (Eval.inChild (Eval.sequence (Eval.execute rule fuel) ss)).Leaves m
        (m.Restored [] [])) ∧
      (∀ f vs, (Eval.invoke rule fuel f vs).Leaves m (m.Restored [] [])) ∧
      ∀ p, (Eval.program rule fuel p).Leaves m
        (m.Restored (p.globals.map Global.name) (p.functions.map Function.key)) := by
  have follows := follows_at rule fuel
  have law := ScopeLaw.growth.law_at rule fuel
  have block : ∀ ss h, ScopeLaw.growth.Opens (ss.flatMap Stmt.lets) h
      (sequence (execute rule fuel) ss) (· = .next) :=
    fun ss _ => ScopeLaw.opens_sequence ss trivial fun s _ => law.execute s
  refine ⟨fun e => ?_, fun s => ?_, fun ss => ?_, fun ss => ?_, fun f vs => ?_, fun p => ?_⟩
  · exact leaves_of_growing (follows.evaluate e) (growing_of_stays (law.evaluate e trivial))
  · exact leaves_of_growing (follows.execute s) (growing_of_opens (law.execute s trivial))
  · exact leaves_of_growing (follows_sequence follows.execute ss) (growing_of_opens (block ss _))
  · exact leaves_of_growing (follows_inChild (follows_sequence follows.execute ss))
      (growing_of_stays (ScopeLaw.stays_inChild trivial fun k _ => block ss k))
  · exact leaves_of_growing (follows.invoke f vs)
      (growing_of_stays (law.invoke f vs trivial ⟨"", 0, trivial⟩))
  · exact leaves_of_growing (follows_program rule fuel p) (runs_growing p)

end Plc

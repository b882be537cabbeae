import Plc.Proofs.Callees
import Plc.Proofs.Renaming.Runs
import Plc.Proofs.Timeline

/-!
The states that a machine can be in. Whatever programs run in a session, at every moment the scopes
around a scope are older than it, names mean cells that there are, and functions were defined in
scopes that there are.
-/

namespace Plc

open Watched

def Callable.Below (bound : Nat) (f : Callable) : Prop :=
  ∀ d scope, f = .function d scope → scope < bound

theorem Callable.below_of_le {f : Callable} {bound more : Nat} (below : f.Below bound)
    (enough : bound ≤ more) : f.Below more :=
  fun d scope is => Nat.lt_of_lt_of_le (below d scope is) enough

namespace Machine

/-- What holds of a machine at every moment of a session. -/
structure Regular (m : Machine) : Prop where
  founded : m.scopes.Founded
  backed : m.Backed
  here : m.current < m.scopes.next
  home : m.home < m.scopes.next
  functions : ∀ i name arity f,
    m.scopes.ownFunction? i name arity = some f → f.Below m.scopes.next

variable {m : Machine}

theorem below_of_found (regular : m.Regular) {i arity : Nat} {name : String} {f : Callable}
    (found : m.scopes.findFunction? i name arity = some f) : f.Below m.scopes.next := by
  obtain ⟨j, -, own⟩ := List.exists_of_findSome?_eq_some found
  exact regular.functions j name arity f own

theorem regular_entered (regular : m.Regular) {parent : Nat} (inside : parent < m.scopes.next) :
    (m.entered parent).Regular := by
  constructor
  · exact Scopes.founded_addChild regular.founded inside
  · exact backed_addChild regular.backed parent _
  · simp [entered]
  · exact Nat.lt_of_lt_of_le regular.home (by simp [entered])
  · intro i name arity f own
    rw [entered, Scopes.ownFunction?_addChild] at own
    exact Callable.below_of_le (regular.functions i name arity f own) (by simp [entered])

/-- A name for a cell that there is. -/
theorem regular_naming (regular : m.Regular) (i : Nat) (name : String) {place : Nat}
    (inside : place < m.cells.size) :
    Regular { m with scopes := m.scopes.bindVariable i name place } := by
  constructor
  · exact Scopes.founded_bindVariable regular.founded _ _ _
  · exact backed_naming regular.backed i name inside
  · simpa using regular.here
  · simpa using regular.home
  · intro j other arity f own
    rw [Scopes.ownFunction?_bindVariable] at own
    simpa using regular.functions j other arity f own

theorem regular_defining (regular : m.Regular) (name : String) (mutable : Bool) (v : Value) :
    (m.defining name mutable v).Regular := by
  have more : Regular { m with cells := m.cells.push ⟨name, mutable, v⟩ } :=
    { regular with backed := backed_pushing regular.backed _ }
  exact regular_naming more m.current name (by simp)

theorem regular_setting (regular : m.Regular) (i : Nat) (v : Value) : (m.setting i v).Regular :=
  { regular with backed := backed_setting regular.backed i _ }

theorem regular_binding (regular : m.Regular) (i : Nat) (name : String) (arity : Nat)
    {f : Callable} (below : f.Below m.scopes.next) :
    Regular { m with scopes := m.scopes.bindFunction i name arity f } := by
  constructor
  · exact Scopes.founded_bindFunction regular.founded _ _ _ _
  · exact backed_bindFunction regular.backed _ _ _ _
  · simpa using regular.here
  · simpa using regular.home
  · intro j other many g own
    dsimp only at own
    rw [Scopes.ownFunction?_bindFunction] at own
    split at own
    · cases own
      simpa using below
    · simpa using regular.functions j other many g own

theorem regular_inside (regular : m.Regular) {parent : Nat} (inside : parent < m.scopes.next) :
    (m.inside parent).Regular := by
  have entered := regular_entered regular inside
  have bound := regular_binding entered m.scopes.next "print" 1 (f := .print) nofun
  exact { bound with home := bound.here }

theorem regular_fresh : fresh.Regular := by
  have empty : empty.Regular := by
    constructor
    · exact Scopes.founded_single
    · exact backed_empty
    · decide
    · decide
    · intro i name arity f own
      simp [empty] at own
  exact regular_inside empty (by decide)

end Machine

structure Machine.Settled (bound : Nat) (m : Machine) : Prop extends m.Regular where
  old : bound ≤ m.scopes.next
  below : ∀ i name arity f, m.scopes.ownFunction? i name arity = some f → f.Below bound

namespace Machine

variable {bound : Nat} {m n : Machine}

theorem settled_entered (settled : m.Settled bound) {parent : Nat}
    (inside : parent < m.scopes.next) : (m.entered parent).Settled bound := by
  refine ⟨regular_entered settled.toRegular inside, ?_, fun i name arity f own => ?_⟩
  · exact Nat.le_trans settled.old (by simp [entered])
  · rw [entered, Scopes.ownFunction?_addChild] at own
    exact settled.below i name arity f own

theorem settled_defining (settled : m.Settled bound) (name : String) (mutable : Bool)
    (v : Value) : (m.defining name mutable v).Settled bound := by
  refine ⟨regular_defining settled.toRegular name mutable v, ?_, fun i other arity f own => ?_⟩
  · simpa [defining] using settled.old
  · rw [defining, Scopes.ownFunction?_bindVariable] at own
    exact settled.below i other arity f own

theorem settled_registering (settled : m.Settled bound) (here : m.current < bound) (f : Function) :
    (m.registering f).Settled bound := by
  have own : (Callable.function f m.current).Below bound := by
    rintro d scope ⟨⟩
    exact here
  refine ⟨?_, ?_, fun i name arity g found => ?_⟩
  · exact regular_binding settled.toRegular _ _ _ (Callable.below_of_le own settled.old)
  · simpa [registering] using settled.old
  · rw [registering, Scopes.ownFunction?_bindFunction] at found
    split at found
    · cases found
      exact own
    · exact settled.below i name arity g found

end Machine

@[reducible] def ScopeLaw.settled (bound : Nat) : ScopeLaw where
  holds := Machine.Settled bound
  knows _ _ f := f.Below bound
  grows := (ScopeLaw.rooted bound).grows
  refl := (ScopeLaw.rooted bound).refl
  trans := (ScopeLaw.rooted bound).trans
  found holds known := by
    obtain ⟨j, -, own⟩ := List.exists_of_findSome?_eq_some known
    exact holds.below j _ _ _ own
  child holds := Machine.settled_entered holds holds.here
  call holds known :=
    Machine.settled_entered holds (Nat.lt_of_lt_of_le (known _ _ rfl) holds.old)
  back {m n parent _} before after inner := by
    have more : m.scopes.next + 1 ≤ n.scopes.next := by
      simpa [Machine.entered] using inner.2
    have grown := Nat.le_of_succ_le more
    exact ⟨{ after with here := Nat.lt_of_lt_of_le before.here grown }, rfl, grown⟩
  defined mutable v holds _ := ⟨Machine.settled_defining holds _ mutable v, rfl, by
    simp [Machine.defining]⟩
  assigned v _ _ _ holds :=
    ⟨{ holds with backed := Machine.backed_setting holds.backed _ _ }, rfl, Nat.le_refl _⟩
  aside _ _ holds _ := ⟨{ holds with }, rfl, Nat.le_refl _⟩

theorem settled_registers (bound : Nat) : (ScopeLaw.settled bound).Registers (· < bound) where
  registers m f settled here := by
    refine ⟨Machine.settled_registering settled here f, rfl, ?_⟩
    simp [Machine.registering]
  lasts _ _ _ grows := grows.1

theorem Machine.regular_run {m : Machine} (regular : m.Regular) (rule : DivisionScale)
    (fuel : Nat) (p : Program) : (m.run rule fuel p).2.Regular ∧
      ∀ x ∈ (m.history rule fuel p).moments, x.machine.Regular := by
  have settled : Machine.Settled m.scopes.next { m with output := #[] } :=
    ⟨{ regular with }, Nat.le_refl _, regular.functions⟩
  have ran := runs_program
    (opens_program (settled_registers m.scopes.next) rule fuel p settled regular.here)
  obtain ⟨_, -, kept⟩ := ran.1
  constructor
  · rw [← history_machine]
    exact kept.holds.toRegular
  · intro x member
    exact ((kept.moments x member).resolve_left nofun).1.toRegular

namespace Session

variable {s : Session}

theorem regular_exported {m : Machine} (regular : m.Regular) {found : Option Nat} {name : String}
    (inside : ∀ i, found = some i → i < m.cells.size) :
    Machine.Regular { m with scopes := (intoRoot m.scopes found name).2 } := by
  cases found with
  | none => exact regular
  | some i =>
    unfold intoRoot
    cases m.scopes.variableClash? 0 name with
    | some r => exact regular
    | none => exact Machine.regular_naming regular 0 name (inside i rfl)

theorem regular_step (regular : s.machine.Regular) (step : Step) :
    (s.after step).machine.Regular ∧ ∀ x ∈ s.during step, x.machine.Regular := by
  have root : 0 < s.machine.scopes.next := Nat.zero_lt_of_lt regular.here
  have quiet : ∀ {moments : List Moment}, moments = [] → ∀ x ∈ moments, x.machine.Regular := by
    rintro _ rfl x member
    cases member
  cases step with
  | fresh => exact ⟨Machine.regular_inside regular root, quiet rfl⟩
  | child => exact ⟨Machine.regular_inside regular regular.home, quiet rfl⟩
  | run source typed fuel =>
    rcases StoreLaw.after_run s source typed fuel with ⟨machine, none⟩ | ⟨p, machine, moments⟩
    · rw [machine, none]
      exact ⟨regular, quiet rfl⟩
    · rw [machine, moments]
      exact Machine.regular_run regular s.rule fuel p
  | analyse p =>
    refine ⟨?_, quiet rfl⟩
    simp only [after, analyse]
    cases Typing.program p s.static <;> exact regular
  | interpret p fuel => exact Machine.regular_run regular s.rule fuel p
  | set name value =>
    refine ⟨?_, quiet rfl⟩
    simp only [after, set?]
    cases s.cell? name with
    | none => exact regular
    | some i => exact Machine.regular_setting regular i _
  | exportVariable name newName =>
    refine ⟨?_, quiet rfl⟩
    exact regular_exported regular fun i found => Machine.lt_size_of_found regular.backed found
  | exportFunction name arity newName newArity =>
    refine ⟨?_, quiet rfl⟩
    simp only [after, exportFunction]
    cases found : s.callable? name arity with
    | none => exact regular
    | some f =>
      have below := Machine.below_of_found regular found
      exact Machine.regular_binding regular 0 newName newArity below

/-- At every moment of a session the machine is regular. -/
theorem regular_timeline (regular : s.machine.Regular) (steps : List Step) :
    ∀ x ∈ s.timeline steps, x.machine.Regular := by
  induction steps generalizing s with
  | nil => simpa [timeline] using regular
  | cons step steps ih =>
    obtain ⟨after, during⟩ := regular_step regular step
    intro x member
    rw [timeline, List.append_assoc] at member
    rcases List.mem_append.mp member with later | member
    · exact ih after x later
    rcases List.mem_append.mp member with now | before
    · exact during x now
    · rw [List.mem_singleton.mp before]
      exact regular

end Session

end Plc

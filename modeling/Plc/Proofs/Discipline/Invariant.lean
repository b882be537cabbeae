import Plc.Proofs.Discipline
import Plc.Proofs.Scopes
import Plc.Proofs.Watch.Runs

/-!
What holds at every moment of a run under a discipline. Every cell has the record that its variable
was defined with. Names mean what the environment says they mean, cells hold what their records
allow, and no two list variables hold one list.
-/

namespace Plc

open Watched

def Moment.record? (x : Moment) : Option (Option Variable) :=
  match x.event with
  | .defined record _ => some record
  | _ => none

def History.records (h : History) : List (Option Variable) :=
  (h.moments.filterMap Moment.record?).reverse

theorem records_defined (h : History) (record : Option Variable) (i : Nat) (m : Machine) :
    (h.come (.defined record i) m).records = h.records ++ [record] := by
  simp [History.records, History.come, Moment.record?]

theorem records_come (h : History) {e : Event} {m : Machine}
    (other : Moment.record? ⟨e, m⟩ = none) : (h.come e m).records = h.records := by
  simp only [History.records, History.come, List.filterMap_cons, other]

theorem records_reach (h : History) (m : Machine) : (h.come .reached m).records = h.records :=
  records_come h rfl

theorem getElem?_longer {α : Type} {as bs : List α} (longer : as <+: bs) {i : Nat} {a : α}
    (found : as[i]? = some a) : bs[i]? = some a := by
  obtain ⟨rest, rfl⟩ := longer
  rw [List.getElem?_append_left (List.getElem?_eq_some_iff.mp found).1, found]

namespace Discipline

variable {rule : DivisionScale} (D : Discipline rule)

def Holds (h : Heap) (v : Variable) (w : Value) : Prop :=
  if v.list then ∃ p, w = .list p ∧ p < h.size ∧ ∀ u ∈ h.elements p, D.conforms v.ty u
  else D.conforms v.ty w

def Conform (records : List (Option Variable)) (m : Machine) : Prop :=
  ∀ (i : Nat) (v : Variable) (c : Cell), records[i]? = some (some v) → m.cells[i]? = some c →
    D.Holds m.heap v c.value

def ListAt (records : List (Option Variable)) (m : Machine) (i p : Nat) : Prop :=
  ∃ v c, records[i]? = some (some v) ∧ v.list = true ∧ m.cells[i]? = some c ∧ c.value = .list p

structure Stored (records : List (Option Variable)) (m : Machine) : Prop where
  size : m.cells.size = records.length
  conform : D.typed → D.Conform records m
  apart : D.typed → ∀ i j p, ListAt records m i p → ListAt records m j p → i = j

def Yields (h : Heap) (e : Expr) (v : Value) : Prop :=
  ∀ T, e.ty = some T →
    match e with
    | .list .. => ∃ p, v = .list p ∧ p < h.size ∧ ∀ u ∈ h.elements p, D.conforms T u
    | _ => D.conforms T v

def Tells (records : List (Option Variable)) (x : Moment) : Prop :=
  match x.event with
  | .reached => True
  | .defined record i => records[i]? = some record ∧ (D.noted → ∃ v, record = some v)
  | .resolved record i => D.noted → records[i]? = some record
  | .evaluated e v => D.typed → D.Yields x.machine.heap e v
  | .called .. => True
  | .invoked .print vs => vs.length = 1
  | .invoked (.function f _) vs => vs.length = f.parameters.length

/-- What is said of every moment, by the records of all variables. -/
structure Good (records : List (Option Variable)) (x : Moment) : Prop where
  size : x.machine.cells.size ≤ records.length
  conform : D.typed → D.Conform records x.machine
  tells : D.Tells records x

variable (W : Frame)

structure Below (Γ : Env) : Prop where
  names : ∀ name v, Γ.findVariable? name = some v → W.bindings.lookup name = some v
  functions : ∀ name arity s, Γ.findFunction? name arity = some s →
    W.functions.lookup (name, arity) = some s

def Implements (home : Nat) (s : Signature) : Callable → Prop
  | .print => s = Typing.printSignature
  | .function f scope => scope = home ∧ D.FineFunction f ∧
    ∃ Γ, Below W Γ ∧ BodyOk D.noted Γ f s

structure Placed (records : List (Option Variable)) (t : Scopes Nat Callable) (current home : Nat) :
    Prop where
  here : current < t.next
  outer : home < t.next
  founded : t.Founded
  sight : ∀ name arity, t.findFunction? current name arity = t.findFunction? home name arity
  functions : ∀ name arity s, W.functions.lookup (name, arity) = some s →
    ∃ f, t.findFunction? home name arity = some f ∧ D.Implements W home s f
  globals : ∀ name v, W.bindings.lookup name = some v →
    ∃ i, t.findVariable? home name = some i ∧ (D.noted → records[i]? = some (some v))

/-- Names used in scope `current` mean what `Γ` says. -/
structure Sees (Γ : Env) (records : List (Option Variable)) (t : Scopes Nat Callable)
    (current : Nat) : Prop where
  names : ∀ name v, Γ.findVariable? name = some v →
    ∃ i, t.findVariable? current name = some i ∧ (D.noted → records[i]? = some (some v))
  functions : ∀ name arity s, Γ.findFunction? name arity = some s →
    W.functions.lookup (name, arity) = some s

structure Fits (Γ : Env) (records : List (Option Variable)) (t : Scopes Nat Callable)
    (current : Nat) : Prop extends D.Sees W Γ records t current where
  free : ∀ name, Γ.own? name = none → t.ownVariable? current name = none

structure Sound (h : History) : Prop where
  placed : D.Placed W h.records h.machine.scopes h.machine.current h.machine.home
  stored : D.Stored h.records h.machine
  moments : ∀ x ∈ h.moments, D.Good h.records x

abbrev SeesIn (Γ : Env) (h : History) : Prop :=
  D.Sees W Γ h.records h.machine.scopes h.machine.current

abbrev FitsIn (Γ : Env) (h : History) : Prop :=
  D.Fits W Γ h.records h.machine.scopes h.machine.current

/-- Later in the same scope: only variables of this scope are new. -/
structure Since (h k : History) : Prop where
  sound : D.Sound W k
  current : k.machine.current = h.machine.current
  home : k.machine.home = h.machine.home
  scopes : h.machine.scopes.Later h.machine.current k.machine.scopes
  records : h.records <+: k.records
  lists : D.typed → ∀ i p, ListAt h.records h.machine i p → ListAt k.records k.machine i p

structure Still (h k : History) : Prop extends D.Since W h k where
  same : h.machine.scopes.Extends k.machine.scopes

def Stops (reason : Halt) (_ : History) : Prop := ∀ e, reason = .error e → D.permits e

/-- The action leaves all scopes as they are, and its value is `good`. -/
def Evals {α : Type} (h : History) (act : Watched α) (good : α → History → Prop) : Prop :=
  Runs (D.Still W) D.Stops h act good

def Execs {α : Type} (h : History) (act : Watched α) (good : α → History → Prop) : Prop :=
  Runs (D.Since W) D.Stops h act good

variable {D W} {h k l : History}

theorem since_refl (sound : D.Sound W h) : D.Since W h h :=
  ⟨sound, rfl, rfl, Scopes.later_of_extends (Scopes.extends_refl _) sound.placed.here,
    List.prefix_rfl, fun _ _ _ => id⟩

theorem since_trans (first : D.Since W h k) (second : D.Since W k l) : D.Since W h l :=
  ⟨second.sound, second.current.trans first.current, second.home.trans first.home,
    Scopes.later_trans first.scopes (first.current ▸ second.scopes),
    first.records.trans second.records,
    fun strict i p held => second.lists strict i p (first.lists strict i p held)⟩

theorem still_refl (sound : D.Sound W h) : D.Still W h h :=
  ⟨since_refl sound, Scopes.extends_refl _⟩

theorem still_trans (first : D.Still W h k) (second : D.Still W k l) : D.Still W h l :=
  ⟨since_trans first.toSince second.toSince, Scopes.extends_trans first.same second.same⟩

theorem inner_since (since : D.Since W h k) (inner : h.machine.home < h.machine.current) :
    k.machine.home < k.machine.current := by
  rw [since.home, since.current]
  exact inner

theorem inside_of_conform {records : List (Option Variable)} {m : Machine} {i p : Nat}
    (conform : D.Conform records m) (held : ListAt records m i p) : p < m.heap.size := by
  obtain ⟨v, c, known, list, found, is⟩ := held
  have holds := conform i v c known found
  rw [Holds, if_pos list] at holds
  obtain ⟨q, same, inside, _⟩ := holds
  rw [is] at same
  cases same
  exact inside

theorem conform_longer {records more : List (Option Variable)} {m : Machine}
    (longer : records <+: more) (size : m.cells.size ≤ records.length)
    (conform : D.Conform records m) : D.Conform more m := by
  intro i v c known found
  have early : i < records.length :=
    Nat.lt_of_lt_of_le (Array.getElem?_eq_some_iff.mp found).1 size
  refine conform i v c ?_ found
  obtain ⟨rest, rfl⟩ := longer
  rwa [List.getElem?_append_left early] at known

theorem good_longer {records more : List (Option Variable)} {x : Moment} (longer : records <+: more)
    (good : D.Good records x) : D.Good more x := by
  refine ⟨Nat.le_trans good.size longer.length_le,
    fun strict => conform_longer longer good.size (good.conform strict), ?_⟩
  have tells := good.tells
  unfold Tells at tells ⊢
  cases event : x.event with
  | reached => trivial
  | defined record i =>
    rw [event] at tells
    exact ⟨getElem?_longer longer tells.1, tells.2⟩
  | resolved record i =>
    rw [event] at tells
    exact fun notes => getElem?_longer longer (tells notes)
  | evaluated e v =>
    rw [event] at tells
    exact tells
  | called e f => trivial
  | invoked f vs =>
    rw [event] at tells
    cases f <;> exact tells

theorem good_come {records : List (Option Variable)} {e : Event} {m : Machine}
    (moments : ∀ x ∈ h.moments, D.Good records x) (stored : D.Stored records m)
    (tells : D.Tells records ⟨e, m⟩) : ∀ x ∈ (h.come e m).moments, D.Good records x := by
  intro x member
  rcases List.mem_cons.mp member with rfl | before
  · exact ⟨Nat.le_of_eq stored.size, stored.conform, tells⟩
  · exact moments x before

theorem sees_still {Γ : Env} (sound : D.Sound W h) (still : D.Still W h k)
    (sees : D.SeesIn W Γ h) : D.SeesIn W Γ k := by
  refine ⟨fun name v known => ?_, sees.functions⟩
  obtain ⟨i, found, record⟩ := sees.names name v known
  refine ⟨i, ?_, fun notes => getElem?_longer still.records (record notes)⟩
  rw [still.current, Scopes.findVariable?_of_extends sound.placed.founded still.same
    sound.placed.here, found]

theorem fits_still {Γ : Env} (sound : D.Sound W h) (still : D.Still W h k)
    (fits : D.FitsIn W Γ h) : D.FitsIn W Γ k := by
  refine ⟨sees_still sound still fits.toSees, fun name own => ?_⟩
  rw [still.current, Scopes.ownVariable?_of_extends still.same sound.placed.here]
  exact fits.free name own

end Discipline

end Plc

import Plc.Proofs.Restoration
import Plc.Proofs.Timeline
import Plc.Proofs.Typing.Sound

/-!
Constants, and assignments that fail. That a variable was defined as a constant is known to its cell
alone, and analysis does not ask for it. So it is a law of the store that no cell of a constant is
ever written, and a statement about assignment that one which fails has written nothing.
-/

namespace Plc

/-- The later cell of a variable: its name stays, it stays mutable or not, and a constant has the
value that it had. -/
structure Cell.Lasts (earlier later : Cell) : Prop where
  name : later.name = earlier.name
  mutable : later.mutable = earlier.mutable
  constant : earlier.mutable = false → later.value = earlier.value

theorem Cell.lasts_refl (c : Cell) : c.Lasts c := ⟨rfl, rfl, fun _ => rfl⟩

theorem Cell.lasts_trans {c d e : Cell} (first : c.Lasts d) (second : d.Lasts e) : c.Lasts e where
  name := second.name.trans first.name
  mutable := second.mutable.trans first.mutable
  constant same := (second.constant (first.mutable.trans same)).trans (first.constant same)

theorem Cell.Lasts.of_constant {c d : Cell} (lasts : c.Lasts d) (constant : c.mutable = false) :
    d = c := by
  cases c
  cases d
  simp only [Cell.mk.injEq]
  exact ⟨lasts.name, lasts.mutable, lasts.constant constant⟩

/-- A variable that is mutable may get any value. -/
theorem Cell.lasts_set {c : Cell} (mutable : c.mutable = true) (v : Value) :
    c.Lasts { c with value := v } :=
  ⟨rfl, rfl, fun constant => by rw [mutable] at constant; cases constant⟩

namespace Machine

variable {m n o : Machine}

def CellsLast (m n : Machine) : Prop :=
  ∀ (i : Nat) (c : Cell), m.cells[i]? = some c → ∃ d, n.cells[i]? = some d ∧ c.Lasts d

theorem cellsLast_same (cells : n.cells = m.cells) : m.CellsLast n :=
  fun _ c found => ⟨c, cells ▸ found, c.lasts_refl⟩

theorem cellsLast_trans (first : m.CellsLast n) (second : n.CellsLast o) : m.CellsLast o := by
  intro i c found
  obtain ⟨d, between, here⟩ := first i c found
  obtain ⟨e, last, there⟩ := second i d between
  exact ⟨e, last, Cell.lasts_trans here there⟩

theorem cellsLast_defining (name : String) (mutable : Bool) (v : Value) :
    m.CellsLast (m.defining name mutable v) := by
  intro i c found
  have inside : i < m.cells.size := (Array.getElem?_eq_some_iff.mp found).1
  refine ⟨c, ?_, c.lasts_refl⟩
  rw [defining, Array.getElem?_push, if_neg (Nat.ne_of_lt inside)]
  exact found

theorem cellsLast_setting {i : Nat} {c : Cell} (there : m.cells[i]? = some c)
    (mutable : c.mutable = true) (v : Value) : m.CellsLast (m.setting i v) := by
  intro j d found
  rw [setting, Array.getElem?_modify]
  by_cases same : i = j
  · subst same
    rw [there] at found
    cases found
    exact ⟨_, by rw [if_pos rfl, there]; rfl, Cell.lasts_set mutable v⟩
  · rw [if_neg same]
    exact ⟨d, found, d.lasts_refl⟩

end Machine

def StoreLaw.constants (rule : DivisionScale) : StoreLaw rule where
  holds _ := True
  valid _ _ := True
  grows := Machine.CellsLast
  refl _ := Machine.cellsLast_same rfl
  trans := Machine.cellsLast_trans
  lasts _ _ := trivial
  literal _ _ := trivial
  aside _ _ cells _ _ := ⟨trivial, Machine.cellsLast_same cells⟩
  cell _ _ := trivial
  element _ _ := trivial
  operation _ _ _ _ := trivial
  defined name mutable _ _ := ⟨trivial, Machine.cellsLast_defining name mutable _⟩
  assigned _ grows found mutable _ _ := by
    obtain ⟨d, there, lasts⟩ := grows _ _ found
    exact ⟨trivial, Machine.cellsLast_setting there (lasts.mutable.trans mutable) _⟩
  listed _ _ := ⟨trivial, Machine.cellsLast_same rfl, trivial⟩
  stored _ _ _ _ := ⟨trivial, Machine.cellsLast_same rfl⟩

namespace Machine

def cellOf? (m : Machine) (name : String) : Option Cell :=
  (m.cell? name).map fun i => m.cells[i]?.getD default

/-- The expressions inside an assignment that are evaluated for it, in this order. There are none
where the receiver is refused at once: it has to be a mutable variable, or an element of a variable
that holds a list. -/
def operands (m : Machine) : (receiver value : Expr) → List Expr
  | .access name _ _, value => if (m.cellOf? name).any Cell.mutable then [value] else []
  | .element name index _ _, value =>
    if (m.cellOf? name).any fun c => c.value.kind == .list then [index, value] else []
  | _, _ => []

end Machine

namespace Eval

open Watched (Looks)

section

variable {α β : Type} {m n : Machine} {e : Halt} {act : Eval α} {next : α → Eval β}

theorem error_of_bind (failed : (act >>= next) m = .error e n) :
    act m = .error e n ∨ ∃ a k, act m = .ok a k ∧ next a k = .error e n := by
  change EStateM.bind act next m = .error e n at failed
  unfold EStateM.bind at failed
  cases ended : act m with
  | ok a k =>
    rw [ended] at failed
    exact .inr ⟨a, k, rfl, failed⟩
  | error e k =>
    rw [ended] at failed
    cases failed
    exact .inl rfl

/-- What only reads changes nothing, whether it fails or something behind it does. -/
theorem error_of_looks (looks : Looks act) (failed : (act >>= next) m = .error e n) :
    n = m ∨ ∃ a, act m = .ok a m ∧ next a m = .error e n := by
  rcases error_of_bind failed with failed | ⟨a, k, ended, failed⟩
  · rcases looks m with ⟨_, ended⟩ | ⟨_, ended⟩
    · rw [ended] at failed
      cases failed
    · rw [ended] at failed
      cases failed
      exact .inl rfl
  · rcases looks m with ⟨b, same⟩ | ⟨_, same⟩
    · rw [ended] at same
      cases same
      exact .inr ⟨a, ended, failed⟩
    · rw [ended] at same
      cases same

variable {γ : Type} {each : γ → Eval α} {c : γ} {cs : List γ} {left : Machine → Prop}

theorem leaves_none (here : left m) : (([] : List γ).mapM each).Leaves m left := here

theorem leaves_error (ended : each c m = .error e n) (last : left n) :
    ((c :: cs).mapM each).Leaves m left := by
  rw [List.mapM_cons]
  simp only [Leaves, bind, EStateM.bind, ended]
  exact last

theorem leaves_ok {a : α} (ended : each c m = .ok a n) (others : (cs.mapM each).Leaves n left) :
    ((c :: cs).mapM each).Leaves m left := by
  rw [List.mapM_cons]
  simp only [Leaves, bind, EStateM.bind, ended] at others ⊢
  cases rest : cs.mapM each n with
  | ok as k =>
    rw [rest] at others
    exact others
  | error e k =>
    rw [rest] at others
    exact others

end

variable {rule : DivisionScale} {fuel : Nat} {m n : Machine} {e : Halt}

/-- Everything that an element has to pass comes before it is stored. -/
theorem error_of_storing {name : String} {place : Nat} {k v : Value}
    (failed : (do
      if ← onHeap fun h => Operation.closesCycle h place v then fail (.selfContaining name)
      let vs ← elements place
      let k ← position vs.length k
      setElement place k v) m = .error e n) : n = m := by
  have stored : ∀ m, (do
      let vs ← elements place
      let k ← position vs.length k
      setElement place k v) m = .error e n → n = m := by
    intro m failed
    rcases error_of_looks (Watched.looks_elements place) failed with same | ⟨vs, -, failed⟩
    · exact same
    rcases error_of_looks (Watched.looks_position vs.length k) failed with same | ⟨i, -, failed⟩
    · exact same
    · cases failed
  rcases error_of_looks (Watched.looks_onHeap _) failed with same | ⟨cyclic, -, failed⟩
  · exact same
  cases cyclic with
  | false => exact stored m failed
  | true =>
    rcases error_of_looks (Watched.looks_fail _) failed with same | ⟨_, -, failed⟩
    · exact same
    · exact stored m failed

/-- A variable is looked up and its cell is read. -/
theorem error_of_cell {β : Type} {name : String} {next : Nat → Cell → Eval β}
    (failed : (do
      let i ← cellNamed name
      let c ← cell i
      next i c) m = .error e n) :
    m.cellOf? name = none ∧ n = m ∨ ∃ i c, m.cellOf? name = some c ∧ next i c m = .error e n := by
  unfold Machine.cellOf?
  cases found : m.cell? name with
  | none =>
    rcases error_of_bind failed with failed | ⟨i, k, ended, -⟩
    · simp only [cellNamed, found] at failed
      cases failed
      exact .inl ⟨rfl, rfl⟩
    · simp only [cellNamed, found] at ended
      cases ended
  | some i =>
    rcases error_of_bind failed with failed | ⟨j, k, ended, failed⟩
    · simp only [cellNamed, found] at failed
      cases failed
    · simp only [cellNamed, found] at ended
      cases ended
      exact .inr ⟨i, _, rfl, failed⟩

/-- An assignment that fails leaves what the evaluation of its operands leaves. -/
theorem error_of_assign {receiver value : Expr}
    (failed : assign rule (fuel + 1) receiver value m = .error e n) :
    ((m.operands receiver value).mapM (evaluate rule fuel)).Leaves m (n = ·) := by
  cases receiver with
  | access name record ty =>
    rw [Machine.operands]
    rcases error_of_cell failed with ⟨none, same⟩ | ⟨i, c, found, failed⟩
    · rw [none]
      exact leaves_none same
    rw [found, Option.any_some]
    cases mutable : c.mutable with
    | false =>
      rw [mutable] at failed
      rcases error_of_looks (Watched.looks_fail _) failed with same | ⟨_, refused, -⟩
      · exact leaves_none same
      · cases refused
    | true =>
      rw [mutable] at failed
      rcases error_of_bind failed with ended | ⟨v, k, -, failed⟩
      · exact leaves_error ended rfl
      · cases failed
  | element name index record ty =>
    rw [Machine.operands]
    rcases error_of_cell failed with ⟨none, same⟩ | ⟨i, c, found, failed⟩
    · rw [none]
      exact leaves_none same
    rw [found, Option.any_some]
    unfold listOf at failed
    cases held : c.value with
    | list place =>
      rw [held] at failed
      change (pure place >>= fun place => (_ : Eval Unit)) m = _ at failed
      rw [pure_bind] at failed
      rcases error_of_bind failed with ended | ⟨k, l, ended, failed⟩
      · exact leaves_error ended rfl
      refine leaves_ok ended ?_
      rcases error_of_bind failed with ended | ⟨v, o, ended, failed⟩
      · exact leaves_error ended rfl
      · exact leaves_ok ended (leaves_none (error_of_storing failed))
    | _ =>
      rw [held] at failed
      rcases error_of_looks (Watched.looks_fail _) failed with same | ⟨_, refused, -⟩
      · exact leaves_none same
      · cases refused
  | literal | group | binary | call | list =>
    rcases Watched.looks_fail (α := Unit) .badReceiver m with ⟨_, ended⟩ | ⟨_, ended⟩
    · cases ended
    · cases failed
      exact leaves_none rfl

end Eval

/-- The states of a run from its start to its end, the latest first. -/
def Machine.states (m : Machine) (rule : DivisionScale) (fuel : Nat) (p : Program) :
    List Machine :=
  (m.run rule fuel p).2 :: (m.history rule fuel p).moments.map Moment.machine ++ [m]

theorem states_last (m : Machine) (rule : DivisionScale) (fuel : Nat) (p : Program) :
    (m.states rule fuel p).Pairwise fun later earlier => earlier.CellsLast later := by
  have ordered := StoreLaw.ordered_run (L := .constants rule) m fuel p trivial
  have moments : ((m.history rule fuel p).moments.map Moment.machine).Pairwise
      fun later earlier => earlier.CellsLast later := List.pairwise_map.mpr ordered.pairwise
  have toFirst : ∀ n ∈ (m.history rule fuel p).moments.map Moment.machine, m.CellsLast n := by
    intro n member
    obtain ⟨x, moment, rfl⟩ := List.mem_map.mp member
    exact ordered.since x moment
  have toLast : ∀ n ∈ (m.history rule fuel p).moments.map Moment.machine,
      n.CellsLast (m.run rule fuel p).2 := by
    intro n member
    obtain ⟨x, moment, rfl⟩ := List.mem_map.mp member
    exact ordered.till x moment
  refine List.pairwise_append.mpr ⟨.cons toLast moments, List.pairwise_singleton _ _, ?_⟩
  intro n later first same
  obtain rfl := List.mem_singleton.mp same
  rcases List.mem_cons.mp later with rfl | member
  · exact ordered.grown
  · exact toFirst n member

/-- Constants never change. In whatever state of a run there is a constant, its cell is the same in
every later state, and an assignment that fails, in whatever state, leaves the machine as the
evaluation of its operands has left it. -/
theorem constants_last (m : Machine) (rule : DivisionScale) (fuel : Nat) (p : Program) :
    ((m.states rule fuel p).Pairwise fun later earlier => ∀ (i : Nat) (c : Cell),
        earlier.cells[i]? = some c → c.mutable = false → later.cells[i]? = some c) ∧
      ∀ (depth : Nat) (before after : Machine) (receiver value : Expr) (e : Halt),
        Eval.assign rule depth receiver value before = .error e after →
          ((before.operands receiver value).mapM (Eval.evaluate rule (depth - 1))).Leaves before
            (after = ·) := by
  constructor
  · refine (states_last m rule fuel p).imp fun lasts i c found constant => ?_
    obtain ⟨d, there, same⟩ := lasts i c found
    rw [there, same.of_constant constant]
  · intro depth before after receiver value e failed
    cases depth with
    | zero =>
      cases failed
      cases before.operands receiver value with
      | nil => exact Eval.leaves_none rfl
      | cons first others => exact Eval.leaves_error rfl rfl
    | succ depth => exact Eval.error_of_assign failed

def storingIndex : String :=
  "VAL x = 1; LIST xs = [4]; FUN next(): Integer DO xs[0] = 5; RETURN 1; END " ++
    "FUN main(): Integer DO xs[next()] = x; RETURN 0; END"

def oneConstant : Machine := Machine.fresh.defining "x" false (.integer 1)

/-- The element that the call stored is there when the index turns out to be too large, and a
constant is refused before anything is evaluated. -/
theorem constants_last_index : ∃ p, Source.parse storingIndex = .ok p ∧
    (p.run .dividend 20).ending = .error (.indexRange 1 1) ∧
    (Machine.fresh.run .dividend 20 p).2.heap = #[[.integer 5]] ∧
    ((Machine.fresh.states .dividend 20 p).Pairwise fun later earlier => ∀ (i : Nat) (c : Cell),
      earlier.cells[i]? = some c → c.mutable = false → later.cells[i]? = some c) ∧
    Eval.assign .dividend 5 (.access "x" none none) (.literal (.integer 2) none) oneConstant =
      .error (.error (.immutable "x")) oneConstant ∧
    ((oneConstant.operands (.access "x" none none) (.literal (.integer 2) none)).mapM
      (Eval.evaluate .dividend 4)).Leaves oneConstant (oneConstant = ·) := by
  have known : ∃ p ∈ (Source.parse storingIndex).toOption,
      (p.run .dividend 20).ending = .error (.indexRange 1 1) ∧
      (Machine.fresh.run .dividend 20 p).2.heap = #[[.integer 5]] := by decide +kernel
  obtain ⟨p, read, ends, heap⟩ := exists_ok known
  have refused : Eval.assign .dividend 5 (.access "x" none none) (.literal (.integer 2) none)
      oneConstant = .error (.error (.immutable "x")) oneConstant := rfl
  obtain ⟨states, failing⟩ := constants_last .fresh .dividend 20 p
  exact ⟨p, read, ends, heap, states, refused, failing 5 _ _ _ _ _ refused⟩

end Plc

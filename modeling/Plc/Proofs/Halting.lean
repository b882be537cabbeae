import Plc.Proofs.Acyclic
import Plc.Proofs.Depth
import Plc.Proofs.ScopeLaw

/-!
Where the fuel is enough. Without loops, depth comes from the tree and from what is called. So when
every function that a name may mean is paid for by the price of the name, fuel for the depth of a
tree is enough for its evaluation, from any state where no list lies in itself: text, equality and
the search for a list follow lists into each other and would not end otherwise.
-/

namespace Plc

open Watched

def Stmt.Straight (ss : List Stmt) : Prop := ∀ s ∈ Stmt.allParts ss, ¬ s.IsLoop

def Callable.Priced (cost : Costs) (name : String) (arity : Nat) : Callable → Prop
  | .print => 1 ≤ cost name arity
  | .function d _ => Stmt.Straight d.body ∧ Stmt.allDepth cost d.body + 1 ≤ cost name arity

theorem Callable.price_pos {cost : Costs} {name : String} {arity : Nat} {f : Callable}
    (priced : f.Priced cost name arity) : 1 ≤ cost name arity := by
  cases f with
  | print => exact priced
  | function d scope => exact Nat.le_trans (Nat.le_add_left 1 _) priced.2

/-- Every function is worth the price of its name. -/
def Machine.Priced (cost : Costs) (m : Machine) : Prop :=
  ∀ i name arity f, m.scopes.ownFunction? i name arity = some f → f.Priced cost name arity

theorem Machine.priced_of_scopes {cost : Costs} {m n : Machine} (priced : m.Priced cost)
    (same : ∀ i name arity, n.scopes.ownFunction? i name arity =
      m.scopes.ownFunction? i name arity) : n.Priced cost :=
  fun i name arity f own => priced i name arity f (same i name arity ▸ own)

@[reducible] def ScopeLaw.priced (cost : Costs) : ScopeLaw where
  holds := Machine.Priced cost
  knows name arity f := f.Priced cost name arity
  grows _ _ _ := True
  refl _ := trivial
  trans _ _ := trivial
  found {m name arity f} priced found := by
    obtain ⟨i, _, own⟩ := List.exists_of_findSome?_eq_some found
    exact priced i name arity f own
  child priced := Machine.priced_of_scopes priced fun i => Scopes.ownFunction?_addChild _ i
  call priced _ := Machine.priced_of_scopes priced fun i => Scopes.ownFunction?_addChild _ i
  back _ after _ := ⟨after, trivial⟩
  defined _ _ priced _ :=
    ⟨Machine.priced_of_scopes priced fun i name =>
      Scopes.ownFunction?_bindVariable _ i _ name _, trivial⟩
  assigned _ _ _ _ priced := ⟨priced, trivial⟩
  aside _ _ priced _ := ⟨priced, trivial⟩

namespace Halting

variable {rule : DivisionScale} {cost : Costs} {α β : Type} {h k : History}

structure Ready (cost : Costs) (m : Machine) : Prop where
  acyclic : m.Acyclic
  priced : m.Priced cost

structure Onward (rule : DivisionScale) (cost : Costs) (h k : History) : Prop where
  kept : (StoreLaw.acyclic rule).Kept h k
  priced : k.machine.Priced cost

theorem Onward.ready (onward : Onward rule cost h k) : Ready cost k.machine :=
  ⟨onward.kept.1, onward.priced⟩

abbrev Valid (v : Value) (h : History) : Prop := h.machine.heap.Has v

theorem Onward.valid (onward : Onward rule cost h k) {v : Value} (valid : Valid v h) : Valid v k :=
  StoreLaw.valid_lasts onward.kept valid

def Steady (rule : DivisionScale) (cost : Costs) (h : History) (act : Watched α)
    (good : α → History → Prop) : Prop := Runs (Onward rule cost) (fun _ _ => True) h act good

/-- The fuel is enough for `act`. -/
def Alive (h : History) (act : Watched α) : Prop :=
  Runs (fun _ _ => True) (fun e _ => e ≠ .exhausted) h act fun _ _ => True

theorem steady_of_opens {act : Watched α} {good : α → History → Prop} {names : List String}
    {done : α → Prop} (keeps : (StoreLaw.acyclic rule).Keeps h act good)
    (opens : (ScopeLaw.priced cost).Opens names h act done) : Steady rule cost h act good := by
  refine runs_imp (runs_mono (runs_and keeps opens) ?_ fun _ _ _ => trivial)
    fun _ _ _ both => both.1
  rintro k ⟨kept, known, -, scopes⟩
  exact ⟨kept, scopes.holds⟩

theorem steady_of_stays {act : Watched α} {good other : α → History → Prop}
    (keeps : (StoreLaw.acyclic rule).Keeps h act good)
    (stays : (ScopeLaw.priced cost).Stays h act other) :
    Steady rule cost h act fun a k => good a k ∧ other a k :=
  runs_mono (runs_and keeps stays) (fun _ both => ⟨both.1, both.2.holds⟩) fun _ _ _ => trivial

theorem steady_glance {act : Eval α} (ready : Ready cost h.machine) (looks : Looks act) :
    Steady rule cost h (step act) fun _ _ => True :=
  runs_imp (steady_of_stays (StoreLaw.keeps_glance ready.acyclic looks)
    (ScopeLaw.stays_glance ready.priced looks)) fun _ _ _ _ => trivial

theorem alive_bind {act : Watched α} {next : α → Watched β} {good : α → History → Prop}
    (steady : Steady rule cost h act good) (first : Alive h act)
    (rest : ∀ a k, Onward rule cost h k → good a k → Alive k (next a)) :
    Alive h (act >>= next) := by
  have both :
      Runs (Onward rule cost) (fun e _ => e ≠ .exhausted) h act fun a k => good a k ∧ True :=
    runs_mono (runs_and steady first) (fun _ both => both.1) fun _ _ reason => reason.2
  exact runs_chain both (fun _ _ => trivial) fun a k onward good => rest a k onward good.1

theorem alive_pure (a : α) : Alive h (pure a) := runs_pure trivial trivial

theorem alive_note (e : Event) : Alive h (note e) := ⟨trivial, trivial⟩

theorem alive_step {act : Eval α} (lively : ∀ n, act h.machine ≠ .error .exhausted n) :
    Alive h (step act) := by
  refine runs_step ?_
  cases ended : act h.machine with
  | ok a m => exact ⟨trivial, trivial⟩
  | error e m =>
    refine ⟨trivial, ?_⟩
    rintro rfl
    exact lively m ended

theorem alive_errs {act : Eval α} (errs : Errs act) : Alive h (step act) :=
  alive_step fun n ended => by
    obtain ⟨cause, is⟩ := errs h.machine _ n ended
    cases is

theorem within_of_valid {m : Machine} (ready : Ready cost m) {v : Value} (valid : m.heap.Has v) :
    v.Within m.heap m.heap.size :=
  Value.within_of_has ready.acyclic.acyclic ready.acyclic.closed valid

theorem text_answers {m : Machine} (ready : Ready cost m) {v : Value} (valid : m.heap.Has v) :
    ∃ s, Operation.text m.heap v = .ok s := by
  obtain ⟨s, text⟩ := Value.text_some _ v (within_of_valid ready valid)
  exact ⟨s, by simp only [Operation.text, text]⟩

theorem equal_answers {m : Machine} (ready : Ready cost m) {v : Value} (valid : m.heap.Has v)
    (w : Value) : ∃ b, Operation.equal m.heap v w = .ok b := by
  obtain ⟨b, equal⟩ := Value.equal_some _ v w (within_of_valid ready valid)
  exact ⟨b, by simp only [Operation.equal, equal]⟩

theorem closesCycle_answers {m : Machine} (ready : Ready cost m) {v : Value}
    (valid : m.heap.Has v) (place : Nat) :
    ∃ b, Operation.closesCycle m.heap place v = .ok b := by
  obtain ⟨b, answer, -⟩ :=
    Operation.closesCycle_reaches ready.acyclic.acyclic ready.acyclic.closed valid place
  exact ⟨b, answer⟩

theorem alive_onHeap {f : Heap → Except Halt α} (answers : f h.machine.heap ≠ .error .exhausted) :
    Alive h (step (Eval.onHeap f)) := by
  refine alive_step fun n ended => answers ?_
  unfold Eval.onHeap Eval.lift at ended
  cases result : f h.machine.heap with
  | ok a => simp [result] at ended
  | error e =>
    rw [result] at ended
    cases ended
    rfl

theorem apply_answers {m : Machine} (ready : Ready cost m) (op : Operator) {l r : Value}
    (left : m.heap.Has l) (right : m.heap.Has r) :
    Operation.apply rule m.heap op l r ≠ .error .exhausted :=
  Operation.apply_ne_exhausted op (text_answers ready left) (text_answers ready right)
    (equal_answers ready left r)

end Halting

end Plc

import Plc.Proofs.Fuel
import Plc.Proofs.Twins.Runs

/-!
What a switch and its conditionals come down to. Both evaluate one value after the other until one
is equal to that of the switch. The conditionals need more fuel for it, as each of them stands
inside the one before it, but with enough fuel this makes no difference.
-/

namespace Plc

namespace Eval

def testing (name : String) (act : Eval Value) (yes no : Eval Flow) : Eval Flow := do
  let i ← cellNamed name
  let c ← cell i
  let w ← act
  let same ← onHeap fun h => Operation.equal h c.value w
  inChild (if same then yes else no)

def tested (evaluate : Expr → Eval Value) (run : List Stmt → Eval Flow) (name : String) :
    List Case → Eval Flow
  | [] => pure .next
  | .arm none body :: _ => run body
  | .arm (some e) body :: others =>
    testing name (evaluate e) (run body) (tested evaluate run name others)

theorem outlasts_testing {name : String} {act act' : Eval Value} {yes yes' no no' : Eval Flow}
    (value : Outlasts act act') (taken : Outlasts yes yes') (other : Outlasts no no') :
    Outlasts (testing name act yes no) (testing name act' yes' no') := by
  unfold testing
  refine outlasts_from _ fun i => outlasts_from _ fun c => outlasts_bind value fun w => ?_
  refine outlasts_from _ fun same => outlasts_inChild ?_
  cases same with
  | true => exact taken
  | false => exact other

variable {rule : DivisionScale} {fuel less more : Nat} {name : String}

theorem outlasts_tested (enough : less ≤ more) (arms : List Case) :
    Outlasts (tested (evaluate rule more) (sequence (execute rule more)) name arms)
      (tested (evaluate rule less) (sequence (execute rule less)) name arms) := by
  have outlasts : OutlastsAt rule more less := outlastsAt_of_le enough
  induction arms with
  | nil => exact outlasts_refl _
  | cons arm others ih =>
    obtain ⟨value, body⟩ := arm
    have run := outlasts_sequence outlasts.execute body
    cases value with
    | none => exact run
    | some e => exact outlasts_testing (outlasts.evaluate e) run ih

theorem sequence_single (act : Stmt → Eval Flow) (s : Stmt) : sequence act [s] = act s := by
  rw [sequence, ← bind_pure (act s), bind_assoc]
  refine bind_congr fun flow => ?_
  cases flow <;> rfl

theorem equal_boolean (v w : Value) :
    (onHeap (fun h => Operation.apply rule h .equal v w) >>= boolean) =
      onHeap fun h => Operation.equal h v w := by
  funext m
  simp only [bind, EStateM.bind, onHeap, lift, Operation.apply]
  cases Operation.equal m.heap v w <;> rfl

theorem condition_equal (e : Expr) :
    condition rule (fuel + 3) (.binary .equal (.access name none none) e none) =
      cellNamed name >>= fun i => cell i >>= fun c => evaluate rule (fuel + 1) e >>= fun w =>
        onHeap fun h => Operation.equal h c.value w := by
  show ((cellNamed name >>= fun i => cell i >>= fun c => pure c.value) >>= fun v =>
    evaluate rule (fuel + 1) e >>= fun w =>
      onHeap fun h => Operation.apply rule h .equal v w) >>= boolean = _
  simp only [bind_assoc, pure_bind, equal_boolean]

/-- A conditional with its test and its parts. Four units of fuel are used up before the variable
is read. -/
theorem sequence_chain (e : Expr) (body : List Stmt) (others : List Case) :
    sequence (execute rule (fuel + 4)) (Case.chain name (.arm (some e) body :: others)) =
      testing name (evaluate rule (fuel + 1) e) (sequence (execute rule (fuel + 3)) body)
        (sequence (execute rule (fuel + 3)) (Case.chain name others)) := by
  rw [Case.chain, sequence_single, testing]
  show (condition rule (fuel + 3) (.binary .equal (.access name none none) e none) >>= fun same =>
    inChild (sequence (execute rule (fuel + 3)) (if same then body else _))) = _
  rw [condition_equal]
  simp only [bind_assoc]
  refine bind_congr fun i => bind_congr fun c => bind_congr fun w => bind_congr fun same => ?_
  cases same <;> rfl

theorem outlasts_block (enough : less ≤ more) (ss : List Stmt) :
    Outlasts (sequence (execute rule more) ss) (sequence (execute rule less) ss) :=
  outlasts_sequence (outlastsAt_of_le enough).execute ss

/-- With so much more fuel each conditional has what its test and its body need. -/
theorem chain_outlasts (arms : List Case) (enough : less + 4 * arms.length ≤ more) :
    Outlasts (sequence (execute rule more) (Case.chain name arms))
      (tested (evaluate rule less) (sequence (execute rule less)) name arms) := by
  induction arms generalizing more with
  | nil => exact outlasts_refl _
  | cons arm others ih =>
    rw [List.length_cons] at enough
    obtain ⟨value, body⟩ := arm
    cases value with
    | none => exact outlasts_block (by omega) body
    | some e =>
      obtain ⟨fuel, rfl⟩ : ∃ fuel, more = fuel + 4 := ⟨more - 4, by omega⟩
      rw [sequence_chain]
      refine outlasts_testing ?_ (outlasts_block (by omega) body) (ih (by omega))
      exact (outlastsAt_of_le (by omega)).evaluate e

/-- In the other direction, more fuel is given to the conditionals first, so that the variable is
read at all. -/
theorem outlasts_chain (arms : List Case) (enough : less + 4 * arms.length ≤ more) :
    Outlasts (tested (evaluate rule more) (sequence (execute rule more)) name arms)
      (sequence (execute rule less) (Case.chain name arms)) := by
  induction arms generalizing less with
  | nil => exact outlasts_refl _
  | cons arm others ih =>
    rw [List.length_cons] at enough
    obtain ⟨value, body⟩ := arm
    cases value with
    | none => exact outlasts_block (by omega) body
    | some e =>
      refine outlasts_trans ?_ (outlasts_block (Nat.le_add_right less 4) _)
      rw [sequence_chain]
      refine outlasts_testing ?_ (outlasts_block (by omega) body) (ih (by omega))
      exact (outlastsAt_of_le (by omega)).evaluate e

/-- The value of the switch under its name, and the conditionals. -/
def unswitched (rule : DivisionScale) (fuel : Nat) (name : String) (c : Expr) (arms : List Case) :
    Eval Flow :=
  inChild do
    let v ← evaluate rule fuel c
    define name true v
    tested (evaluate rule fuel) (sequence (execute rule fuel)) name arms

theorem sequence_unswitched (c : Expr) (arms : List Case) :
    sequence (execute rule (fuel + 1)) (Stmt.unswitched name c arms) = (do
      let v ← evaluate rule fuel c
      define name true v
      sequence (execute rule (fuel + 1)) (Case.chain name arms)) := by
  show (evaluate rule fuel c >>= fun v => define name true v >>= fun _ => pure Flow.next) >>= _ = _
  simp only [bind_assoc, pure_bind]

theorem unswitched_outlasts (c : Expr) (arms : List Case)
    (enough : less + 4 * arms.length + 1 ≤ more) :
    Outlasts (inChild (sequence (execute rule more) (Stmt.unswitched name c arms)))
      (unswitched rule less name c arms) := by
  obtain ⟨fuel, rfl⟩ : ∃ fuel, more = fuel + 1 := ⟨more - 1, by omega⟩
  rw [sequence_unswitched]
  refine outlasts_inChild (outlasts_bind ?_ fun v => outlasts_from _ fun _ => ?_)
  · exact (outlastsAt_of_le (by omega)).evaluate c
  · exact chain_outlasts arms (by omega)

theorem outlasts_unswitched (c : Expr) (arms : List Case)
    (enough : less + 4 * arms.length + 1 ≤ more) :
    Outlasts (unswitched rule more name c arms)
      (inChild (sequence (execute rule less) (Stmt.unswitched name c arms))) := by
  refine outlasts_trans ?_ (outlasts_inChild (outlasts_block (Nat.le_add_right less 1) _))
  rw [sequence_unswitched]
  refine outlasts_inChild (outlasts_bind ?_ fun v => outlasts_from _ fun _ => ?_)
  · exact (outlastsAt_of_le (by omega)).evaluate c
  · exact outlasts_chain arms (by omega)

theorem unswitched_of_le (enough : less ≤ more) (c : Expr) (arms : List Case) :
    Outlasts (unswitched rule more name c arms) (unswitched rule less name c arms) := by
  unfold unswitched
  refine outlasts_inChild (outlasts_bind ?_ fun v => outlasts_from _ fun _ => ?_)
  · exact (outlastsAt_of_le enough).evaluate c
  · exact outlasts_tested enough arms

/-- With enough fuel the statements do what the conditionals come down to. -/
theorem ends_unswitched (c : Expr) (arms : List Case) (m : Machine)
    (ending : EStateM.Result Halt Machine Flow) :
    Ends (fun fuel => inChild (sequence (execute rule fuel) (Stmt.unswitched name c arms))) m
        ending ↔ Ends (fun fuel => unswitched rule fuel name c arms) m ending := by
  constructor
  · apply ends_of_outlasts
    · exact fun less more enough => unswitched_of_le enough c arms
    · exact fun fuel => ⟨_, outlasts_unswitched c arms (Nat.le_refl _)⟩
  · apply ends_of_outlasts
    · exact fun less more enough => outlasts_inChild (outlasts_block enough _)
    · exact fun fuel => ⟨_, unswitched_outlasts c arms (Nat.le_refl _)⟩

end Eval

end Plc

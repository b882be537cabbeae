import Plc.Proofs.Equality
import Plc.Proofs.Switch

/-!
A switch is its chain of conditionals. The machine that runs the conditionals has one cell more,
with the value of the switch, and it is one scope further in after each arm that was not taken. As
the name of that cell is used nowhere in the switch, values and bodies do the same on both sides.
-/

namespace Plc

/-- Twins of which the right one has the value of the switch under a name of its own. Its current
scope is new, and none of the variables in use is defined there. -/
structure Testing (start : Machine) (gap : Gap) (view : View) (name : String) (l r : Machine) :
    Prop extends Twins start gap view l r where
  held : r.cell? name = some gap.place
  newThere : start.scopes.next ≤ view.there ∧ view.right.next ≤ view.there
  free : ∀ x, view.known x → r.scopes.ownVariable? r.current x = none

section

variable {start : Machine} {gap : Gap} {view : View} {name : String} {l r m n : Machine}

/-- What leaves all scopes as they are leaves the variables in the current ones. -/
theorem testing_widen (testing : Testing start gap view name l r)
    (later : Twins start gap { view with left := l.scopes, right := r.scopes } m n) :
    Testing start gap view name m n := by
  have there : n.current = r.current := later.there.trans testing.there.symm
  refine { twins_widen testing.toTwins later with
    held := ?_, newThere := testing.newThere, free := fun x known => ?_ }
  · rw [Machine.cell?, there]
    exact (Scopes.findVariable?_of_extends testing.right.founded later.right.kept
      testing.right.here name).trans testing.held
  · rw [there]
    exact (Scopes.ownVariable?_of_extends later.right.kept testing.right.here x).trans
      (testing.free x known)

theorem testing_left (testing : Testing start gap view name l r) :
    Testing start gap ⟨l.scopes, view.right, l.scopes.next, view.there, view.known⟩ name
      (l.entered l.current) r :=
  { twins_left testing.toTwins with
    held := testing.held, newThere := testing.newThere, free := testing.free }

theorem testing_right (testing : Testing start gap view name l r) :
    Testing start gap ⟨l.scopes, r.scopes, view.here, r.scopes.next, view.known⟩ name l
      (r.entered r.current) where
  toTwins := twins_right testing.toTwins
  held := by
    rw [Machine.cell?_entered testing.right.founded testing.right.here]
    exact testing.held
  newThere := ⟨testing.right.started.next, Nat.le_refl _⟩
  free x _ := Scopes.ownVariable?_addChild_new r.current x

/-- In a new scope on the left there are as few of the variables in use as on the right. -/
theorem block_of_testing (testing : Testing start gap view name l r) :
    Block start gap ⟨l.scopes, view.right, l.scopes.next, view.there, view.known⟩
      (l.entered l.current) r where
  toTwins := twins_left testing.toTwins
  newHere := ⟨testing.left.started.next, Nat.le_refl _⟩
  newThere := testing.newThere
  own x known := by
    have left : (l.entered l.current).scopes.ownVariable? (l.entered l.current).current x = none :=
      Scopes.ownVariable?_addChild_new l.current x
    rw [left, testing.free x known]

def View.begun (start : Machine) : View :=
  ⟨start.scopes, (start.entered start.current).scopes, start.current, start.scopes.next,
    fun _ => True⟩

/-- Nothing has been defined in the scope that the right machine has entered. -/
theorem free_of_begun (twins : Twins start gap (.begun start) l r) (x : String) :
    r.scopes.ownVariable? r.current x = none := by
  have inside : r.current < (start.entered start.current).scopes.next := by
    rw [twins.there]
    simp [Machine.entered, View.begun]
  rw [Scopes.ownVariable?_of_extends twins.right.kept inside, twins.there]
  exact Scopes.ownVariable?_addChild_new start.current x

/-- The value gets its name: it is the first cell in which the machines differ. -/
theorem testing_named (name : String) (v : Value)
    (twins : Twins start ⟨start.cells.size, []⟩ (.begun start) l r) :
    Testing start ⟨l.cells.size, [⟨name, true, v⟩]⟩
      ⟨start.scopes, start.scopes, start.current, start.scopes.next, (· ≠ name)⟩ name l
      (r.defining name true v) where
  left := twins.left
  right := Machine.since_defining { twins.right with kept := twins.right.started }
    (Nat.le_of_eq twins.there.symm) (Nat.le_of_eq twins.there.symm) name true v
  here := twins.here
  there := twins.there
  heap := twins.heap
  output := twins.output
  backed := twins.backed
  cells := Gap.parts_push_right twins.cells _
  old := twins.left.cells
  names x other := by
    rw [Machine.cell?_defining twins.right.founded twins.right.here, if_neg other,
      twins.names x trivial]
    cases found : l.cell? x with
    | none => rfl
    | some i =>
      have inside : i < l.cells.size := Machine.lt_size_of_found twins.backed found
      rw [Option.map_some, Option.map_some, Gap.shift_empty, Gap.shift_of_lt inside]
  functions := by
    obtain ⟨base, old, same⟩ := twins.functions
    refine ⟨base, old, fun other arity => ?_⟩
    simp only [Machine.defining, Scopes.findFunction?, Scopes.path_bindVariable,
      Scopes.ownFunction?_bindVariable]
    exact same other arity
  held := by
    have size : r.cells.size = l.cells.size := twins.cells.size
    rw [Machine.cell?_defining twins.right.founded twins.right.here, if_pos rfl, size]
  newThere := ⟨Nat.le_refl _, Nat.le_refl _⟩
  free x other := by
    simp only [Machine.defining, Scopes.ownVariable?_bindVariable twins.right.here, if_neg other]
    exact free_of_begun twins x

end

/-- What two machines that have gone on from `m` have in common: they are back in its scope, the
scopes that it had are what they were, and its variables and all lists are the same on both. -/
structure Machine.Agree (m l r : Machine) : Prop where
  current : l.current = m.current ∧ r.current = m.current
  home : l.home = m.home ∧ r.home = m.home
  scopes : m.scopes.Extends l.scopes ∧ m.scopes.Extends r.scopes
  sizes : m.cells.size ≤ l.cells.size ∧ m.cells.size ≤ r.cells.size
  cells : ∀ i < m.cells.size, l.cells[i]? = r.cells[i]?
  heap : l.heap = r.heap
  output : l.output = r.output

theorem agree_of_abreast {m l r : Machine} {known : String → Prop}
    (abreast : Abreast m ⟨m.scopes, m.scopes, m.current, m.current, known⟩ l r) :
    m.Agree l r := by
  obtain ⟨gap, aligned⟩ := abreast
  constructor
  · exact ⟨aligned.here, aligned.there⟩
  · exact ⟨aligned.left.home, aligned.right.home⟩
  · exact ⟨aligned.left.started, aligned.right.started⟩
  · exact ⟨aligned.left.cells, aligned.right.cells⟩
  · intro i inside
    rw [← aligned.cells.own, Gap.shift_of_lt (Nat.lt_of_lt_of_le inside aligned.old)]
  · exact aligned.heap.symm
  · exact aligned.output.symm

namespace Eval

variable {start : Machine} {gap : Gap} {view : View} {name : String} {l r : Machine} {v : Value}
  {α : Type}

theorem alike_left {known : String → Prop} {act : Eval α} {y : EStateM.Result Halt Machine α}
    (twins : Twins start gap view l r)
    (inner : Alike (Abreast start ⟨l.scopes, view.right, l.scopes.next, view.there, known⟩)
      (act (l.entered l.current)) y) : Alike (Abreast start view) (inChild act l) y := by
  rw [inChild, inChildOf_entered]
  exact alike_back_left inner fun _ _ => abreast_back_left twins

theorem alike_right {known : String → Prop} {act : Eval α} {x : EStateM.Result Halt Machine α}
    (twins : Twins start gap view l r)
    (inner : Alike (Abreast start ⟨l.scopes, r.scopes, view.here, r.scopes.next, known⟩) x
      (act (r.entered r.current))) : Alike (Abreast start view) x (inChild act r) := by
  rw [inChild, inChildOf_entered]
  exact alike_back_right inner fun _ _ => abreast_back_right twins

/-- An action that keeps twins keeps the value under its name as well. -/
theorem keeps_testing {act act' : Eval α} (all : ∀ other : View, other.known = view.known →
    Keeps (Twins start gap other) act act') : Keeps (Testing start gap view name) act act' := by
  intro l r testing
  have inner := all { view with left := l.scopes, right := r.scopes } rfl l r
    (twins_narrow testing.toTwins)
  exact alike_imp inner fun _ _ => testing_widen testing

/-- The right machine reads the value of the switch before it does what both do. -/
theorem takes_testing (extra : gap.extra = [⟨name, true, v⟩]) {act act' : Eval Value}
    {next : Value → Eval Flow} {yes no : Eval Flow} {J : Machine → Machine → Prop}
    (rest : Takes (Testing start gap view name) J (act >>= next)
      (act' >>= fun w => onHeap (fun h => Operation.equal h v w) >>= fun same =>
        inChild (if same then yes else no))) :
    Takes (Testing start gap view name) J (act >>= next) (testing name act' yes no) := by
  intro l r testing
  have cell : r.cells[gap.place]? = some ⟨name, true, v⟩ := by
    have held := testing.cells.extra 0 (by simp [extra])
    simpa [extra] using held
  have read : Eval.testing name act' yes no r = (act' >>= fun w =>
      onHeap (fun h => Operation.equal h v w) >>= fun same =>
        inChild (if same then yes else no)) r := by
    simp only [Eval.testing, bind, EStateM.bind, cellNamed, testing.held, Eval.cell, cell,
      Option.getD_some]
  rw [read]
  exact rest l r testing

variable {rule : DivisionScale} {fuel : Nat}

/-- Arm for arm: a value is compared on both sides, and either its body is run or the right machine
goes into the scope of the next test. -/
theorem takes_arms (walk : TwinsAt rule start gap fuel)
    (extra : gap.extra = [⟨name, true, v⟩]) (arms : List Case) (last : Case.DefaultLast arms)
    (used : ∀ x ∈ Case.allVariables arms, view.known x) :
    Takes (Testing start gap view name) (Abreast start view)
      (picking (evaluate rule fuel) (enclosed rule fuel) v (defaultBody arms) arms)
      (tested (evaluate rule fuel) (sequence (execute rule fuel)) name arms) := by
  induction arms generalizing view with
  | nil => exact fun _ _ testing => .ok ⟨gap, testing.toAligned⟩
  | cons arm others ih =>
    obtain ⟨value, body⟩ := arm
    cases value with
    | none =>
      -- The default body is run in the scope of the test before it, if there is one, or in that of
      -- the name itself.
      obtain rfl : others = [] := last
      obtain ⟨inner, -⟩ := List.forall_mem_append.mp used
      intro l r testing
      have ran : Keeps (Block start gap
          ⟨l.scopes, view.right, l.scopes.next, view.there, view.known⟩)
          (sequence (execute rule fuel) body) (sequence (execute rule fuel) body) :=
        keeps_body walk body inner
      exact alike_left testing.toTwins
        (alike_imp (ran _ _ (block_of_testing testing)) fun _ _ block => ⟨gap, block.toAligned⟩)
    | some e =>
      obtain ⟨own, later⟩ := List.forall_mem_append.mp used
      obtain ⟨first, inner⟩ := List.forall_mem_append.mp own
      apply takes_testing extra
      have abreast : ∀ l r, Testing start gap view name l r → Abreast start view l r :=
        fun _ _ testing => ⟨gap, testing.toAligned⟩
      refine takes_bind (keeps_testing fun other same => walk.evaluate other e (same ▸ first))
        (fun w => ?_) abreast
      have swap : (fun h => Operation.equal h v w) = fun h => Operation.equal h w v := by
        funext h
        rw [Operation.equal, Value.equal?_comm, ← Operation.equal]
      rw [swap]
      refine takes_bind (keeps_testing fun other _ => keeps_onHeap _) (fun same => ?_) abreast
      intro l r testing
      cases same with
      | true =>
        have ran := keeps_enclosed walk body inner l r testing.toTwins
        exact alike_imp ran fun _ _ twins => ⟨gap, twins.toAligned⟩
      | false =>
        -- The left machine stays where it is, the right one is one scope further in from here on.
        have next : Takes (Testing start gap
            ⟨l.scopes, r.scopes, view.here, r.scopes.next, view.known⟩ name) _ _ _ :=
          ih last later
        exact alike_right testing.toTwins (next _ _ (testing_right testing))

theorem define_free {m : Machine} (free : m.scopes.ownVariable? m.current name = none)
    (mutable : Bool) (v : Value) :
    define name mutable v m = .ok () (m.defining name mutable v) := by
  unfold define Scopes.variableClash?
  rw [free]
  rfl

/-- The value of the switch is there: on the right it gets its name, on the left the arms get their
scope. -/
theorem takes_named (rule : DivisionScale) (fuel : Nat) (regular : start.Regular)
    {arms : List Case} (last : Case.DefaultLast arms) (fresh : name ∉ Case.allVariables arms)
    (v : Value) :
    Takes (Twins start ⟨start.cells.size, []⟩ (.begun start))
      (Abreast start ⟨start.scopes, start.scopes, start.current, start.scopes.next, (· ≠ name)⟩)
      (inChild (picking (evaluate rule fuel) (enclosed rule fuel) v (defaultBody arms) arms))
      (do
        define name true v
        tested (evaluate rule fuel) (sequence (execute rule fuel)) name arms) := by
  intro l r twins
  have testing := testing_named name v twins
  simp only [bind, EStateM.bind, define_free (free_of_begun twins name)]
  refine alike_left testing.toTwins
    (takes_arms (twins_at regular rule _ fuel) rfl arms last ?_ _ _ (testing_left testing))
  rintro x used rfl
  exact fresh used

/-- From one machine, with any fuel. -/
theorem alike_unswitched (rule : DivisionScale) (regular : start.Regular) (fuel : Nat) {c : Expr}
    {arms : List Case} (fresh : name ∉ (Stmt.switch c arms).variables)
    (last : Case.DefaultLast arms) :
    Alike start.Agree (execute rule (fuel + 1) (.switch c arms) start)
      (unswitched rule fuel name c arms start) := by
  -- The value is evaluated in the scope of the switch on the left, and in a new one on the right.
  have same := twins_refl regular fun _ => True
  have evaluated := (twins_at regular rule ⟨start.cells.size, []⟩ fuel).evaluate (.begun start) c
    fun _ _ => trivial
  have later : name ∉ Case.allVariables arms := fun member =>
    fresh (List.mem_append_right _ member)
  have run := takes_bind evaluated (takes_named rule fuel regular last later)
    (fun _ _ twins => ⟨_, { twins with right := { twins.right with kept := twins.right.started } }⟩)
    _ _ (twins_narrow (twins_right same))
  rw [execute_switch]
  exact alike_imp (alike_right same run) fun _ _ => agree_of_abreast

end Eval

/-- The values that are evaluated one after the other, and the body that is run then: those up to an
arm and its body, or all of them and what is left. -/
def Case.Took (arms : List Case) (other : Option (List Stmt)) (values : List Expr)
    (ran : Option (List Stmt)) : Prop :=
  (∃ first e body behind, arms = first ++ .arm (some e) body :: behind ∧
      values = first.filterMap Case.value ++ [e] ∧ ran = some body) ∨
    values = arms.filterMap Case.value ∧ ran = other

namespace Case

variable {arms : List Case} {other ran : Option (List Stmt)} {values : List Expr}

theorem took_cons (took : Took arms other values ran) (arm : Case) :
    Took (arm :: arms) other (arm.value.toList ++ values) ran := by
  have more (first : List Case) : (arm :: first).filterMap Case.value =
      arm.value.toList ++ first.filterMap Case.value := by
    cases found : arm.value <;> simp [found]
  rcases took with ⟨first, e, body, behind, rfl, rfl, rfl⟩ | ⟨rfl, rfl⟩
  · exact .inl ⟨arm :: first, e, body, behind, rfl, by rw [more, List.append_assoc], rfl⟩
  · exact .inr ⟨(more arms).symm, rfl⟩

theorem took_or (took : Took arms none values ran) (other : Option (List Stmt)) :
    Took arms other values (ran <|> other) := by
  rcases took with ⟨first, e, body, behind, split, all, rfl⟩ | ⟨all, rfl⟩
  · exact .inl ⟨first, e, body, behind, split, all, rfl⟩
  · exact .inr ⟨all, rfl⟩

end Case

namespace Watched

open Eval (bind_of_ok bind_of_error bind_of_same)

def tried (evaluate : Expr → Watched Value) (v : Value) (e : Expr) : Watched Unit := do
  let w ← evaluate e
  let _ ← step (Eval.onHeap fun h => Operation.equal h w v)

def straight (rule : DivisionScale) (fuel : Nat) (c : Expr) (values : List Expr)
    (ran : Option (List Stmt)) : Watched Flow := do
  let v ← evaluate rule fuel c
  inChild do
    values.forM (tried (evaluate rule fuel) v)
    Eval.running (fun body => inChild (sequence (execute rule fuel) body)) ran

theorem matching_straight (act : Expr → Watched Value) (v : Value) (arms : List Case)
    (h : History) : ∃ values found, Case.Took arms none values found ∧
      matching act v arms h = (values.forM (tried act v) >>= fun _ => pure found) h := by
  induction arms generalizing h with
  | nil => exact ⟨[], none, .inr ⟨rfl, rfl⟩, rfl⟩
  | cons arm others ih =>
    obtain ⟨value, body⟩ := arm
    cases value with
    | none =>
      obtain ⟨values, found, took, same⟩ := ih h
      exact ⟨values, found, Case.took_cons took (.arm none body), same⟩
    | some e =>
      have here : Case.Took (.arm (some e) body :: others) none [e] (some body) :=
        .inl ⟨[], e, body, others, rfl, rfl, rfl⟩
      cases evaluated : act e h with
      | error err k =>
        have stopped : tried act v e h = .error err k := bind_of_error evaluated
        have all : [e].forM (tried act v) h = .error err k := bind_of_error stopped
        have failed : matching act v (.arm (some e) body :: others) h = .error err k :=
          bind_of_error evaluated
        exact ⟨[e], some body, here, failed.trans (bind_of_error all).symm⟩
      | ok w k =>
        cases compared : step (Eval.onHeap fun h => Operation.equal h w v) k with
        | error err l =>
          have stopped : tried act v e h = .error err l :=
            (bind_of_ok evaluated).trans (bind_of_error compared)
          have all : [e].forM (tried act v) h = .error err l := bind_of_error stopped
          have failed : matching act v (.arm (some e) body :: others) h = .error err l :=
            (bind_of_ok evaluated).trans (bind_of_error compared)
          exact ⟨[e], some body, here, failed.trans (bind_of_error all).symm⟩
        | ok same l =>
          have went : tried act v e h = .ok () l :=
            (bind_of_ok evaluated).trans (bind_of_ok compared)
          cases same with
          | true =>
            have all : [e].forM (tried act v) h = .ok () l := bind_of_ok went
            have found : matching act v (.arm (some e) body :: others) h = .ok (some body) l :=
              (bind_of_ok evaluated).trans (bind_of_ok compared)
            have ended : ([e].forM (tried act v) >>= fun _ => pure (some body)) h =
                .ok (some body) l := bind_of_ok all
            exact ⟨[e], some body, here, found.trans ended.symm⟩
          | false =>
            obtain ⟨values, found, took, rest⟩ := ih l
            have later : matching act v (.arm (some e) body :: others) h =
                matching act v others l := (bind_of_ok evaluated).trans (bind_of_ok compared)
            refine ⟨e :: values, found, Case.took_cons took (.arm (some e) body), ?_⟩
            rw [later, rest]
            show _ = ((tried act v e >>= fun _ => values.forM (tried act v)) >>= _) h
            rw [bind_assoc, bind_of_ok went]

theorem inChild_congr {α : Type} {act act' : Watched α} {h : History}
    (same : act (h.reach (h.machine.entered h.machine.current)) =
      act' (h.reach (h.machine.entered h.machine.current))) :
    inChild act h = inChild act' h := by
  unfold inChild inChildOf
  rw [same]

/-- One list of values and one body tell all that a switch does. -/
theorem execute_straight (rule : DivisionScale) (fuel : Nat) (c : Expr) (arms : List Case)
    (h : History) : ∃ values ran, Case.Took arms (Eval.defaultBody arms) values ran ∧
      execute rule (fuel + 1) (.switch c arms) h = straight rule fuel c values ran h := by
  cases evaluated : evaluate rule fuel c h with
  | error e k =>
    refine ⟨_, _, .inr ⟨rfl, rfl⟩, ?_⟩
    exact (bind_of_error evaluated).trans (bind_of_error evaluated).symm
  | ok v k =>
    obtain ⟨values, found, took, same⟩ := matching_straight (evaluate rule fuel) v arms
      (k.reach (k.machine.entered k.machine.current))
    refine ⟨values, _, Case.took_or took (Eval.defaultBody arms), ?_⟩
    have ran := bind_of_same same fun found =>
      Eval.running (fun body => inChild (sequence (execute rule fuel) body))
        (found <|> Eval.defaultBody arms)
    simp only [bind_assoc, pure_bind] at ran
    calc execute rule (fuel + 1) (.switch c arms) h
      _ = inChild _ k := bind_of_ok evaluated
      _ = inChild _ k := inChild_congr ran
      _ = straight rule fuel c values _ h := by rw [straight, bind_of_ok evaluated]

end Watched

open Eval

/-- A switch whose default arm is absent or last does what its conditionals do in a block of their
own, under every name that is not used in it. One of them ends just when the other does, and then
with the same flow or error, the same output and the same lists and variables. Moment by moment, all
that a switch does is to evaluate its value, to evaluate and compare the values of its arms in turn
up to some arm, and to run at most one body. The machine may be in any state of any session
(`Session.regular_timeline`). -/
theorem switch_is_chain (rule : DivisionScale) {m : Machine} (regular : m.Regular) {c : Expr}
    {arms : List Case} {name : String} (fresh : name ∉ (Stmt.switch c arms).variables)
    (last : Case.DefaultLast arms) :
    (∀ ending, Ends (fun fuel => execute rule fuel (.switch c arms)) m ending →
      ∃ other, Ends (fun fuel => inChild (sequence (execute rule fuel)
        (Stmt.unswitched name c arms))) m other ∧ Alike m.Agree ending other) ∧
    (∀ other, Ends (fun fuel => inChild (sequence (execute rule fuel)
        (Stmt.unswitched name c arms))) m other →
      ∃ ending, Ends (fun fuel => execute rule fuel (.switch c arms)) m ending ∧
        Alike m.Agree ending other) ∧
    ∀ fuel h, ∃ values ran, Case.Took arms (defaultBody arms) values ran ∧
      Watched.execute rule (fuel + 1) (.switch c arms) h =
        Watched.straight rule fuel c values ran h := by
  have alike := fun fuel => alike_unswitched rule regular fuel fresh last
  refine ⟨fun ending ends => ?_, fun other ends => ?_,
    fun fuel => Watched.execute_straight rule fuel c arms⟩
  · obtain ⟨fuel, ended⟩ := ends.enough
    have pair := alike fuel
    rw [ended (fuel + 1) (Nat.le_succ fuel)] at pair
    refine ⟨_, (ends_unswitched c arms m _).mpr ?_, pair⟩
    exact ends_of_eq (fun _ _ enough => unswitched_of_le enough c arms) rfl
      ((alike_whole pair).mp ends.whole)
  · obtain ⟨fuel, ended⟩ := ((ends_unswitched c arms m _).mp ends).enough
    have pair := alike fuel
    rw [ended fuel (Nat.le_refl fuel)] at pair
    refine ⟨_, ?_, pair⟩
    exact ends_of_eq (fun _ _ enough => (outlastsAt_of_le enough).execute _) rfl
      ((alike_whole pair).mpr ends.whole)

def numeral (n : Int) : Expr := .literal (.integer n) none

def threeArms : List Case :=
  [.arm (some (numeral 1)) [.return (numeral 10)],
    .arm (some (numeral 2)) [.return (numeral 20)],
    .arm none [.return (numeral 30)]]

theorem switch_is_chain_threeArms :
    "t" ∉ (Stmt.switch (numeral 2) threeArms).variables ∧ Case.DefaultLast threeArms ∧
      ∃ other, Ends (fun fuel => inChild (sequence (execute .dividend fuel)
          (Stmt.unswitched "t" (numeral 2) threeArms))) Machine.fresh other ∧
        ∃ n, other = .ok (.returned (.integer 20)) n := by
  have fresh : "t" ∉ (Stmt.switch (numeral 2) threeArms).variables := by decide
  have last : Case.DefaultLast threeArms := rfl
  obtain ⟨n, ended⟩ : ∃ n, execute .dividend 3 (.switch (numeral 2) threeArms) Machine.fresh =
      .ok (.returned (.integer 20)) n := ⟨_, rfl⟩
  have ends := ends_of_eq (fun _ _ enough => (outlastsAt_of_le enough).execute _) ended nofun
  obtain ⟨other, ends, alike⟩ :=
    (switch_is_chain .dividend Machine.regular_fresh fresh last).1 _ ends
  refine ⟨fresh, last, other, ends, ?_⟩
  cases alike with
  | ok => exact ⟨_, rfl⟩

end Plc

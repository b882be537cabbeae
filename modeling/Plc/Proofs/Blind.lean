import Plc.Program.Erase
import Plc.Proofs.Recoding.Runs
import Plc.Proofs.Typing.Sound

/-!
Running looks at no slot. A tree does what its erasure does. So what a program does on a machine,
its erasure does on the machine with erased functions: two programs that differ in nothing but what
analysis has noted in them end alike and print the same lines, and so do a program and the one that
analysis makes of it.
-/

namespace Plc

def Callable.erase : Callable → Callable
  | .print => .print
  | .function declaration scope => .function declaration.erase scope

def Machine.erase (m : Machine) : Machine :=
  { m with scopes := m.scopes.mapFunctions Callable.erase }

theorem Function.name_erase (f : Function) : f.erase.name = f.name := rfl

theorem Function.arity_erase (f : Function) : f.erase.arity = f.arity := rfl

theorem Case.erase_eq : Case.erase = Case.change Expr.erase Stmt.eraseAll := by
  funext c
  cases c
  rfl

namespace Eval

variable {rule : DivisionScale} {fuel : Nat}

theorem length_eraseAll (es : List Expr) : (Expr.eraseAll es).length = es.length := by
  rw [Expr.eraseAll_eq, List.length_map]

theorem mapM_eraseAll {act : Expr → Eval Value} (each : ∀ e, act e.erase = act e)
    (es : List Expr) : (Expr.eraseAll es).mapM act = es.mapM act := by
  induction es with
  | nil => rfl
  | cons e es ih => rw [Expr.eraseAll, List.mapM_cons, List.mapM_cons, each, ih]

theorem sequence_eraseAll {act : Stmt → Eval Flow} (each : ∀ s, act s.erase = act s)
    (ss : List Stmt) : sequence act (Stmt.eraseAll ss) = sequence act ss := by
  induction ss with
  | nil => rfl
  | cons s ss ih => rw [Stmt.eraseAll, sequence, sequence, each, ih]

variable (rule)

structure SlotsAt (fuel : Nat) : Prop where
  evaluate : ∀ e, evaluate rule fuel e.erase = evaluate rule fuel e
  condition : ∀ e, condition rule fuel e.erase = condition rule fuel e
  execute : ∀ s, execute rule fuel s.erase = execute rule fuel s
  assign : ∀ receiver value,
    assign rule fuel receiver.erase value.erase = assign rule fuel receiver value
  repeatWhile : ∀ c body,
    repeatWhile rule fuel c.erase (Stmt.eraseAll body) = repeatWhile rule fuel c body

variable {rule}

theorem evaluate_erase (ih : SlotsAt rule fuel) (e : Expr) :
    evaluate rule (fuel + 1) e.erase = evaluate rule (fuel + 1) e := by
  cases e with
  | literal | access => rfl
  | group inner ty => exact ih.evaluate inner
  | binary op left right ty =>
    cases op <;> simp only [Expr.erase, evaluate, ih.evaluate, ih.condition]
  | element name index record ty => simp only [Expr.erase, evaluate, ih.evaluate]
  | call name args signature ty =>
    simp only [Expr.erase, evaluate, length_eraseAll, mapM_eraseAll ih.evaluate]
  | list es ty => simp only [Expr.erase, evaluate, mapM_eraseAll ih.evaluate]

theorem execute_erase (ih : SlotsAt rule fuel) (s : Stmt) :
    execute rule (fuel + 1) s.erase = execute rule (fuel + 1) s := by
  cases s with
  | expression e => simp only [Stmt.erase, execute, ih.evaluate]
  | declaration name typeName value record =>
    cases value with
    | none => rfl
    | some e => simp only [Stmt.erase, Option.map_some, execute, ih.evaluate]
  | assignment receiver value => simp only [Stmt.erase, execute, ih.assign]
  | conditional c whenTrue whenFalse =>
    simp only [Stmt.erase, execute, ih.condition, ← apply_ite Stmt.eraseAll,
      sequence_eraseAll ih.execute]
  | switch c arms =>
    simp only [Stmt.erase, execute, ih.evaluate, Case.eraseAll_eq, Case.erase_eq,
      matching_change ih.evaluate, defaultBody_change, bind_map_left]
    congr 1
    funext v
    congr 2
    funext body
    cases body with
    | some body => exact congrArg inChild (sequence_eraseAll ih.execute body)
    | none =>
      cases defaultBody arms with
      | some body => exact congrArg inChild (sequence_eraseAll ih.execute body)
      | none => rfl
  | loop c body => exact ih.repeatWhile c body
  | «return» e => simp only [Stmt.erase, execute, ih.evaluate]

theorem assign_erase (ih : SlotsAt rule fuel) (receiver value : Expr) :
    assign rule (fuel + 1) receiver.erase value.erase = assign rule (fuel + 1) receiver value := by
  cases receiver <;> simp only [Expr.erase, assign, ih.evaluate]

theorem slots_at (rule : DivisionScale) (fuel : Nat) : SlotsAt rule fuel := by
  induction fuel with
  | zero => constructor <;> intros <;> rfl
  | succ fuel ih =>
    refine ⟨evaluate_erase ih, fun e => ?_, execute_erase ih, assign_erase ih, fun c body => ?_⟩
    · simp only [condition, ih.evaluate]
    · simp only [repeatWhile, ih.condition, sequence_eraseAll ih.execute, ih.repeatWhile]

theorem recoding_erase (rule : DivisionScale) : Recoding rule Function.erase :=
  recoding_of_body (fun _ => rfl) (fun _ => rfl) fun fuel f =>
    sequence_eraseAll (slots_at rule fuel).execute f.body

theorem defineGlobal_erase (g : Global) :
    defineGlobal rule fuel g.erase = defineGlobal rule fuel g := by
  obtain ⟨name, typeName, mutable, list, value, record⟩ := g
  cases value with
  | none => rfl
  | some e => simp only [Global.erase, Option.map_some, defineGlobal, (slots_at rule fuel).evaluate]

theorem forM_erase (gs : List Global) :
    (gs.map Global.erase).forM (defineGlobal rule fuel) = gs.forM (defineGlobal rule fuel) := by
  induction gs with
  | nil => rfl
  | cons g gs ih => rw [List.map_cons, List.forM, List.forM, defineGlobal_erase, ih]

theorem program_erase (p : Program) :
    program rule fuel p.erase =
      program rule fuel { p with functions := p.functions.map Function.erase } := by
  simp only [program, Program.erase, forM_erase]

end Eval

/-- A program and its erasure do the same, on a machine and on the erased machine. -/
theorem Machine.run_erase (m : Machine) (rule : DivisionScale) (fuel : Nat) (p : Program) :
    m.erase.run rule fuel p.erase = ((m.run rule fuel p).1, (m.run rule fuel p).2.erase) := by
  have erased : Callable.recode Function.erase = Callable.erase := by
    funext f
    cases f <;> rfl
  have same := m.run_recode (Eval.recoding_erase rule) fuel p
  rw [erased] at same
  unfold Machine.run at same ⊢
  rw [Eval.program_erase]
  exact same

/-- Programs that differ in nothing but their slots, on machines that do so, have one outcome and
leave such machines behind. -/
theorem run_alike {m n : Machine} (machines : m.erase = n.erase) {p q : Program}
    (programs : p.erase = q.erase) (rule : DivisionScale) (fuel : Nat) :
    (m.run rule fuel p).1 = (n.run rule fuel q).1 ∧
      (m.run rule fuel p).2.erase = (n.run rule fuel q).2.erase := by
  have first := m.run_erase rule fuel p
  have second := n.run_erase rule fuel q
  rw [machines, programs, second, Prod.mk.injEq] at first
  exact ⟨first.1.symm, first.2.symm⟩

/-- A program does the same as every other that differs from it in its slots alone, and as the
program that analysis makes of it. -/
theorem slots_indifferent {p q : Program} (alike : p.erase = q.erase) (rule : DivisionScale)
    (fuel : Nat) : p.run rule fuel = q.run rule fuel ∧
      ∀ r, p.check = .ok r → r.run rule fuel = q.run rule fuel := by
  constructor
  · exact (run_alike rfl alike rule fuel).1
  · intro r accepted
    obtain ⟨Δ, -, -, erase⟩ := check_sound accepted
    exact (run_alike rfl (erase.trans alike) rule fuel).1

def beyond : String :=
  "LIST xs = [4]; FUN main(): Integer DO print(xs[0]); RETURN xs[xs[0] - 3]; END"

/-- The plain tree and the one with its slots filled print the same and fail in the same way. -/
theorem slots_indifferent_beyond : ∃ p, Source.parse beyond = .ok p ∧ ∃ q, p.check = .ok q ∧
    p.erase = q.erase ∧ (p.run .dividend 10 = q.run .dividend 10 ∧
      ∀ r, p.check = .ok r → r.run .dividend 10 = q.run .dividend 10) ∧
    p.run .dividend 10 = ⟨.error (.indexRange 1 1), ["4"]⟩ := by
  have known : ∃ p ∈ (Source.parse beyond).toOption, ∃ q ∈ p.check.toOption,
      p.run .dividend 10 = ⟨.error (.indexRange 1 1), ["4"]⟩ := by decide +kernel
  obtain ⟨p, read, known⟩ := exists_ok known
  obtain ⟨q, accepted, ends⟩ := exists_ok known
  obtain ⟨Δ, -, -, erase⟩ := check_sound accepted
  exact ⟨p, read, q, accepted, erase.symm, slots_indifferent erase.symm .dividend 10, ends⟩

end Plc

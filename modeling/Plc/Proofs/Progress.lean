import Plc.Proofs.Discipline.Source
import Plc.Proofs.Kinds
import Plc.Proofs.Overflow

/-!
Strict programs. Where every variable starts from a value, every function that has to have a result
returns one in the end, and no expression has one of the two widest types, values have just the
kinds of their types. A run of such a program is stopped only by what no type tells of a value.
-/

namespace Plc

/-- The errors that types cannot rule out. -/
def RuntimeError.Residual : RuntimeError → Prop
  | .divisionByZero | .indexRange .. | .negativeExponent _ | .largeExponent _ | .divisionScale
  | .immutable _ => True
  | _ => False

/-- It asks for the order of two values that can only be nil. -/
def Expr.OrdersNil : Expr → Prop
  | .binary op left right _ => op.IsOrder ∧ left.ty = some .nil ∧ right.ty = some .nil
  | _ => False

def Stmt.Initialized : Stmt → Prop
  | .declaration _ _ value _ => value ≠ none
  | _ => True

def Function.EndsInReturn (f : Function) : Prop := ∃ s ∈ f.body.getLast?, s.IsReturn

structure Program.Strict (p : Program) : Prop where
  types : ∀ e ∈ p.expressions, e.ty ≠ some .any ∧ e.ty ≠ some .comparable
  orders : ∀ e ∈ p.expressions, ¬ e.OrdersNil
  globals : ∀ g ∈ p.globals, g.list = false → g.mutable = true → g.value ≠ none
  locals : ∀ s ∈ p.statements, s.Initialized
  results : ∀ f ∈ p.functions, f.returnTy? ≠ some .nil → f.EndsInReturn

instance : DecidablePred Operator.IsOrder
  | .less | .lessEqual | .greater | .greaterEqual => .isTrue trivial
  | .and | .or | .equal | .notEqual | .add | .subtract | .multiply | .divide | .power => .isFalse id

instance : DecidablePred Expr.OrdersNil
  | .binary op left right _ =>
    inferInstanceAs (Decidable (op.IsOrder ∧ left.ty = some .nil ∧ right.ty = some .nil))
  | .literal .. | .group .. | .access .. | .element .. | .call .. | .list .. => .isFalse id

instance : DecidablePred Stmt.Initialized
  | .declaration _ _ value _ => inferInstanceAs (Decidable (value ≠ none))
  | .expression _ | .assignment .. | .conditional .. | .switch .. | .loop .. | .return _ =>
    .isTrue trivial

instance : DecidablePred Stmt.IsReturn
  | .return _ => .isTrue trivial
  | .expression _ | .declaration .. | .assignment .. | .conditional .. | .switch .. | .loop .. =>
    .isFalse id

instance : DecidablePred Function.EndsInReturn := fun f =>
  inferInstanceAs (Decidable (∃ s ∈ f.body.getLast?, s.IsReturn))

instance : DecidablePred Program.Strict := fun p =>
  decidable_of_iff
    ((∀ e ∈ p.expressions, e.ty ≠ some .any ∧ e.ty ≠ some .comparable) ∧
      (∀ e ∈ p.expressions, ¬ e.OrdersNil) ∧
      (∀ g ∈ p.globals, g.list = false → g.mutable = true → g.value ≠ none) ∧
      (∀ s ∈ p.statements, s.Initialized) ∧
      ∀ f ∈ p.functions, f.returnTy? ≠ some .nil → f.EndsInReturn)
    ⟨fun ⟨types, orders, globals, locals, results⟩ => ⟨types, orders, globals, locals, results⟩,
      fun ⟨types, orders, globals, locals, results⟩ => ⟨types, orders, globals, locals, results⟩⟩

namespace Discipline

def kinds (rule : DivisionScale) : Discipline rule where
  noted := True
  typed := True
  conforms T v := ∀ k, T.kind? = some k → v.kind = k
  types T := T ≠ .any ∧ T ≠ .comparable
  operands op L R := ¬ (op.IsOrder ∧ L = .nil ∧ R = .nil)
  lenient := False
  permits := RuntimeError.Residual
  notes := id
  free untyped := absurd trivial untyped
  literal l := by cases l <;> exact fun _ => Option.some.inj
  accepts {S T v} conforms accepts := by
    simp only [Ty.accepts, Bool.or_eq_true, beq_iff_eq, Bool.and_eq_true] at accepts
    rcases accepts with (rfl | rfl) | ⟨rfl, _⟩
    · exact conforms
    · exact nofun
    · exact nofun
  whole _ _ := nofun
  nil := False.elim
  truth {v} conforms := by
    have kind := conforms .boolean rfl
    cases v <;> cases kind
    exact .inl ⟨_, rfl⟩
  index {v} conforms := by
    have kind := conforms .integer rfl
    cases v <;> cases kind
    exact .inl ⟨_, rfl⟩
  exit {v} conforms := by
    have kind := conforms .integer rfl
    cases v <;> cases kind
    exact .inl ⟨_, rfl⟩
  result {op L R T l r} h strict narrowL narrowR operands static left right := by
    obtain ⟨j, kindL⟩ := Ty.kind?_isSome narrowL
    obtain ⟨k, kindR⟩ := Ty.kind?_isSome narrowR
    obtain rfl := left j kindL
    obtain rfl := right k kindR
    have answer := Operator.resultKind?_isSome static strict operands kindL kindR
    have dynamic : Operation.RightOrStopped op l.kind r.kind (Operation.apply rule h op l r) :=
      Operation.apply_right strict l r
    refine ⟨fun v ends m kindT => ?_, fun e ends => ?_⟩
    · rw [ends] at dynamic
      have same := Operator.kind?_of_covers static dynamic (.inr (.inr (.inr kindL)))
        (.inr (.inr (.inr kindR)))
      exact Option.some.inj (same.symm.trans kindT)
    · rw [ends] at dynamic
      rcases dynamic with arithmetic | ⟨_, none⟩
      · cases e <;> first | exact arithmetic.elim | trivial
      · rw [none] at answer
        cases answer
  nested {T p} narrow conforms name := by
    obtain ⟨k, kind⟩ := Ty.kind?_isSome narrow
    obtain rfl := conforms k kind
    exact absurd kind T.kind?_ne_list
  range _ _ := trivial
  immutable _ := trivial

theorem fineProgram_kinds {rule : DivisionScale} {p : Program} (read : p.Grammatical)
    (strict : p.Strict) : (kinds rule).FineProgram p := by
  refine fineProgram_of_grammatical read (fun e member => ⟨fun T ty => ?_, ?_⟩)
    (fun g member none => .inl ?_) (fun s member name typeName record is => ?_)
    fun f member ty returns => ?_
  · have types := strict.types e member
    rw [ty] at types
    exact ⟨fun same => types.1 (same ▸ rfl), fun same => types.2 (same ▸ rfl)⟩
  · rintro op left right slot rfl L R tyL tyR ⟨order, rfl, rfl⟩
    exact strict.orders _ member ⟨order, tyL, tyR⟩
  · by_contra single
    have plain : g.list = false := by simpa using single
    cases mutable : g.mutable with
    | true => exact strict.globals g member plain mutable none
    | false => exact read.constants g member mutable none
  · subst is
    exact strict.locals _ member rfl
  · by_cases nothing : ty = .nil
    · exact .inr (.inl nothing)
    · exact .inr (.inr (strict.results f member fun same =>
        nothing (Option.some.inj (returns.symm.trans same))))

end Discipline

/-- A strict program that analysis accepts exits with an integer, or is stopped by an error that no
type rules out, or does not come to its end: it breaks off where a scale does not have 64 bits, or
runs for longer than its fuel lasts. -/
theorem strict_progress {source : String} {q : Program} (accepted : Source.check source = .ok q)
    (strict : q.Strict) (rule : DivisionScale) (fuel : Nat) :
    (∃ n, (q.run rule fuel).ending = .exit n) ∨
      (∃ e, (q.run rule fuel).ending = .error e ∧ e.Residual) ∨
        (q.run rule fuel).ending = .overflow ∧
          Overflown rule (Machine.fresh.history rule fuel q).moments ∨
        (q.run rule fuel).ending = .exhausted := by
  obtain ⟨read, Δ, ok⟩ := typed_of_check accepted
  have sound := Discipline.sound_program (Discipline.kinds rule) fuel ok
    (Discipline.fineProgram_kinds read strict)
  cases ending : (q.run rule fuel).ending with
  | exit n => exact .inl ⟨n, rfl⟩
  | error e => exact .inr (.inl ⟨e, rfl, sound.2 e ending⟩)
  | overflow => exact .inr (.inr (.inl ⟨rfl, overflown_of_ending ending⟩))
  | exhausted => exact .inr (.inr (.inr rfl))

def summing : String :=
  "VAR total = 0; FUN main(): Integer DO LET n = 3; " ++
    "WHILE n > 0 DO total = total + n; n = n - 1; END RETURN total; END"

/-- The sum of three, two and one. -/
theorem strict_progress_summing : ∃ q, Source.check summing = .ok q ∧ q.Strict ∧
    (q.run .dividend 40).ending = .exit 6 := by
  have known : ∃ q ∈ (Source.check summing).toOption, q.Strict ∧
      (q.run .dividend 40).ending = .exit 6 := by decide +kernel
  obtain ⟨q, accepted, strict, ends⟩ := exists_ok known
  have progress := strict_progress accepted strict .dividend 40
  rw [ends] at progress
  rcases progress with exits | ⟨e, fails, -⟩ | ⟨breaks, -⟩ | late
  · exact ⟨q, accepted, strict, ends⟩
  · cases fails
  · cases breaks
  · cases late

end Plc

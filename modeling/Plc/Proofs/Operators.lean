import Plc.Proofs.Fuel
import Plc.Proofs.Kinds
import Plc.Proofs.Typing.Sound

/-!
The operators by the types of their operands. Where the table of types has an answer, and each
operand has the one kind of its type, the operator gives a value of the type that the table tells,
or the arithmetic itself fails. The order of nil is the one exception: the table takes two nils for
operands of the same type, and at run time they have no order. A product or a quotient of decimals
may also break off, where 64 bits are too few for its scale.
-/

namespace Plc

open Value (Kind)

namespace Operation

variable {rule : DivisionScale} {h : Heap}

theorem text_of_plain {v : Value} (plain : v.kind ≠ .list) : ∃ s, text h v = .ok s := by
  cases v with
  | list place => exact absurd rfl plain
  | boolean b => cases b <;> exact ⟨_, by simp [text, Value.text?]; rfl⟩
  | _ => exact ⟨_, by simp [text, Value.text?]; rfl⟩

theorem equal_of_plain {l : Value} (plain : l.kind ≠ .list) (r : Value) :
    ∃ b, equal h l r = .ok b := by
  cases l with
  | list place => exact absurd rfl plain
  | _ => cases r <;> exact ⟨_, by simp [equal, Value.equal?]; rfl⟩

/-- A result is of the type, or an error of the arithmetic, or breaks off on what the operands
denote. -/
def OfType (rule : DivisionScale) (op : Operator) (l r : Value) (T : Ty) : Except Halt Value → Prop
  | .ok v => T.kind? = some v.kind
  | .error (.error e) => e.Arithmetic
  | .error .overflow => ∃ a b, l.Denotes a ∧ r.Denotes b ∧ op.Overflows rule a b
  | .error .exhausted => False

theorem apply_ofType {op : Operator} {L R T : Ty} {l r : Value}
    (typed : op.resultType? L R = some T) (strict : op.IsStrict)
    (order : ¬ (op.IsOrder ∧ L = .nil)) (left : L.kind? = some l.kind)
    (right : R.kind? = some r.kind) : OfType rule op l r T (apply rule h op l r) := by
  have plainL : l.kind ≠ .list := fun list => L.kind?_ne_list (list ▸ left)
  have plainR : r.kind ≠ .list := fun list => R.kind?_ne_list (list ▸ right)
  have answers : apply rule h op l r ≠ .error .exhausted :=
    apply_ne_exhausted op (text_of_plain plainL) (text_of_plain plainR) (equal_of_plain plainL r)
  have there := Operator.resultKind?_isSome typed strict
    (fun nils => order ⟨nils.1, nils.2.1⟩) left right
  have result : RightOrStopped op l.kind r.kind (apply rule h op l r) := apply_right strict l r
  cases ended : apply rule h op l r with
  | ok v =>
    rw [ended] at result
    exact Operator.kind?_of_covers typed result (.inr (.inr (.inr left)))
      (.inr (.inr (.inr right)))
  | error halt =>
    cases halt with
    | exhausted => exact answers ended
    | overflow => exact apply_overflow ended
    | error e =>
      rw [ended] at result
      rcases result with arithmetic | ⟨-, none⟩
      · exact arithmetic
      · rw [none] at there
        cases there

/-- Nil has no order, though it is of the same type as nil. -/
theorem apply_order_nil {op : Operator} (order : op.IsOrder) :
    apply rule h op .nil .nil = .error (.error (.operands op .nil .nil)) := by
  cases op <;> first | rfl | exact order.elim

end Operation

namespace Eval

variable {rule : DivisionScale} {fuel : Nat} {m n o : Machine} {left right : Expr} {l r : Value}

def ending {α : Type} : EStateM.Result Halt Machine α → Except Halt α
  | .ok a _ => .ok a
  | .error e _ => .error e

theorem ending_lift {α : Type} (r : Except Halt α) (m : Machine) : ending (lift r m) = r := by
  cases r <;> rfl

theorem evaluate_strict {op : Operator} (strict : op.IsStrict)
    (first : evaluate rule fuel left m = .ok l n) (second : evaluate rule fuel right n = .ok r o)
    (slot : Option Ty) :
    evaluate rule (fuel + 1) (.binary op left right slot) m =
      lift (Operation.apply rule o.heap op l r) o := by
  cases op with
  | and | or => exact strict.elim
  | _ => exact (bind_of_ok first).trans (bind_of_ok second)

theorem condition_boolean {e : Expr} {b : Bool}
    (value : evaluate rule fuel e m = .ok (.boolean b) n) :
    condition rule (fuel + 1) e m = .ok b n := bind_of_ok value

/-- The second operand counts only where the first does not settle the result. -/
theorem evaluate_logical {op : Operator} (logical : ¬ op.IsStrict) {a b : Bool}
    (first : evaluate rule fuel left m = .ok (.boolean a) n)
    (second : evaluate rule fuel right n = .ok (.boolean b) o) (slot : Option Ty) :
    ∃ c k, evaluate rule (fuel + 2) (.binary op left right slot) m = .ok (.boolean c) k := by
  have before := condition_boolean first
  have behind := condition_boolean second
  cases op with
  | and =>
    cases a with
    | false => exact ⟨false, n, bind_of_ok before⟩
    | true => exact ⟨b, o, (bind_of_ok before).trans (bind_of_ok behind)⟩
  | or =>
    cases a with
    | false => exact ⟨b, o, (bind_of_ok before).trans (bind_of_ok behind)⟩
    | true => exact ⟨true, n, bind_of_ok before⟩
  | _ => exact absurd trivial logical

end Eval

theorem Operator.boolean_of_logical {op : Operator} (logical : ¬ op.IsStrict) {L R T : Ty}
    (typed : op.resultType? L R = some T) : L = .boolean ∧ R = .boolean ∧ T = .boolean := by
  cases op with
  | and | or =>
    simp only [resultType?, Option.ite_none_right_eq_some, Option.some.injEq] at typed
    exact ⟨typed.1.1, typed.1.2, typed.2.symm⟩
  | _ => exact absurd trivial logical

theorem Operator.nil_of_order {op : Operator} (order : op.IsOrder) {R T : Ty}
    (typed : op.resultType? .nil R = some T) : R = .nil := by
  cases op with
  | less | lessEqual | greater | greaterEqual =>
    simp only [resultType?, Option.ite_none_right_eq_some] at typed
    exact typed.1.symm
  | _ => exact order.elim

theorem Value.eq_nil_of_kind {v : Value} (kind : Ty.nil.kind? = some v.kind) : v = .nil := by
  cases v <;> first | rfl | cases kind

theorem Value.eq_boolean_of_kind {v : Value} (kind : Ty.boolean.kind? = some v.kind) :
    ∃ b, v = .boolean b := by
  cases v <;> first | exact ⟨_, rfl⟩ | cases kind

/-- Whatever the operands do, an operator that the table of types knows on types of one kind each
gives a value of the type of the table on values of these kinds, or fails in the arithmetic. Only
two nils are of the same type and have no order, and only decimals with scales that do not fit make
it break off. -/
theorem operators_agree {rule : DivisionScale} {op : Operator} {L R T : Ty}
    (typed : op.resultType? L R = some T) {fuel more : Nat} {left right : Expr} {l r : Value}
    {m n o : Machine} (first : Eval.evaluate rule fuel left m = .ok l n)
    (second : Eval.evaluate rule fuel right n = .ok r o) (kindL : L.kind? = some l.kind)
    (kindR : R.kind? = some r.kind) (slot : Option Ty) (enough : fuel + 2 ≤ more) :
    (op.IsOrder ∧ L = .nil →
      Eval.evaluate rule more (.binary op left right slot) m =
        .error (.error (.operands op .nil .nil)) o) ∧
      (¬ (op.IsOrder ∧ L = .nil) →
        Operation.OfType rule op l r T
          (Eval.ending (Eval.evaluate rule more (.binary op left right slot) m))) := by
  obtain ⟨extra, rfl⟩ := Nat.exists_eq_add_of_le enough
  rw [show fuel + 2 + extra = fuel + extra + 2 by omega]
  by_cases strict : op.IsStrict
  · have first := Eval.evaluate_of_le (show fuel ≤ fuel + extra + 1 by omega) first
    have second := Eval.evaluate_of_le (show fuel ≤ fuel + extra + 1 by omega) second
    rw [Eval.evaluate_strict strict first second]
    constructor
    · rintro ⟨order, rfl⟩
      cases Operator.nil_of_order order typed
      cases Value.eq_nil_of_kind kindL
      cases Value.eq_nil_of_kind kindR
      rw [Operation.apply_order_nil order]
      rfl
    · intro order
      rw [Eval.ending_lift]
      exact Operation.apply_ofType typed strict order kindL kindR
  · obtain ⟨rfl, rfl, rfl⟩ := Operator.boolean_of_logical strict typed
    obtain ⟨a, rfl⟩ := Value.eq_boolean_of_kind kindL
    obtain ⟨b, rfl⟩ := Value.eq_boolean_of_kind kindR
    have first := Eval.evaluate_of_le (Nat.le_add_right fuel extra) first
    have second := Eval.evaluate_of_le (Nat.le_add_right fuel extra) second
    obtain ⟨c, k, ends⟩ := Eval.evaluate_logical strict first second slot
    rw [ends]
    exact ⟨fun nils => (by cases nils.2), fun _ => rfl⟩

/-- An integer and a decimal, as literals: their product is a decimal. -/
theorem operators_agree_product :
    Operation.OfType .dividend .multiply (.integer 2) (.decimal ⟨5, 1⟩) .decimal
      (Eval.ending (Eval.evaluate .dividend 3
        (.binary .multiply (.literal (.integer 2) none) (.literal (.decimal ⟨5, 1⟩) none) none)
        .fresh)) := by
  have typed : Operator.multiply.resultType? .integer .decimal = some .decimal := rfl
  have first : Eval.evaluate .dividend 1 (.literal (.integer 2) none) .fresh =
    .ok (.integer 2) .fresh := rfl
  have second : Eval.evaluate .dividend 1 (.literal (.decimal ⟨5, 1⟩) none) .fresh =
    .ok (.decimal ⟨5, 1⟩) .fresh := rfl
  exact (operators_agree typed first second rfl rfl none (by decide)).2 fun order => order.1

/-- Either order of nil and nil would let this program exit with 0. -/
def nilOrder : String := "FUN main(): Integer DO IF NIL < NIL DO RETURN 0; ELSE RETURN 0; END END"

/-- Analysis has a type for this order, and a run of the accepted program stops at it. -/
theorem nil_order_fails : Operator.less.resultType? .nil .nil = some .boolean ∧
    ∃ q, Source.check nilOrder = .ok q ∧
      (q.run .dividend 10).ending = .error (.operands .less .nil .nil) :=
  ⟨rfl, exists_ok (by decide +kernel)⟩

end Plc

import Mathlib.Algebra.Order.Ring.Int
import Plc.Proofs.Typing.Judgement

/-!
The tables behind the judgement: which types may stand where which is expected, what operators make
of the types of their operands, and which numbers a program may write down.
-/

namespace Plc

inductive Assignable : Ty → Ty → Prop where
  | same {T : Ty} : Assignable T T
  | any {T : Ty} : Assignable .any T
  | comparable {T : Ty} (among : T ∈ [Ty.integer, .decimal, .character, .string]) :
      Assignable .comparable T

inductive OperatorRow : Operator → Ty → Ty → Ty → Prop where
  | connective {op : Operator} (kind : op ∈ [Operator.and, .or]) :
      OperatorRow op .boolean .boolean .boolean
  | comparison {op : Operator} {T : Ty}
      (kind : op ∈ [Operator.equal, .notEqual, .less, .lessEqual, .greater, .greaterEqual]) :
      OperatorRow op T T .boolean
  | textLeft {T : Ty} : OperatorRow .add .string T .string
  | textRight {T : Ty} : OperatorRow .add T .string .string
  | sum {T : Ty} (number : T ∈ [Ty.integer, .decimal]) : OperatorRow .add T T T
  | integers {op : Operator} (kind : op ∈ [Operator.subtract, .multiply, .divide]) :
      OperatorRow op .integer .integer .integer
  | decimalLeft {op : Operator} {T : Ty} (kind : op ∈ [Operator.subtract, .multiply, .divide])
      (number : T ∈ [Ty.integer, .decimal]) : OperatorRow op .decimal T .decimal
  | decimalRight {op : Operator} {T : Ty} (kind : op ∈ [Operator.subtract, .multiply, .divide])
      (number : T ∈ [Ty.integer, .decimal]) : OperatorRow op T .decimal .decimal
  | power : OperatorRow .power .integer .integer .integer

/-- Integers of 32 bits, and decimals that do not round to infinity in the binary64 format. -/
inductive Writable : Literal → Prop where
  | nil : Writable .nil
  | boolean {b : Bool} : Writable (.boolean b)
  | character {c : Char} : Writable (.character c)
  | string {s : String} : Writable (.string s)
  | integer {n : Int} (low : -2 ^ 31 ≤ n) (high : n < 2 ^ 31) : Writable (.integer n)
  | decimal {d : Decimal}
      (finite : (d.unscaled.natAbs : Int) * 10 ^ (-d.scale).toNat <
        (2 ^ 1024 - 2 ^ 970) * 10 ^ d.scale.toNat) : Writable (.decimal d)

theorem accepts_iff (target actual : Ty) :
    target.accepts actual = true ↔ Assignable target actual := by
  constructor
  · intro accepts
    simp only [Ty.accepts, Bool.or_eq_true, Bool.and_eq_true, beq_iff_eq] at accepts
    rcases accepts with (rfl | rfl) | ⟨rfl, comparable⟩
    · exact .same
    · exact .any
    · refine .comparable ?_
      cases actual <;> simp_all [Ty.isComparable]
  · rintro (_ | _ | among)
    · simp [Ty.accepts]
    · simp [Ty.accepts]
    · cases actual <;> simp_all [Ty.accepts, Ty.isComparable]

theorem sumResult_iff (L R T : Ty) :
    Operator.sumResult L R = some T ↔ OperatorRow .add L R T := by
  constructor
  · intro result
    unfold Operator.sumResult at result
    split at result <;> cases result
    · exact .textLeft
    · exact .textRight
    · exact .sum (by decide)
    · exact .sum (by decide)
  · intro row
    cases row with
    | textLeft => rfl
    | textRight => cases L <;> rfl
    | sum number => cases L <;> simp_all [Operator.sumResult]
    | connective kind | comparison kind | integers kind | decimalLeft kind _
    | decimalRight kind _ =>
      simp at kind

theorem numericResult_iff {op : Operator} (kind : op ∈ [Operator.subtract, .multiply, .divide])
    (L R T : Ty) : Operator.numericResult L R = some T ↔ OperatorRow op L R T := by
  constructor
  · intro result
    unfold Operator.numericResult at result
    split at result <;> cases result
    · exact .integers kind
    · exact .decimalLeft kind (by decide)
    · exact .decimalLeft kind (by decide)
    · exact .decimalRight kind (by decide)
  · intro row
    cases row with
    | integers => rfl
    | decimalLeft _ number => cases R <;> simp_all [Operator.numericResult]
    | decimalRight _ number => cases L <;> simp_all [Operator.numericResult]
    | connective other | comparison other =>
      simp only [List.mem_cons, List.not_mem_nil, or_false] at kind other
      rcases kind with rfl | rfl | rfl <;> simp at other
    | textLeft | textRight | sum | power => simp at kind

theorem resultType?_iff (op : Operator) (L R T : Ty) :
    op.resultType? L R = some T ↔ OperatorRow op L R T := by
  constructor
  · intro result
    cases op with
    | and | or =>
      simp only [Operator.resultType?, Option.ite_none_right_eq_some, Option.some.injEq] at result
      obtain ⟨⟨rfl, rfl⟩, rfl⟩ := result
      exact .connective (by decide)
    | equal | notEqual | less | lessEqual | greater | greaterEqual =>
      simp only [Operator.resultType?, Option.ite_none_right_eq_some, Option.some.injEq] at result
      obtain ⟨rfl, rfl⟩ := result
      exact .comparison (by decide)
    | add => exact (sumResult_iff L R T).mp result
    | subtract | multiply | divide => exact (numericResult_iff (by decide) L R T).mp result
    | power =>
      simp only [Operator.resultType?, Option.ite_none_right_eq_some, Option.some.injEq] at result
      obtain ⟨⟨rfl, rfl⟩, rfl⟩ := result
      exact .power
  · intro row
    cases op with
    | and | or =>
      cases row with
      | connective => rfl
      | comparison kind | integers kind | decimalLeft kind _ | decimalRight kind _ => simp at kind
    | equal | notEqual | less | lessEqual | greater | greaterEqual =>
      cases row with
      | comparison => simp [Operator.resultType?]
      | connective kind | integers kind | decimalLeft kind _ | decimalRight kind _ => simp at kind
    | add => exact (sumResult_iff L R T).mpr row
    | subtract | multiply | divide => exact (numericResult_iff (by decide) L R T).mpr row
    | power =>
      cases row with
      | power => rfl
      | connective kind | comparison kind | integers kind | decimalLeft kind _
      | decimalRight kind _ =>
        simp at kind

theorem ofName?_iff (name : String) (T : Ty) : Ty.ofName? name = some T ↔ T.name = name := by
  constructor
  · intro known
    simpa using List.find?_some known
  · rintro rfl
    cases T <;> rfl

theorem isInt32_iff (n : Int) : isInt32 n = true ↔ -2 ^ 31 ≤ n ∧ n < 2 ^ 31 := by
  simp only [isInt32, Bool.and_eq_true, decide_eq_true_eq]
  exact Iff.rfl

theorem twoTo_sub {a b : Nat} (less : b ≤ a) :
    Int.ofNat (twoTo a - twoTo b) = 2 ^ a - 2 ^ b := by
  have smaller : twoTo b ≤ twoTo a := Nat.pow_le_pow_right (by decide) less
  have cast (n : Nat) : ((twoTo n : Nat) : Int) = 2 ^ n := Int.natCast_pow 2 n
  rw [Int.ofNat_eq_natCast, Int.ofNat_sub smaller, cast, cast]

theorem overflow_eq : Decimal.overflow = 2 ^ 1024 - 2 ^ 970 := twoTo_sub (by decide)

theorem overflow_pos : 0 < Decimal.overflow := by decide +kernel

/-- A number of 309 zeros is too large, whatever stands in front of them. -/
theorem overflow_lt : Decimal.overflow < 10 ^ 309 := by decide +kernel

theorem isFinite64_iff (d : Decimal) : d.isFinite64 = true ↔
    (d.unscaled.natAbs : Int) * 10 ^ (-d.scale).toNat <
      (2 ^ 1024 - 2 ^ 970) * 10 ^ d.scale.toNat := by
  have tenTo (k : Nat) : Decimal.tenTo k = 10 ^ k := by simp [Decimal.tenTo]
  have one (k : Nat) : (1 : Int) ≤ 10 ^ k := Int.pow_pos (by decide)
  rw [← overflow_eq]
  simp only [Decimal.isFinite64, tenTo, Int.ofNat_eq_natCast]
  have positive := overflow_pos
  generalize limit : Decimal.overflow = most at positive
  split
  · next right =>
    have none : (-d.scale).toNat = 0 := by omega
    simp only [none, pow_zero, mul_one, Bool.or_eq_true, decide_eq_true_eq]
    constructor
    · rintro (small | small)
      · exact small.trans_le (le_mul_of_one_le_right positive.le (one _))
      · exact small
    · exact .inr
  · next left =>
    have none : d.scale.toNat = 0 := by omega
    simp only [none, pow_zero, mul_one, Bool.or_eq_true, Bool.and_eq_true, decide_eq_true_eq,
      Decimal.isZero, beq_iff_eq]
    constructor
    · rintro (zero | ⟨-, small⟩)
      · simpa [zero] using positive
      · exact small
    · intro small
      by_cases zero : d.unscaled = 0
      · exact .inl zero
      · refine .inr ⟨?_, small⟩
        by_contra far
        have many : 309 ≤ (-d.scale).toNat := by omega
        have digits : (1 : Int) ≤ d.unscaled.natAbs := by omega
        have large : most < (d.unscaled.natAbs : Int) * 10 ^ (-d.scale).toNat :=
          calc most < 10 ^ 309 := limit ▸ overflow_lt
            _ ≤ 10 ^ (-d.scale).toNat := pow_le_pow_right₀ (by decide) many
            _ ≤ d.unscaled.natAbs * 10 ^ (-d.scale).toNat :=
              le_mul_of_one_le_left (zero_le_one.trans (one _)) digits
        exact lt_asymm small large

theorem inRange_iff (l : Literal) : l.InRange ↔ Writable l := by
  cases l with
  | nil => exact ⟨fun _ => .nil, fun _ => trivial⟩
  | boolean b => exact ⟨fun _ => .boolean, fun _ => trivial⟩
  | character c => exact ⟨fun _ => .character, fun _ => trivial⟩
  | string s => exact ⟨fun _ => .string, fun _ => trivial⟩
  | integer n =>
    rw [Literal.InRange, isInt32_iff]
    exact ⟨fun ⟨low, high⟩ => .integer low high, fun | .integer low high => ⟨low, high⟩⟩
  | decimal d =>
    rw [Literal.InRange, isFinite64_iff]
    exact ⟨.decimal, fun | .decimal finite => finite⟩

/-- What the judgement looks up is what the rules of the language lay down. -/
structure TablesHold : Prop where
  types : ∀ name T, Ty.ofName? name = some T ↔ T.name = name
  assignable : ∀ target actual : Ty, target.accepts actual = true ↔ Assignable target actual
  operators : ∀ (op : Operator) (L R T : Ty), op.resultType? L R = some T ↔ OperatorRow op L R T
  literals : ∀ l : Literal, l.InRange ↔ Writable l

theorem tables_hold : TablesHold := ⟨ofName?_iff, accepts_iff, resultType?_iff, inRange_iff⟩

end Plc

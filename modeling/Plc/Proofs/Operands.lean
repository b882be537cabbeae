import Plc.Evaluation.Operation

/-!
What the operators do by the kinds of their operands. There is a second table, of kinds, by which
the operators go at run time: where it has an answer, the result has that kind or the arithmetic
itself fails; where it has none, the operands do not fit. Apart from that, a product or a quotient
of decimals breaks off where its scale does not have 64 bits.
-/

namespace Plc

open Value (Kind)

def RuntimeError.Arithmetic : RuntimeError → Prop
  | .divisionByZero | .divisionScale | .negativeExponent _ | .largeExponent _ => True
  | _ => False

namespace Operator

def IsOrder : Operator → Prop
  | .less | .lessEqual | .greater | .greaterEqual => True
  | _ => False

def IsStrict : Operator → Prop
  | .and | .or => False
  | _ => True

def numericKind? : Kind → Kind → Option Kind
  | .integer, .integer => some .integer
  | .decimal, .decimal => some .decimal
  | .integer, .decimal => some .decimal
  | .decimal, .integer => some .decimal
  | _, _ => none

def sumKind? : Kind → Kind → Option Kind
  | .string, _ => some .string
  | _, .string => some .string
  | .integer, .integer => some .integer
  | .decimal, .decimal => some .decimal
  | _, _ => none

def orderKind? : Kind → Kind → Option Kind
  | .boolean, .boolean => some .boolean
  | .character, .character => some .boolean
  | .string, .string => some .boolean
  | .integer, .integer => some .boolean
  | .decimal, .decimal => some .boolean
  | _, _ => none

def resultKind? (op : Operator) (l r : Kind) : Option Kind :=
  match op with
  | .and | .or => none
  | .equal | .notEqual => some .boolean
  | .less | .lessEqual | .greater | .greaterEqual => orderKind? l r
  | .add => sumKind? l r
  | .subtract | .multiply | .divide => numericKind? l r
  | .power => if l = .integer ∧ r = .integer then some .integer else none

theorem resultKind?_ne_list (op : Operator) (l r : Kind) : op.resultKind? l r ≠ some .list := by
  cases op <;> cases l <;> cases r <;> decide

end Operator

namespace Decimal

/-- Both steps to the number of places by which the point moves in `a / b` have 64 bits. -/
def ShiftFits (a b : Decimal) (scale : Int) : Prop :=
  FitsInt64 (scale - a.scale) ∧ FitsInt64 (scale - a.scale + b.scale)

instance (a b : Decimal) (scale : Int) : Decidable (ShiftFits a b scale) :=
  inferInstanceAs (Decidable (_ ∧ _))

variable {a b : Decimal} {scale n : Int}

theorem mul?_eq_none_iff : a.mul? b = none ↔
    a.isUnit = false ∧ b.isUnit = false ∧ ¬ FitsInt64 (a.scale + b.scale) := by
  unfold mul? int64?
  cases a.isUnit with
  | true => simp
  | false => cases b.isUnit <;> simp

theorem shift?_eq_some_iff : shift? a b scale = some n ↔
    ShiftFits a b scale ∧ n = scale - a.scale + b.scale := by
  simp only [shift?, Option.bind_eq_some_iff, int64?_eq_some_iff]
  constructor
  · rintro ⟨moved, ⟨first, rfl⟩, second, rfl⟩
    exact ⟨⟨first, second⟩, rfl⟩
  · rintro ⟨⟨first, second⟩, rfl⟩
    exact ⟨_, ⟨first, rfl⟩, second, rfl⟩

theorem shift?_eq_none_iff : shift? a b scale = none ↔ ¬ ShiftFits a b scale := by
  rw [Option.eq_none_iff_forall_ne_some]
  constructor
  · exact fun none fits => none _ (shift?_eq_some_iff.mpr ⟨fits, rfl⟩)
  · exact fun large n found => large (shift?_eq_some_iff.mp found).1

theorem divide_of_fits (fits : ShiftFits a b scale) : a.divide b scale =
      if (scale - a.scale + b.scale).natAbs ≤ maxUInt32 then
        .ok ⟨shiftedQuotient a.unscaled b.unscaled (scale - a.scale + b.scale), scale⟩
      else .error .tooFar := by
  unfold divide
  rw [shift?_eq_some_iff.mpr ⟨fits, rfl⟩]

theorem divide_eq_overflow_iff : a.divide b scale = .error .overflow ↔ ¬ ShiftFits a b scale := by
  rw [← shift?_eq_none_iff]
  unfold divide
  cases shift? a b scale with
  | none => simp
  | some n =>
    dsimp only
    split <;> simp

end Decimal

/-- The scale of the product, or a step to the places by which the quotient moves the point, does
not have 64 bits. -/
def Operator.Overflows (rule : DivisionScale) (a b : Decimal) : Operator → Prop
  | .multiply => a.isUnit = false ∧ b.isUnit = false ∧ ¬ FitsInt64 (a.scale + b.scale)
  | .divide => b.isZero = false ∧ ¬ a.ShiftFits b (rule.scaleFor a)
  | _ => False

def Value.Denotes (v : Value) (d : Decimal) : Prop :=
  v = .decimal d ∨ ∃ n, v = .integer n ∧ d = .ofInt n

namespace Operation

variable {rule : DivisionScale} {h : Heap}

def Right (op : Operator) (l r : Kind) : Result Value → Prop
  | .ok v => op.resultKind? l r = some v.kind
  | .error e => e.Arithmetic ∨ e = .operands op l r ∧ op.resultKind? l r = none

theorem integers_kind (op : Operator) (a b : Int) :
    (∃ n, integers op a b = .ok (.integer n)) ∨ ∃ e, integers op a b = .error e ∧ e.Arithmetic := by
  unfold integers
  split
  · exact .inl ⟨_, rfl⟩
  · exact .inl ⟨_, rfl⟩
  · split
    · exact .inr ⟨_, rfl, trivial⟩
    · exact .inl ⟨_, rfl⟩

def RightOrStopped (op : Operator) (l r : Kind) : Except Halt Value → Prop
  | .ok v => Right op l r (.ok v)
  | .error (.error e) => Right op l r (.error e)
  | .error .overflow | .error .exhausted => True

theorem right_of_mapError {op : Operator} {l r : Kind} {result : Result Value}
    (right : Right op l r result) : RightOrStopped op l r (result.mapError .error) := by
  cases result <;> exact right

theorem decimals_kind (rule : DivisionScale) (op : Operator) (a b : Decimal) :
    (∃ d, decimals rule op a b = .ok (.decimal d)) ∨
      (∃ e, decimals rule op a b = .error (.error e) ∧ e.Arithmetic) ∨
        decimals rule op a b = .error .overflow := by
  unfold decimals
  split
  · exact .inl ⟨_, rfl⟩
  · split
    · exact .inl ⟨_, rfl⟩
    · exact .inr (.inr rfl)
  · split
    · exact .inr (.inl ⟨_, rfl, trivial⟩)
    · split
      · exact .inl ⟨_, rfl⟩
      · exact .inr (.inr rfl)
      · exact .inr (.inl ⟨_, rfl, trivial⟩)

theorem arithmetic_right {op : Operator} (l r : Value)
    (table : op.resultKind? l.kind r.kind = Operator.numericKind? l.kind r.kind) :
    RightOrStopped op l.kind r.kind (arithmetic rule op l r) := by
  have decimal : ∀ a b, op.resultKind? l.kind r.kind = some .decimal →
      RightOrStopped op l.kind r.kind (decimals rule op a b) := by
    intro a b known
    rcases decimals_kind rule op a b with ⟨d, ends⟩ | ⟨e, ends, arithmetic⟩ | ends
    · rw [ends]
      exact known
    · rw [ends]
      exact .inl arithmetic
    · rw [ends]
      trivial
  unfold arithmetic
  split
  · rename_i a b
    rcases integers_kind op a b with ⟨n, ends⟩ | ⟨e, ends, arithmetic⟩
    · rw [ends]
      exact table
    · rw [ends]
      exact .inl arithmetic
  · exact decimal _ _ table
  · exact decimal _ _ table
  · exact decimal _ _ table
  · next first second third fourth =>
    refine .inr ⟨rfl, table.trans ?_⟩
    cases l <;> cases r <;> first | rfl | simp at first second third fourth

theorem power_right (l r : Value) : Right .power l.kind r.kind (power l r) := by
  unfold power
  split
  · split
    · exact .inl trivial
    · split
      · exact .inl trivial
      · rfl
  · next other =>
    refine .inr ⟨rfl, if_neg ?_⟩
    cases l <;> cases r <;> simp_all [Value.kind]

theorem comparison_right {op : Operator} (order : op.IsOrder) (l r : Value) :
    Right op l.kind r.kind (comparison op l r) := by
  have table : op.resultKind? l.kind r.kind = Operator.orderKind? l.kind r.kind := by
    cases op <;> first | rfl | exact order.elim
  unfold comparison
  split
  · next o known =>
    refine table.trans ?_
    cases l <;> cases r <;> first | rfl | simp [Value.compare?] at known
  · next known =>
    refine .inr ⟨rfl, table.trans ?_⟩
    cases l <;> cases r <;> first | rfl | simp [Value.compare?] at known

theorem addition_right (l r : Value) : RightOrStopped .add l.kind r.kind (addition h l r) := by
  have shown : ∀ v (f : String → String), Operator.sumKind? l.kind r.kind = some .string →
      RightOrStopped .add l.kind r.kind (text h v >>= fun s => .ok (.string (f s))) := by
    intro v f known
    unfold text
    cases v.text? h h.size with
    | some s => exact known
    | none => trivial
  unfold addition
  split
  · exact shown _ _ rfl
  · refine shown _ _ ?_
    cases l <;> rfl
  · next first second =>
    refine right_of_mapError ?_
    unfold sum
    split
    · rfl
    · rfl
    · next third fourth =>
      refine .inr ⟨rfl, ?_⟩
      cases l <;> cases r <;> first | rfl | simp at first second third fourth

theorem apply_right {op : Operator} (strict : op.IsStrict) (l r : Value) :
    RightOrStopped op l.kind r.kind (apply rule h op l r) := by
  cases op with
  | and | or => exact strict.elim
  | equal | notEqual =>
    unfold apply equal
    cases l.equal? h h.size r with
    | some b => rfl
    | none => trivial
  | less | lessEqual | greater | greaterEqual =>
    refine right_of_mapError (comparison_right ?_ l r)
    trivial
  | add => exact addition_right l r
  | subtract | multiply | divide => exact arithmetic_right l r rfl
  | power => exact right_of_mapError (power_right l r)

theorem mapError_ne {r : Result Value} {halt : Halt} (other : ∀ e, halt ≠ .error e) :
    r.mapError Halt.error ≠ .error halt := by
  cases r with
  | error e =>
    intro same
    injection same with same
    exact other e same.symm
  | ok v => nofun

theorem arithmetic_ne_exhausted {op : Operator} {l r : Value} :
    arithmetic rule op l r ≠ .error .exhausted := by
  have decimal : ∀ a b, decimals rule op a b ≠ .error .exhausted := by
    intro a b
    rcases decimals_kind rule op a b with ⟨d, ends⟩ | ⟨e, ends, -⟩ | ends
    all_goals
      rw [ends]
      nofun
  intro failed
  unfold arithmetic at failed
  split at failed
  · exact mapError_ne (by nofun) failed
  · exact decimal _ _ failed
  · exact decimal _ _ failed
  · exact decimal _ _ failed
  · exact mapError_ne (by nofun) failed

theorem addition_ne_exhausted {l r : Value} (left : ∃ s, text h l = .ok s)
    (right : ∃ s, text h r = .ok s) : addition h l r ≠ .error .exhausted := by
  obtain ⟨s, first⟩ := left
  obtain ⟨t, second⟩ := right
  unfold addition
  split
  · rw [second]
    nofun
  · rw [first]
    nofun
  · exact mapError_ne (by nofun)

/-- Only text and equality follow lists. -/
theorem apply_ne_exhausted (op : Operator) {l r : Value} (left : ∃ s, text h l = .ok s)
    (right : ∃ s, text h r = .ok s) (same : ∃ b, equal h l r = .ok b) :
    apply rule h op l r ≠ .error .exhausted := by
  obtain ⟨b, equal⟩ := same
  unfold apply
  cases op with
  | equal | notEqual =>
    rw [equal]
    nofun
  | add => exact addition_ne_exhausted left right
  | subtract | multiply | divide => exact arithmetic_ne_exhausted
  | _ => exact mapError_ne (by nofun)

theorem decimals_overflow_iff {op : Operator} {a b : Decimal}
    (numeric : op = .subtract ∨ op = .multiply ∨ op = .divide) :
    decimals rule op a b = .error .overflow ↔ op.Overflows rule a b := by
  rcases numeric with rfl | rfl | rfl
  · simp [decimals, Operator.Overflows]
  · rw [Operator.Overflows, ← Decimal.mul?_eq_none_iff, decimals]
    cases a.mul? b <;> simp
  · rw [Operator.Overflows, ← Decimal.divide_eq_overflow_iff]
    unfold decimals
    cases b.isZero with
    | true => simp
    | false =>
      cases a.divide b (rule.scaleFor a) with
      | ok q => simp
      | error refusal => cases refusal <;> simp

theorem equal_ne_overflow {l r : Value} : equal h l r ≠ .error .overflow := by
  unfold equal
  split <;> nofun

theorem closesCycle_ne_overflow {v : Value} {place : Nat} :
    closesCycle h place v ≠ .error .overflow := by
  unfold closesCycle
  split <;> nofun

theorem addition_ne_overflow {l r : Value} : addition h l r ≠ .error .overflow := by
  unfold addition text
  split
  · cases r.text? h h.size <;> nofun
  · cases l.text? h h.size <;> nofun
  · exact mapError_ne (by nofun)

/-- Only products and quotients of decimals, which integers may stand for, break off. -/
theorem apply_overflow {op : Operator} {l r : Value}
    (overflown : apply rule h op l r = .error .overflow) :
    ∃ a b, l.Denotes a ∧ r.Denotes b ∧ op.Overflows rule a b := by
  have numeric : ∀ {op : Operator}, op = .subtract ∨ op = .multiply ∨ op = .divide →
      arithmetic rule op l r = .error .overflow →
        ∃ a b, l.Denotes a ∧ r.Denotes b ∧ op.Overflows rule a b := by
    intro op numeric overflown
    unfold arithmetic at overflown
    split at overflown
    · exact (mapError_ne (by nofun) overflown).elim
    · exact ⟨_, _, .inl rfl, .inl rfl, (decimals_overflow_iff numeric).mp overflown⟩
    · exact ⟨_, _, .inr ⟨_, rfl, rfl⟩, .inl rfl, (decimals_overflow_iff numeric).mp overflown⟩
    · exact ⟨_, _, .inl rfl, .inr ⟨_, rfl, rfl⟩, (decimals_overflow_iff numeric).mp overflown⟩
    · exact (mapError_ne (by nofun) overflown).elim
  cases op with
  | equal | notEqual =>
    unfold apply equal at overflown
    cases same : l.equal? h h.size r <;> rw [same] at overflown <;> cases overflown
  | add => exact (addition_ne_overflow overflown).elim
  | subtract => exact numeric (.inl rfl) overflown
  | multiply => exact numeric (.inr (.inl rfl)) overflown
  | divide => exact numeric (.inr (.inr rfl)) overflown
  | _ =>
    unfold apply at overflown
    exact (mapError_ne (by nofun) overflown).elim

theorem apply_plain {op : Operator} {l r v : Value} (p : Nat)
    (result : apply rule h op l r = .ok v) : v ≠ .list p := by
  rintro rfl
  have strict : op.IsStrict := by
    cases op <;> trivial
  have right : RightOrStopped op l.kind r.kind (apply rule h op l r) := apply_right strict l r
  rw [result] at right
  exact op.resultKind?_ne_list l.kind r.kind right

end Operation

end Plc

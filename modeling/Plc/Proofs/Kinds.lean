import Plc.Proofs.Operands

/-!
Which kinds of values conform to which types. Analysis goes by the table of types, a run by the
table of kinds: on operands that conform to their types the two agree wherever both have an answer.
-/

namespace Plc

open Value (Kind)

def Ty.kind? : Ty → Option Kind
  | .nil => some .nil
  | .boolean => some .boolean
  | .integer => some .integer
  | .decimal => some .decimal
  | .character => some .character
  | .string => some .string
  | .comparable | .any => none

/-- A value of this kind conforms to the type. Nil stands for whatever is missing. -/
def Ty.Covers (T : Ty) (k : Kind) : Prop :=
  k = .nil ∨ T = .any ∨ T = .comparable ∧ k ∈ [.integer, .decimal, .character, .string] ∨
    T.kind? = some k

theorem Ty.kind?_isSome {T : Ty} (narrow : T ≠ .any ∧ T ≠ .comparable) : ∃ k, T.kind? = some k := by
  cases T <;> first | exact ⟨_, rfl⟩ | exact absurd rfl narrow.1 | exact absurd rfl narrow.2

theorem Ty.kind?_ne_list (T : Ty) : T.kind? ≠ some .list := by
  cases T <;> nofun

theorem Ty.kind_of_covers {T : Ty} {k m : Kind} (covers : T.Covers k) (single : T.kind? = some m) :
    k = .nil ∨ k = m := by
  rcases covers with none | rfl | ⟨rfl, _⟩ | same
  · exact .inl none
  · cases single
  · cases single
  · exact .inr (Option.some.inj (same.symm.trans single))

theorem Ty.covers_of_accepts {S T : Ty} {k : Kind} (covers : S.Covers k)
    (accepts : T.accepts S = true) : T.Covers k := by
  simp only [Ty.accepts, Bool.or_eq_true, beq_iff_eq, Bool.and_eq_true] at accepts
  rcases accepts with (rfl | rfl) | ⟨rfl, below⟩
  · exact covers
  · exact .inr (.inl rfl)
  · rcases covers with none | rfl | ⟨rfl, _⟩ | same
    · exact .inl none
    · cases below
    · cases below
    · refine .inr (.inr (.inl ⟨rfl, ?_⟩))
      cases S <;> first | (cases same; decide) | cases below

namespace Operator

variable {op : Operator} {L R T : Ty} {l r k : Kind}

theorem numericKind?_of_covers (static : numericResult L R = some T)
    (dynamic : numericKind? l r = some k) (left : L.Covers l) (right : R.Covers r) :
    T.kind? = some k := by
  unfold numericResult at static
  split at static <;> cases static <;> rcases Ty.kind_of_covers left rfl with rfl | rfl <;>
    rcases Ty.kind_of_covers right rfl with rfl | rfl <;> cases dynamic <;> rfl

/-- What is added to a string, or to the nil that stands for one, makes a string. -/
theorem sumKind?_string (text : (l = .nil ∨ l = .string) ∨ r = .nil ∨ r = .string)
    (dynamic : sumKind? l r = some k) : k = .string := by
  rcases text with (rfl | rfl) | rfl | rfl
  · cases r <;> cases dynamic
    rfl
  · cases dynamic
    rfl
  · cases l <;> cases dynamic
    rfl
  · cases l <;> cases dynamic <;> rfl

theorem sumKind?_of_covers (static : sumResult L R = some T) (dynamic : sumKind? l r = some k)
    (left : L.Covers l) (right : R.Covers r) : T.kind? = some k := by
  unfold sumResult at static
  split at static
  · cases static
    rw [sumKind?_string (.inl (Ty.kind_of_covers left rfl)) dynamic]
    rfl
  · cases static
    rw [sumKind?_string (.inr (Ty.kind_of_covers right rfl)) dynamic]
    rfl
  · cases static
    rcases Ty.kind_of_covers left rfl with rfl | rfl <;>
      rcases Ty.kind_of_covers right rfl with rfl | rfl <;> cases dynamic
    rfl
  · cases static
    rcases Ty.kind_of_covers left rfl with rfl | rfl <;>
      rcases Ty.kind_of_covers right rfl with rfl | rfl <;> cases dynamic
    rfl
  · cases static

theorem orderKind?_boolean (dynamic : orderKind? l r = some k) : k = .boolean := by
  unfold orderKind? at dynamic
  split at dynamic <;> cases dynamic <;> rfl

/-- Where both tables have an answer, they agree. -/
theorem kind?_of_covers (static : op.resultType? L R = some T)
    (dynamic : op.resultKind? l r = some k) (left : L.Covers l) (right : R.Covers r) :
    T.kind? = some k := by
  cases op with
  | and | or => cases dynamic
  | equal | notEqual =>
    simp only [resultType?, Option.ite_none_right_eq_some, Option.some.injEq] at static
    cases static.2
    exact dynamic
  | less | lessEqual | greater | greaterEqual =>
    simp only [resultType?, Option.ite_none_right_eq_some, Option.some.injEq] at static
    cases static.2
    rw [orderKind?_boolean dynamic]
    rfl
  | add => exact sumKind?_of_covers static dynamic left right
  | subtract | multiply | divide => exact numericKind?_of_covers static dynamic left right
  | power =>
    simp only [resultType?, resultKind?, Option.ite_none_right_eq_some, Option.some.injEq]
      at static dynamic
    rw [← static.2, ← dynamic.2]
    rfl

/-- On operands of just the kinds of their types the second table has an answer too, unless it is
the order of nil that is asked for. -/
theorem resultKind?_isSome (static : op.resultType? L R = some T) (strict : op.IsStrict)
    (order : ¬ (op.IsOrder ∧ L = .nil ∧ R = .nil)) (left : L.kind? = some l)
    (right : R.kind? = some r) :
    (op.resultKind? l r).isSome := by
  cases op with
  | and | or => exact strict.elim
  | equal | notEqual => rfl
  | less | lessEqual | greater | greaterEqual =>
    simp only [resultType?, Option.ite_none_right_eq_some] at static
    obtain ⟨rfl, _⟩ := static
    cases L <;> cases left <;> cases right <;> first | rfl | exact absurd ⟨trivial, rfl, rfl⟩ order
  | add =>
    cases L <;> cases R <;> cases static <;> cases left <;> cases right <;> rfl
  | subtract | multiply | divide =>
    cases L <;> cases R <;> cases static <;> cases left <;> cases right <;> rfl
  | power =>
    simp only [resultType?, Option.ite_none_right_eq_some] at static
    obtain ⟨⟨rfl, rfl⟩, _⟩ := static
    cases left
    cases right
    rfl

end Operator

end Plc

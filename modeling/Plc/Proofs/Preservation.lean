import Plc.Proofs.Discipline.Source
import Plc.Proofs.Kinds

/-!
Values keep to their types. In every run of a program that analysis accepts, each variable holds a
value that conforms to its record and each expression gives one that conforms to its type. Variables
may lack a value and functions a result, so nil conforms to every type.
-/

namespace Plc

namespace Discipline

def values (rule : DivisionScale) : Discipline rule where
  noted := True
  typed := True
  conforms T v := T.Covers v.kind
  types _ := True
  operands _ _ _ := True
  lenient := True
  permits e := ∀ name found, e ≠ .notList name found
  notes := id
  free untyped := absurd trivial untyped
  literal l := by cases l <;> exact .inr (.inr (.inr rfl))
  accepts := Ty.covers_of_accepts
  whole _ _ := .inr (.inl rfl)
  nil _ _ := .inl rfl
  truth {v} covers := by
    cases v with
    | boolean b => exact .inl ⟨b, rfl⟩
    | _ => exact .inr nofun
  index {v} covers := by
    cases v with
    | integer n => exact .inl ⟨n, rfl⟩
    | _ => exact .inr nofun
  exit {v} covers := by
    cases v with
    | integer n => exact .inl ⟨n, rfl⟩
    | _ => exact .inr nofun
  result {op L R T l r} h strict _ _ _ static left right := by
    have dynamic : Operation.RightOrStopped op l.kind r.kind (Operation.apply rule h op l r) :=
      Operation.apply_right strict l r
    refine ⟨fun v ends => ?_, fun e ends => ?_⟩
    · rw [ends] at dynamic
      exact .inr (.inr (.inr (Operator.kind?_of_covers static dynamic left right)))
    · rw [ends] at dynamic
      rcases dynamic with arithmetic | ⟨rfl, _⟩
      · cases e <;> first | exact arithmetic.elim | nofun
      · exact nofun
  nested _ _ _ := nofun
  range _ _ := nofun
  immutable _ := nofun

theorem fineProgram_values {rule : DivisionScale} {p : Program} (read : p.Grammatical) :
    (values rule).FineProgram p :=
  fineProgram_of_grammatical read
    (fun _ _ => ⟨fun _ _ => trivial, fun _ _ _ _ _ _ _ _ _ => trivial⟩)
    (fun _ _ _ => .inr trivial) (fun _ _ _ _ _ _ => trivial) fun _ _ _ _ => .inl trivial

end Discipline

/-- A value that a variable may hold: for a list variable, a list of elements that it may have. -/
def Variable.Covers (v : Variable) (h : Heap) (w : Value) : Prop :=
  if v.list then ∃ p, w = .list p ∧ p < h.size ∧ ∀ u ∈ h.elements p, v.ty.Covers u.kind
  else v.ty.Covers w.kind

def Expr.Covers (e : Expr) (T : Ty) (h : Heap) (w : Value) : Prop :=
  match e with
  | .list .. => ∃ p, w = .list p ∧ p < h.size ∧ ∀ u ∈ h.elements p, T.Covers u.kind
  | _ => T.Covers w.kind

/-- Values conform to their types at every moment. The record of a cell is what analysis noted where
its variable is defined and wherever it is used. -/
structure History.Typed (h : History) : Prop where
  cells : ∀ x ∈ h.moments, ∀ (i : Nat) (c : Cell), x.machine.cells[i]? = some c →
    ∃ v : Variable, h.records[i]? = some (some v) ∧ v.Covers x.machine.heap c.value
  names : ∀ x ∈ h.moments, ∀ (record : Option Variable) (i : Nat),
    x.event = .defined record i ∨ x.event = .resolved record i → h.records[i]? = some record
  values : ∀ x ∈ h.moments, ∀ e w T, x.event = .evaluated e w → e.ty = some T →
    e.Covers T x.machine.heap w

theorem record_of_told {rule : DivisionScale} {h : History} (told : (Discipline.values rule).Told h)
    {i : Nat} (inside : i < h.records.length) : ∃ v, h.records[i]? = some (some v) := by
  have noted : ∀ record ∈ h.records, ∃ v, record = some v := by
    intro record member
    simp only [History.records, List.mem_reverse, List.mem_filterMap] at member
    obtain ⟨x, moment, is⟩ := member
    have tells := (told x moment).tells
    unfold Moment.record? at is
    split at is
    · next event =>
      rw [Discipline.Tells, event] at tells
      cases is
      exact tells.2 trivial
    · cases is
  obtain ⟨v, is⟩ := noted _ (List.getElem_mem inside)
  exact ⟨v, by rw [List.getElem?_eq_getElem inside, is]⟩

/-- In every run of a program that was read and accepted, at every moment. -/
theorem values_typed {source : String} {q : Program} (accepted : Source.check source = .ok q)
    (rule : DivisionScale) (fuel : Nat) :
    (Machine.fresh.history rule fuel q).Typed ∧
      ∀ name found, (q.run rule fuel).ending ≠ .error (.notList name found) := by
  obtain ⟨read, Δ, ok⟩ := typed_of_check accepted
  have sound := Discipline.sound_program (Discipline.values rule) fuel ok
    (Discipline.fineProgram_values read)
  obtain ⟨told, ending⟩ := sound
  refine ⟨⟨fun x moment i c found => ?_, fun x moment record i event => ?_,
    fun x moment e w T event ty => ?_⟩, fun name found ends => ?_⟩
  · have good := told x moment
    have inside : i < (Machine.fresh.history rule fuel q).records.length :=
      Nat.lt_of_lt_of_le (Array.getElem?_eq_some_iff.mp found).1 good.size
    obtain ⟨v, known⟩ := record_of_told told inside
    exact ⟨v, known, good.conform trivial i v c known found⟩
  · have tells := (told x moment).tells
    rcases event with event | event
    · rw [Discipline.Tells, event] at tells
      exact tells.1
    · rw [Discipline.Tells, event] at tells
      exact tells trivial
  · have tells := (told x moment).tells
    rw [Discipline.Tells, event] at tells
    have yields := tells trivial T ty
    cases e <;> exact yields
  · exact ending _ ends name found rfl

def mixedList : String :=
  "LIST xs: Any = [1, 2]; FUN main(): Integer DO xs[0] = \"one\"; print(xs); RETURN 0; END"

/-- The list has got its text at a moment of the run. -/
theorem values_typed_mixedList : ∃ q, Source.check mixedList = .ok q ∧
    ((Machine.fresh.history .dividend 20 q).Typed ∧
      ∀ name found, (q.run .dividend 20).ending ≠ .error (.notList name found)) ∧
    ∃ x ∈ (Machine.fresh.history .dividend 20 q).moments,
      x.machine.heap.elements 0 = [.string "one", .integer 2] := by
  have known : ∃ q ∈ (Source.check mixedList).toOption,
      ∃ x ∈ (Machine.fresh.history .dividend 20 q).moments,
        x.machine.heap.elements 0 = [.string "one", .integer 2] := by
    decide +kernel
  obtain ⟨q, accepted, stored⟩ := exists_ok known
  exact ⟨q, accepted, values_typed accepted .dividend 20, stored⟩

end Plc

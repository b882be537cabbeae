import Plc.Proofs.Progress

/-!
Missing values. Nil stands for the value of a variable that was never given one and for the result
of a function that ends without returning. Where a run asks for a value of one certain kind, in a
condition, as an index and from `main`, it finds a value of that kind or nil: no other value gets
there, whatever types the program uses. Where nothing is missing, not even nil does.
-/

namespace Plc

/-- What was found where a value of a certain kind was asked for. -/
def RuntimeError.found? : RuntimeError → Option Value.Kind
  | .conditionNotBoolean found | .indexNotInteger found | .mainResult found => some found
  | _ => none

structure Program.Filled (p : Program) : Prop where
  globals : ∀ g ∈ p.globals, g.list = false → g.mutable = true → g.value ≠ none
  locals : ∀ s ∈ p.statements, s.Initialized
  results : ∀ f ∈ p.functions, f.returnTy? ≠ some .nil → f.EndsInReturn

instance : DecidablePred Program.Filled := fun p =>
  decidable_of_iff
    ((∀ g ∈ p.globals, g.list = false → g.mutable = true → g.value ≠ none) ∧
      (∀ s ∈ p.statements, s.Initialized) ∧
      ∀ f ∈ p.functions, f.returnTy? ≠ some .nil → f.EndsInReturn)
    ⟨fun ⟨globals, locals, results⟩ => ⟨globals, locals, results⟩,
      fun ⟨globals, locals, results⟩ => ⟨globals, locals, results⟩⟩

theorem Operation.found?_of_apply {rule : DivisionScale} {h : Heap} {op : Operator} {l r : Value}
    {e : RuntimeError} (strict : op.IsStrict)
    (stopped : Operation.apply rule h op l r = .error (.error e)) : e.found? = none := by
  have right : RightOrStopped op l.kind r.kind (apply rule h op l r) := apply_right strict l r
  rw [stopped] at right
  rcases right with arithmetic | ⟨rfl, _⟩
  · cases e <;> first | rfl | exact arithmetic.elim
  · rfl

namespace Discipline

def Present (missing : Prop) (T : Ty) (v : Value) : Prop :=
  T.Covers v.kind ∧ (¬ missing → ∀ k, T.kind? = some k → v.kind = k)

theorem present_of_kind {missing : Prop} {T : Ty} {v : Value} (kind : T.kind? = some v.kind) :
    Present missing T v := by
  constructor
  · exact .inr (.inr (.inr kind))
  · intro _ k single
    exact Option.some.inj (kind.symm.trans single)

/-- A value where one of a single kind belongs has that kind, or it is missing. -/
theorem kind_of_present {missing : Prop} {T : Ty} {v : Value} {k : Value.Kind}
    (single : T.kind? = some k) (present : Present missing T v) :
    v.kind = k ∨ missing ∧ v.kind = .nil := by
  by_cases may : missing
  · rcases Ty.kind_of_covers present.1 single with none | same
    · exact .inr ⟨may, none⟩
    · exact .inl same
  · exact .inl (present.2 may k single)

theorem permits_of_missing {missing : Prop} {v : Value} {e : RuntimeError}
    (none : missing ∧ v.kind = .nil) (finds : e.found? = some v.kind) :
    ∀ k, e.found? = some k → missing ∧ k = .nil := by
  intro k found
  cases finds.symm.trans found
  exact none

def present (rule : DivisionScale) (missing : Prop) : Discipline rule where
  noted := True
  typed := True
  conforms := Present missing
  types _ := True
  operands _ _ _ := True
  lenient := missing
  permits e := ∀ k, e.found? = some k → missing ∧ k = .nil
  notes := id
  free untyped := absurd trivial untyped
  literal l := present_of_kind (by cases l <;> rfl)
  accepts {S T v} present accepts := by
    constructor
    · exact Ty.covers_of_accepts present.1 accepts
    · intro full k single
      simp only [Ty.accepts, Bool.or_eq_true, beq_iff_eq, Bool.and_eq_true] at accepts
      rcases accepts with (rfl | rfl) | ⟨rfl, _⟩
      · exact present.2 full k single
      · cases single
      · cases single
  whole _ _ := ⟨.inr (.inl rfl), nofun⟩
  nil may _ := ⟨.inl rfl, fun full => absurd may full⟩
  truth {v} present := by
    rcases kind_of_present rfl present with kind | none
    · cases v <;> cases kind
      exact .inl ⟨_, rfl⟩
    · exact .inr (permits_of_missing none rfl)
  index {v} present := by
    rcases kind_of_present rfl present with kind | none
    · cases v <;> cases kind
      exact .inl ⟨_, rfl⟩
    · exact .inr (permits_of_missing none rfl)
  exit {v} present := by
    rcases kind_of_present rfl present with kind | none
    · cases v <;> cases kind
      exact .inl ⟨_, rfl⟩
    · exact .inr (permits_of_missing none rfl)
  result {op L R T l r} h strict _ _ _ static left right := by
    have dynamic : Operation.RightOrStopped op l.kind r.kind (Operation.apply rule h op l r) :=
      Operation.apply_right strict l r
    constructor
    · intro v ends
      rw [ends] at dynamic
      exact present_of_kind (Operator.kind?_of_covers static dynamic left.1 right.1)
    · intro e stopped k found
      rw [Operation.found?_of_apply strict stopped] at found
      cases found
  nested _ _ _ := nofun
  range _ _ := nofun
  immutable _ := nofun

theorem fineProgram_present {rule : DivisionScale} {missing : Prop} {p : Program}
    (read : p.Grammatical) (filled : missing ∨ p.Filled) :
    (present rule missing).FineProgram p := by
  refine fineProgram_of_grammatical read
    (fun _ _ => ⟨fun _ _ => trivial, fun _ _ _ _ _ _ _ _ _ => trivial⟩) ?globals ?locals ?results
  case globals =>
    intro g member none
    rcases filled with may | filled
    · exact .inr may
    · left
      by_contra single
      have plain : g.list = false := by simpa using single
      cases mutable : g.mutable with
      | true => exact filled.globals g member plain mutable none
      | false => exact read.constants g member mutable none
  case locals =>
    rintro s member name typeName record rfl
    rcases filled with may | filled
    · exact may
    · exact absurd rfl (filled.locals _ member)
  case results =>
    intro f member ty returns
    rcases filled with may | filled
    · exact .inl may
    · by_cases nothing : ty = .nil
      · exact .inr (.inl nothing)
      · have some : f.returnTy? ≠ some .nil := fun same =>
          nothing (Option.some.inj (returns.symm.trans same))
        exact .inr (.inr (filled.results f member some))

/-- A run that is stopped by a value of a wrong kind has found nil, where values may be missing. -/
theorem stopped_of_present {source : String} {q : Program}
    (accepted : Source.check source = .ok q) (missing : Prop) (filled : missing ∨ q.Filled)
    (rule : DivisionScale) (fuel : Nat) {e : RuntimeError} {k : Value.Kind}
    (stopped : (q.run rule fuel).ending = .error e) (found : e.found? = some k) :
    missing ∧ k = .nil := by
  obtain ⟨read, Δ, ok⟩ := typed_of_check accepted
  have sound := sound_program (present rule missing) fuel ok (fineProgram_present read filled)
  exact sound.2 e stopped k found

end Discipline

/-- Where no value is missing, conditions are booleans, indices are integers and `main` returns an
integer in every run of an accepted program. Elsewhere nil is all that may be found instead. -/
theorem only_missing {source : String} {q : Program} (accepted : Source.check source = .ok q)
    (rule : DivisionScale) (fuel : Nat) :
    (q.Filled → ∀ e, (q.run rule fuel).ending = .error e → e.found? = none) ∧
      ∀ e k, (q.run rule fuel).ending = .error e → e.found? = some k → k = .nil := by
  constructor
  · intro filled e stopped
    cases found : e.found? with
    | none => rfl
    | some k =>
      exact (Discipline.stopped_of_present accepted False (.inr filled) rule fuel
        stopped found).1.elim
  · intro e k stopped found
    exact (Discipline.stopped_of_present accepted True (.inl trivial) rule fuel
      stopped found).2

def counting : String :=
  "LIST xs = [4, 5]; FUN main(): Integer DO LET i = 0; LET sum = 0; WHILE i < 2 DO " ++
    "sum = sum + xs[i]; i = i + 1; END RETURN sum; END"

theorem only_missing_counting : ∃ q, Source.check counting = .ok q ∧ q.Filled ∧
    (∀ e, (q.run .dividend 40).ending = .error e → e.found? = none) ∧
      ∀ e k, (q.run .dividend 40).ending = .error e → e.found? = some k → k = .nil := by
  have known : ∃ q ∈ (Source.check counting).toOption, q.Filled := by decide +kernel
  obtain ⟨q, accepted, filled⟩ := exists_ok known
  have only := only_missing accepted .dividend 40
  exact ⟨q, accepted, filled, only.1 filled, only.2⟩

/-- Whichever boolean `b` were, this program would exit with 0. -/
def unset : String :=
  "FUN main(): Integer DO LET b: Boolean; IF b DO RETURN 0; ELSE RETURN 0; END END"

/-- No expression needs a wider type than those of its values, and yet a run of an accepted program
stops because a condition is no boolean. -/
theorem unset_condition : ∃ q, Source.check unset = .ok q ∧
    (∀ e ∈ q.expressions, e.ty ≠ some .any ∧ e.ty ≠ some .comparable) ∧
      (q.run .dividend 10).ending = .error (.conditionNotBoolean .nil) :=
  exists_ok (by decide +kernel)

end Plc

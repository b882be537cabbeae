import Plc.Proofs.Discipline.Program

/-!
Names mean something wherever they are used. A program that analysis accepts never stops for a name,
whatever else may stop it, and every call passes as many arguments as there are parameters. Nothing
is said of values here: this is the discipline under which any value will do.
-/

namespace Plc

/-- The errors that say that a name means nothing, or means something that does not fit its use. -/
def RuntimeError.Nominal : RuntimeError → Prop
  | .undefinedVariable _ | .undefinedFunction .. | .redefinition _ | .mainMissing | .badReceiver
  | .outlivedScope _ | .printArity _ => True
  | _ => False

namespace Discipline

def names (rule : DivisionScale) (noted : Prop) : Discipline rule where
  noted := noted
  typed := False
  conforms _ _ := True
  types _ := True
  operands _ _ _ := True
  lenient := True
  permits e := ¬ e.Nominal
  notes := False.elim
  free _ := ⟨fun _ _ => trivial, fun _ => trivial, fun _ _ _ => trivial, fun _ _ => id⟩
  literal _ := trivial
  accepts _ _ := trivial
  whole _ _ := trivial
  nil _ _ := trivial
  truth _ := .inr id
  index _ := .inr id
  exit _ := .inr id
  result {op L R T l r} h strict _ _ _ _ _ _ := by
    refine ⟨fun _ _ => trivial, fun e ends nominal => ?_⟩
    have right : Operation.RightOrStopped op l.kind r.kind (Operation.apply rule h op l r) :=
      Operation.apply_right strict l r
    rw [ends] at right
    rcases right with arithmetic | ⟨rfl, _⟩
    · cases e <;> first | exact nominal | exact arithmetic
    · exact nominal
  nested _ _ _ := id
  range _ _ := id
  immutable _ := id

theorem fine_names {rule : DivisionScale} {noted : Prop} (e : Expr) :
    (names rule noted).Fine e := by
  intro x _
  refine ⟨fun _ _ => trivial, ?_⟩
  cases x <;> first | trivial | exact fun _ _ _ _ => trivial | exact id

theorem fineProgram_names {rule : DivisionScale} {noted : Prop} (p : Program) :
    (names rule noted).FineProgram p := by
  refine ⟨fun g _ => ?_,
    fun f _ => ⟨fun s _ => ⟨fun e _ => fine_names e, ?_⟩, fun _ _ => .inl trivial⟩⟩
  · unfold FineGlobal
    split
    · exact .inr trivial
    · exact .inl ⟨False.elim, fine_names _⟩
  · split <;> trivial

end Discipline

/-- A call of a function that is written in the language passes one argument for each parameter. -/
def Moment.PassesAll (x : Moment) : Prop :=
  ∀ f scope vs, x.event = .invoked (.function f scope) vs → vs.length = f.parameters.length

theorem passesAll_of_told {rule : DivisionScale} {D : Discipline rule} {h : History}
    (told : D.Told h) : ∀ x ∈ h.moments, x.PassesAll := by
  intro x member f scope vs event
  have tells := (told x member).tells
  rw [Discipline.Tells, event] at tells
  exact tells

/-- No run of a program that analysis accepts stops for a name, whether its slots are filled or not,
and no call binds fewer parameters or arguments than there are. -/
theorem names_resolved {p q : Program} (accepted : p.check = .ok q) (rule : DivisionScale)
    (fuel : Nat) :
    ((∀ e, (p.run rule fuel).ending = .error e → ¬ e.Nominal) ∧
        ∀ x ∈ (Machine.fresh.history rule fuel p).moments, x.PassesAll) ∧
      (∀ e, (q.run rule fuel).ending = .error e → ¬ e.Nominal) ∧
        ∀ x ∈ (Machine.fresh.history rule fuel q).moments, x.PassesAll := by
  obtain ⟨Δ, noted, plain, _⟩ := check_sound accepted
  have raw := Discipline.sound_program (Discipline.names rule False) fuel plain
    (Discipline.fineProgram_names p)
  have filled := Discipline.sound_program (Discipline.names rule True) fuel noted
    (Discipline.fineProgram_names q)
  exact ⟨⟨raw.2, passesAll_of_told raw.1⟩, filled.2, passesAll_of_told filled.1⟩

def identityCall : Program :=
  ⟨[], [⟨"same", [⟨"n", "Integer"⟩], some "Integer", [.return (.access "n" none none)], none⟩,
    ⟨"main", [], some "Integer",
      [.return (.call "same" [.literal (.integer 7) none] none none)], none⟩]⟩

theorem names_resolved_call : ∃ q, identityCall.check = .ok q ∧
    (∀ e, (q.run .dividend 20).ending = .error e → ¬ e.Nominal) ∧
      (∀ x ∈ (Machine.fresh.history .dividend 20 q).moments, x.PassesAll) ∧
      ∃ x ∈ (Machine.fresh.history .dividend 20 q).moments, ∃ f scope,
        x.event = .invoked (.function f scope) [.integer 7] ∧ f.name = "same" := by
  have accepted : identityCall.check = .ok _ := rfl
  obtain ⟨nominal, passes⟩ := (names_resolved accepted .dividend 20).2
  refine ⟨_, accepted, nominal, passes, ?_⟩
  exact ⟨_, List.mem_of_getElem? (i := 10) rfl, _, _, rfl, rfl⟩

end Plc

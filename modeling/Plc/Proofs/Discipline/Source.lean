import Plc.Proofs.Discipline.Program
import Plc.Proofs.Grammar

/-!
Disciplines over programs that were read from text: list literals need no care there, so what is
asked of a program comes down to what is asked of each expression, variable and function.
-/

namespace Plc

theorem typed_of_check {source : String} {q : Program} (accepted : Source.check source = .ok q) :
    q.Grammatical ∧ ∃ Δ, ProgramOk True Context.fresh.env q Δ := by
  obtain ⟨p, read, typed⟩ := read_of_check accepted
  obtain ⟨Δ, ok, _, same⟩ := check_sound typed
  refine ⟨?_, Δ, ok⟩
  rw [← Program.grammatical_erase, same, Program.grammatical_erase]
  exact grammatical_of_parse read

namespace Discipline

variable {rule : DivisionScale} {D : Discipline rule}

structure Suits (D : Discipline rule) (e : Expr) : Prop where
  types : ∀ T, e.ty = some T → D.types T
  operands : ∀ op left right slot, e = .binary op left right slot →
    ∀ L R, left.ty = some L → right.ty = some R → D.operands op L R

theorem fine_of_flat {e : Expr} (flat : e.Flat) (suits : ∀ x ∈ e.parts, D.Suits x) : D.Fine e := by
  intro x member
  refine ⟨(suits x member).types, ?_⟩
  cases x with
  | binary op left right slot => exact (suits _ member).operands op left right slot rfl
  | list es slot => exact absurd trivial (flat _ member)
  | _ => trivial

theorem fineBlock_of_flat {ss : List Stmt} (flat : Stmt.AllFlat ss)
    (suits : ∀ t ∈ Stmt.allParts ss, ∀ e ∈ t.own, ∀ x ∈ e.parts, D.Suits x)
    (initial : ∀ t ∈ Stmt.allParts ss, ∀ name typeName record,
      t = .declaration name typeName none record → D.lenient) : D.FineBlock ss := by
  intro t member
  refine ⟨fun e own => fine_of_flat (flat t member e own) (suits t member e own), ?_⟩
  split
  · next name typeName record => exact initial _ member name typeName record rfl
  · trivial

theorem fineGlobal_of_flat {g : Global} (flat : g.Flat)
    (suits : ∀ e, g.value = some e → ∀ x ∈ e.parts, D.Suits x)
    (initial : g.value = none → g.list = true ∨ D.lenient) : D.FineGlobal g := by
  obtain ⟨name, typeName, mutable, list, value, record⟩ := g
  cases value with
  | none => exact initial rfl
  | some e =>
    have flat := flat e rfl
    have each := suits e rfl
    cases list with
    | false => exact .inl ⟨fun _ => rfl, fine_of_flat flat each⟩
    | true =>
      obtain ⟨es, slot, rfl, all⟩ := flat
      refine .inr ⟨es, slot, rfl, rfl, fun x member => ?_⟩
      apply fine_of_flat (all x member)
      intro y inside
      exact each y (List.mem_cons_of_mem _ (Expr.mem_allParts.mpr ⟨x, member, inside⟩))

theorem fineProgram_of_grammatical {p : Program} (read : p.Grammatical)
    (suits : ∀ e ∈ p.expressions, D.Suits e)
    (globals : ∀ g ∈ p.globals, g.value = none → g.list = true ∨ D.lenient)
    (locals : ∀ s ∈ p.statements, ∀ name typeName record,
      s = .declaration name typeName none record → D.lenient)
    (results : ∀ f ∈ p.functions, ∀ ty, f.returnTy? = some ty → D.Finishes f.body ty) :
    D.FineProgram p := by
  have written : ∀ {f t}, f ∈ p.functions → t ∈ Stmt.allParts f.body → t ∈ p.statements :=
    fun function inside => List.mem_flatMap.mpr ⟨_, function, inside⟩
  refine ⟨fun g member => ?_, fun f member => ⟨?_, results f member⟩⟩
  · refine fineGlobal_of_flat (read.lists g member) (fun e is x inside => ?_) (globals g member)
    refine suits x (List.mem_flatMap.mpr ⟨e, List.mem_append_left _ ?_, inside⟩)
    exact List.mem_filterMap.mpr ⟨g, member, is⟩
  · refine fineBlock_of_flat (read.functions f member) (fun t inside e own x part => ?_)
      fun t inside => locals t (written member inside)
    refine suits x (List.mem_flatMap.mpr ⟨e, List.mem_append_right _ ?_, part⟩)
    exact List.mem_flatMap.mpr ⟨t, written member inside, own⟩

end Discipline

end Plc

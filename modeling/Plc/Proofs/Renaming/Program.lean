import Plc.Proofs.Renaming.Runs
import Plc.Proofs.Renaming.Typing
import Plc.Proofs.Typing.Sound

/-!
Names do not matter. A program whose variables and functions are renamed is accepted if it was, and
runs as it did, with analysis before it and without: it ends with the same value, or with the same
error under the new names, and prints the same lines.
-/

namespace Plc

namespace Machine

theorem rename_fresh (r : Renaming) : fresh.rename r = fresh := by
  have bound := ((Scopes.single : Scopes Nat Callable).addChild 0).rename_bindFunction r id
    (Callable.rename r) 1 "print" 1 .print
  rw [r.print, Scopes.rename_addChild, Scopes.rename_single] at bound
  unfold rename fresh inside empty
  simp only [Machine.mk.injEq, and_true]
  exact ⟨bound, Array.map_empty⟩

theorem backed_fresh : fresh.Backed :=
  backed_bindFunction (backed_addChild backed_empty 0 empty.scopes.next) _ _ _ _

/-- A renamed program on the renamed machine ends as the program does on the machine itself. -/
theorem run_rename {m : Machine} (backed : m.Backed) (r : Renaming) (rule : DivisionScale)
    (fuel : Nat) (p : Program) : (m.rename r).run rule fuel (p.rename r) =
      ((m.run rule fuel p).1.rename r, (m.run rule fuel p).2.rename r) := by
  have carries : Carries (Machine.carry r) id (Eval.program rule fuel p)
      (Eval.program rule fuel (p.rename r)) := Eval.carries_program p
  have carried := carries { m with output := #[] } backed
  unfold Machine.run
  rw [show { m.rename r with output := #[] } =
    (Machine.carry r).state { m with output := #[] } from rfl]
  generalize Eval.program rule fuel p { m with output := #[] } = found at carried
  generalize Eval.program rule fuel (p.rename r) _ = found' at carried
  cases carried with
  | ok => rfl
  | @error e =>
    cases e with
    | error e => rfl
    | overflow | exhausted => rfl

end Machine

theorem Program.run_rename (r : Renaming) (p : Program) (rule : DivisionScale) (fuel : Nat) :
    (p.rename r).run rule fuel = (p.run rule fuel).rename r := by
  have same := Machine.run_rename Machine.backed_fresh r rule fuel p
  rw [Machine.rename_fresh] at same
  exact congrArg Prod.fst same

/-- A renamed program is accepted with its slots filled in the same way, or refused for the same
reason; it runs as the program does, and what analysis makes of it runs as what it makes of the
program. -/
theorem names_indifferent (r : Renaming) (p : Program) :
    (p.rename r).check = (p.check.map (Program.rename r)).mapError (TypeError.rename r) ∧
      ∀ rule fuel, (p.rename r).run rule fuel = (p.run rule fuel).rename r ∧
        ∀ q, p.check = .ok q → (p.rename r).check = .ok (q.rename r) ∧
          (q.rename r).run rule fuel = (q.run rule fuel).rename r := by
  have checked := p.check_rename r
  refine ⟨checked, fun rule fuel => ⟨p.run_rename r rule fuel, fun q accepted => ?_⟩⟩
  rw [accepted] at checked
  exact ⟨checked, q.run_rename r rule fuel⟩

def exchanged (x y name : String) : String :=
  if name = x then y else if name = y then x else name

theorem exchanged_injective (x y : String) (a b : String)
    (same : exchanged x y a = exchanged x y b) : a = b := by
  unfold exchanged at same
  grind

def Renaming.crossed : Renaming where
  ofVariable := exchanged "x" "y"
  ofFunction := exchanged "f" "g"
  variableInjective := exchanged_injective "x" "y"
  functionInjective := exchanged_injective "f" "g"
  main := by decide
  print := by decide

def assigningConstant : String :=
  "VAL x = 1; FUN f(y: Integer): Integer DO print(y); x = y; RETURN y; END " ++
    "FUN main(): Integer DO RETURN f(x + 1); END"

/-- The constant is called `x` in one program and `y` in the other, and no assignment to it passes
in either. -/
theorem names_indifferent_crossed : ∃ p, Source.parse assigningConstant = .ok p ∧
    ∃ q, p.check = .ok q ∧ (p.rename .crossed).check = .ok (q.rename .crossed) ∧
      (q.rename .crossed).run .dividend 20 = (q.run .dividend 20).rename .crossed ∧
      q.run .dividend 20 = ⟨.error (.immutable "x"), ["2"]⟩ ∧
      (q.run .dividend 20).rename .crossed = ⟨.error (.immutable "y"), ["2"]⟩ := by
  have known : ∃ p ∈ (Source.parse assigningConstant).toOption, ∃ q ∈ p.check.toOption,
      q.run .dividend 20 = ⟨.error (.immutable "x"), ["2"]⟩ := by decide +kernel
  obtain ⟨p, read, known⟩ := exists_ok known
  obtain ⟨q, accepted, ends⟩ := exists_ok known
  obtain ⟨checked, runs⟩ := ((names_indifferent .crossed p).2 .dividend 20).2 q accepted
  exact ⟨p, read, q, accepted, checked, runs, ends, by rw [ends]; rfl⟩

end Plc

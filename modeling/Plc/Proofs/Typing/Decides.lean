import Plc.Proofs.Typing.Complete
import Plc.Proofs.Typing.Tables

/-!
Analysis decides the typing judgement, and what it notes in a tree is what the judgement says of it.
-/

namespace Plc

def Env.start : Env := ⟨⟨[], [(("print", 1), Typing.printSignature)]⟩, [⟨[], []⟩], none⟩

theorem Context.env_fresh : Context.fresh.env = Env.start := rfl

/-- The programs accepted are those that are derivable from the rules, whatever is in their slots.
The answer is the one tree of the same shape whose slots hold what the derivation says. -/
theorem check_iff_derivable : TablesHold ∧ ∀ p : Program,
    ((∃ q, p.check = .ok q) ↔ ∃ Δ, ProgramOk False Env.start p Δ) ∧
      ∀ q, p.check = .ok q ↔ q.erase = p.erase ∧ ∃ Δ, ProgramOk True Env.start q Δ := by
  refine ⟨tables_hold, fun p => ⟨⟨?_, ?_⟩, fun q => ⟨?_, ?_⟩⟩⟩
  · rintro ⟨q, accepted⟩
    obtain ⟨Δ, -, plain, -⟩ := check_sound accepted
    exact ⟨Δ, Context.env_fresh ▸ plain⟩
  · rintro ⟨Δ, derived⟩
    rw [← Context.env_fresh] at derived
    obtain ⟨q, d, done, -⟩ := Typing.program_complete rfl Context.formed_fresh derived
    exact ⟨q, by rw [Program.check, done]⟩
  · intro accepted
    obtain ⟨Δ, noted, -, erase⟩ := check_sound accepted
    exact ⟨erase, Δ, Context.env_fresh ▸ noted⟩
  · rintro ⟨erase, Δ, derived⟩
    rw [← Context.env_fresh] at derived
    obtain ⟨r, d, done, same⟩ := Typing.program_complete erase.symm Context.formed_fresh derived
    rw [Program.check, done, same trivial]

end Plc

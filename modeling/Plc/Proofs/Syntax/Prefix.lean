import Plc.Proofs.Syntax.Complete
import Plc.Proofs.Syntax.Lookahead

/-!
Where errors lie. The tokens in front of the one that an error names start some program, and with
that one there is none, whatever follows.
-/

namespace Plc

/-- The offset of the token at a place, or the end of all tokens behind the last one. -/
def Token.offsetAt (ts : List Token) (i : Nat) : Nat :=
  match ts[i]? with
  | some t => t.offset
  | none => (ts.getLast?.map Token.stop).getD 0

namespace Parser

open Grammar

theorem faultOffset_append (xs rest : List Token) :
    faultOffset (xs ++ rest) rest = Token.offsetAt (xs ++ rest) xs.length := by
  unfold Token.offsetAt
  cases rest with
  | nil =>
    rw [List.append_nil, List.getElem?_eq_none (Nat.le_refl _)]
    cases last : xs.getLast? <;> simp [faultOffset, last]
  | cons t rest => simp [faultOffset]

/-- Every depth above the number of tokens gives the same answer. -/
theorem program_deep {ts : List Token} {limit limit' : Nat} (deep : ts.length < limit)
    (deeper : limit ≤ limit') : program limit' ts = program limit ts := by
  obtain ⟨x, xs, rest, split, answer, same⟩ := agrees_program deep deeper ts (Nat.le_refl _)
  rw [answer, split]
  exact same rest rfl

/-- A fault in front of a token is the same with other tokens behind that one. -/
theorem program_fault {xs others : List Token} {t : Token} {rest : List Token} {cause : ParseError}
    {limit limit' : Nat} (deep : (xs ++ t :: rest).length < limit)
    (deeper : (xs ++ t :: others).length < limit')
    (fault : program limit (xs ++ t :: rest) = .error ⟨cause, t :: rest⟩) :
    program limit' (xs ++ t :: others) = .error ⟨cause, t :: others⟩ := by
  have top := Nat.le_max_left limit limit'
  obtain ⟨x, ys, left, split, answer, same⟩ := agrees_program deep top _ (Nat.le_refl _)
  rw [fault] at answer
  cases x with
  | ok p => cases answer
  | error _ =>
    cases answer
    obtain rfl := List.append_cancel_right split
    rw [← program_deep deeper (Nat.le_max_right limit limit')]
    exact same (t :: others) rfl

/-- The tokens of a fault are the last of those that were given. -/
theorem suffix_of_fault {ts rest : List Token} {cause : ParseError}
    (fault : program (ts.length + 1) ts = .error ⟨cause, rest⟩) : ∃ xs, ts = xs ++ rest := by
  have read := reads_program (Nat.lt_succ_self ts.length) ts (Nat.le_refl _)
  rw [fault] at read
  obtain ⟨xs, split, -⟩ := read
  exact ⟨xs, split⟩

end Parser

/-- Errors lie at the first token with which the tokens start no program. -/
theorem error_at_first (ts : List Token) (cause : ParseError) (offset : Nat)
    (failed : Program.ofTokens ts = .error (cause, offset)) :
    ∃ i ≤ ts.length, offset = Token.offsetAt ts i ∧
      (∃ more p, Program.ofTokens (ts.take i ++ more) = .ok p) ∧
      (i < ts.length → ∀ us : List Token, us.take (i + 1) = ts.take (i + 1) →
        Program.ofTokens us = .error (cause, offset)) := by
  have deep : ts.length < ts.length + 1 := Nat.lt_succ_self _
  unfold Program.ofTokens at failed
  cases answer : Parser.program (ts.length + 1) ts with
  | ok whole =>
    rw [answer] at failed
    cases failed
  | error fault =>
    rw [answer] at failed
    obtain ⟨cause, rest⟩ := fault
    cases failed
    have read := Parser.reads_program deep ts (Nat.le_refl _)
    rw [answer] at read
    obtain ⟨xs, rfl, more, p, derived⟩ := read
    refine ⟨xs.length, by simp, Parser.faultOffset_append xs rest, ⟨more, p, ?_⟩, ?_⟩
    · rw [List.take_left, Program.ofTokens, Parser.finds_program derived (Nat.lt_succ_self _)]
    · intro inside us same
      cases rest with
      | nil => simp at inside
      | cons t rest =>
        have start : us.take (xs.length + 1) = xs ++ [t] := by
          rw [same, List.take_length_add_append]
          simp
        obtain ⟨others, rfl⟩ : ∃ others, us = xs ++ t :: others :=
          ⟨us.drop (xs.length + 1), by
            conv => lhs; rw [← List.take_append_drop (xs.length + 1) us, start]
            simp⟩
        rw [Program.ofTokens, Parser.program_fault deep (Nat.lt_succ_self _) answer]
        simp [Parser.faultOffset]

def Token.missingValue : List Token :=
  [⟨.identifier, "VAR", 0⟩, ⟨.identifier, "x", 4⟩, ⟨.operator, "=", 6⟩, ⟨.operator, ";", 8⟩]

theorem error_at_first_missingValue :
    Program.ofTokens Token.missingValue = .error (.expected .expression, 8) ∧
      ∃ i ≤ Token.missingValue.length, 8 = Token.offsetAt Token.missingValue i ∧
        (∃ more p, Program.ofTokens (Token.missingValue.take i ++ more) = .ok p) ∧
        (i < Token.missingValue.length →
          ∀ us : List Token, us.take (i + 1) = Token.missingValue.take (i + 1) →
            Program.ofTokens us = .error (.expected .expression, 8)) :=
  ⟨rfl, error_at_first _ _ _ rfl⟩

end Plc

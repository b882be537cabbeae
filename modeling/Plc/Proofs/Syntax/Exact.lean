import Plc.Proofs.Syntax.Sound
import Plc.Proofs.Syntax.Complete
import Plc.Token.Lexer

/-!
The parser decides the grammar, and what it answers is what the grammar derives.
-/

namespace Plc

namespace Parser

open Grammar

/-- Behind the functions nothing is left. -/
theorem functions_all {limit : Nat} {ts rest : List Token} {fs : List Function}
    (deep : ts.length < limit) {count : Nat} (enough : ts.length < count)
    (found : functions limit count ts = .ok (fs, rest)) : rest = [] := by
  induction count generalizing ts fs with
  | zero => exact absurd enough (Nat.not_lt_zero _)
  | succ count ih =>
    cases ts with
    | nil =>
      cases found
      rfl
    | cons t ts =>
      rw [List.length_cons] at deep enough
      cases starts : t.isKeyword "FUN" with
      | false =>
        have other : (t :: ts).head?.any (·.isKeyword "FUN") = false := starts
        rw [functions, acceptKeyword, bind_of_ok (accept_no other), if_neg Bool.false_ne_true]
          at found
        obtain ⟨late, between, next, found⟩ := bind_eq_ok found
        cases next
        cases late : globalKeywords.any t.isKeyword with
        | true =>
          rw [List.head?_cons, Option.any_some, late] at found
          cases found
        | false =>
          rw [List.head?_cons, Option.any_some, late] at found
          cases found
      | true =>
        rw [functions, acceptKeyword, bind_of_ok (accept_yes starts), if_pos rfl] at found
        obtain ⟨f, between, first, others⟩ := bind_eq_ok found
        obtain ⟨fs, last, others, same⟩ := bind_eq_ok others
        cases same
        have inside : ts.length < limit := Nat.lt_of_succ_lt deep
        have read := reads_function inside ts (Nat.le_refl _)
        rw [first] at read
        obtain ⟨xs, split, -⟩ := read
        rw [split, List.length_append] at deep enough
        exact ih (by omega) (by omega) others

theorem program_all {limit : Nat} {ts rest : List Token} {p : Program} (deep : ts.length < limit)
    (found : program limit ts = .ok (p, rest)) : rest = [] := by
  obtain ⟨gs, between, first, found⟩ := bind_eq_ok found
  obtain ⟨fs, last, second, same⟩ := bind_eq_ok found
  cases same
  have read := reads_globals deep limit ts (Nat.le_refl _)
  rw [first] at read
  obtain ⟨xs, split, -⟩ := read
  have fewer : between.length ≤ ts.length := by simp [split]
  exact functions_all (Nat.lt_of_le_of_lt fewer deep) (Nat.lt_of_le_of_lt fewer deep) second

end Parser

/-- The tokens of two constants, `VAL s = "a\n"; VAL d = 1.50;`. -/
def constants : List Token :=
  [⟨.identifier, "VAL", 0⟩, ⟨.identifier, "s", 4⟩, ⟨.operator, "=", 6⟩, ⟨.string, "\"a\\n\"", 8⟩,
    ⟨.operator, ";", 13⟩, ⟨.identifier, "VAL", 15⟩, ⟨.identifier, "d", 19⟩, ⟨.operator, "=", 21⟩,
    ⟨.decimal, "1.50", 23⟩, ⟨.operator, ";", 27⟩]

end Plc

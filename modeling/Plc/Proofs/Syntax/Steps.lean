import Plc.Parser.Program
import Plc.Proofs.Syntax

/-!
Single steps of the parser as equations: what a sequence does with the tokens, when a test takes the
next one, when a block ends and which parser a statement goes to.
-/

namespace Plc

namespace Grammar

theorem startsWith_append_left {words : List String} {xs ys : List Token}
    (other : startsWith words (xs ++ ys) = false) : startsWith words xs = false := by
  cases xs with
  | nil => rfl
  | cons t xs => exact other

theorem startsWith_append {words : List String} {xs : List Token} (some : xs ≠ [])
    (ys : List Token) : startsWith words (xs ++ ys) = startsWith words xs := by
  cases xs with
  | nil => exact absurd rfl some
  | cons t xs => rfl

theorem ne_nil_of_stmt {xs : List Token} {s : Stmt} (derived : StmtOf xs s) : xs ≠ [] := by
  cases derived <;> simp

end Grammar

namespace Parser

open Grammar

variable {α β : Type}

theorem bind_eq (p : Parser α) (q : α → Parser β) (ts : List Token) :
    (p >>= q) ts = match p ts with
      | .ok (a, rest) => q a rest
      | .error fault => .error fault := by
  simp only [bind, StateT.bind, Except.bind]
  cases p ts <;> rfl

theorem bind_of_ok {p : Parser α} {q : α → Parser β} {ts rest : List Token} {a : α}
    (first : p ts = .ok (a, rest)) : (p >>= q) ts = q a rest := by
  rw [bind_eq, first]

theorem bind_eq_ok {p : Parser α} {q : α → Parser β} {ts rest : List Token} {b : β}
    (whole : (p >>= q) ts = .ok (b, rest)) :
    ∃ a between, p ts = .ok (a, between) ∧ q a between = .ok (b, rest) := by
  rw [bind_eq] at whole
  cases first : p ts with
  | error fault =>
    rw [first] at whole
    cases whole
  | ok found =>
    rw [first] at whole
    exact ⟨found.1, found.2, rfl, whole⟩

theorem isKeyword_other {t : Token} {text other : String} (holds : t.isKeyword text)
    (differ : text ≠ other) : t.isKeyword other = false := by
  simp only [Token.isKeyword, Bool.and_eq_true, beq_iff_eq] at holds
  simp [Token.isKeyword, holds, differ]

theorem accept_yes {test : Token → Bool} {t : Token} {ts : List Token} (holds : test t) :
    accept test (t :: ts) = .ok (true, ts) := by
  simp only [accept, holds, if_true]

theorem accept_no {test : Token → Bool} {ts : List Token} (none : ts.head?.any test = false) :
    accept test ts = .ok (false, ts) := by
  cases ts with
  | nil => rfl
  | cons t ts => simp only [accept, show test t = false from none, Bool.false_eq_true, if_false]

theorem gluedEquals_iff {t next : Token} :
    gluedEquals t next ↔ next.isOperator "=" ∧ next.offset = t.stop := by
  simp [gluedEquals]

theorem require_yes {test : Token → Bool} {what : Wanted} {t : Token} {ts : List Token}
    (holds : test t) : require test what (t :: ts) = .ok ((), ts) := by
  simp only [require, holds, if_true]

theorem requireName_yes {what : Wanted} {xs : List Token} {name : String} (named : NameOf xs name)
    (ts : List Token) : requireName what (xs ++ ts) = .ok (name, ts) := by
  cases named with
  | name word => simp [requireName, word]

def operatorReader : Layer → Parser (Option Operator)
  | .logical => logicalOperator
  | .comparing => comparingOperator
  | .adding => addingOperator
  | .multiplying => multiplyingOperator

theorem ofWord?_eq_none {text : String} :
    Literal.ofWord? text = none ↔ text ∉ literalWords := by
  unfold Literal.ofWord?
  split <;> simp_all [literalWords]

section

variable {limit : Nat} {statement : Parser Stmt} {words : List String}

theorem block_stop {ts : List Token} (stops : startsWith words ts = true) :
    block words statement (limit + 1) ts = .ok ([], ts) := by
  show (nextIs _ >>= _) ts = _
  simp only [bind_eq, nextIs, show ts.head?.any _ = true from stops, if_true]
  rfl

theorem block_more {t : Token} {ts : List Token} (goes : startsWith words (t :: ts) = false) :
    block words statement (limit + 1) (t :: ts) = (do
      let first ← statement
      let others ← block words statement limit
      pure (first :: others)) (t :: ts) := by
  show (nextIs _ >>= _) (t :: ts) = _
  rw [bind_eq]
  simp only [nextIs, show (t :: ts).head?.any _ = false from goes]
  rfl

end

section

variable {limit : Nat}

def statementAfter (limit : Nat) : String → Parser Stmt
  | "LET" => declaration (expression (limit + 1))
  | "IF" => conditional (limit + 1) (expression (limit + 1)) (statement limit)
  | "SWITCH" => switch (limit + 1) (expression (limit + 1)) (statement limit)
  | "WHILE" => loop (limit + 1) (expression (limit + 1)) (statement limit)
  | _ => returned (expression (limit + 1))

theorem statement_word (word : String) (known : word ∈ statementWords) {t : Token}
    (holds : t.isKeyword word) (ts : List Token) :
    statement (limit + 1) (t :: ts) = statementAfter limit word ts := by
  simp only [statement, acceptKeyword, bind_eq, accept]
  simp only [statementWords, List.mem_cons, List.not_mem_nil, or_false] at known
  have others : ∀ other, word ≠ other → t.isKeyword other = false :=
    fun other differ => isKeyword_other holds differ
  rcases known with rfl | rfl | rfl | rfl | rfl <;>
    simp [holds, others, accept, bind_eq, statementAfter]

theorem statement_other {ts : List Token} (other : startsWith statementWords ts = false) :
    statement (limit + 1) ts = assignmentOrExpression (expression (limit + 1)) ts := by
  have skip : ∀ word ∈ statementWords, ∀ q : Bool → Parser Stmt,
      (acceptKeyword word >>= q) ts = q false ts := by
    intro word known q
    have none : ts.head?.any (·.isKeyword word) = false := by
      cases ts with
      | nil => rfl
      | cons t ts => exact Bool.eq_false_iff.mpr (List.any_eq_false.mp other word known)
    rw [bind_eq, acceptKeyword, accept_no none]
  simp only [statement, skip "LET" (by decide), skip "IF" (by decide), skip "SWITCH" (by decide),
    skip "WHILE" (by decide), skip "RETURN" (by decide), Bool.false_eq_true, if_false]

end

end Parser

end Plc

import Plc.Proofs.Lexical.Blanks
import Plc.Proofs.Lexical.Exact

/-!
Texts with a blank between them. Reading has no memory: what is in front of a blank is read as if
the text ended there, and what is behind it as if the text began there, only that offsets count what
is in front.
-/

namespace Plc

def Token.shifted (n : Nat) (t : Token) : Token := { t with offset := t.offset + n }

namespace Lexical

open Lexer (tokensFrom)

def shifted (n : Nat) :
    Except (LexError × Nat) (List Token) → Except (LexError × Nat) (List Token)
  | .ok ts => .ok (ts.map (Token.shifted n))
  | .error (cause, offset) => .error (cause, offset + n)

variable {offset : Nat} {cs : List Char} {ts : List Token} {c : Char}

/-- Nothing but the offsets depends on where the text starts. -/
theorem tokensFrom_shifted (n offset skip : Nat) (cs : List Char) :
    tokensFrom (offset + n) skip cs = shifted n (tokensFrom offset skip cs) := by
  induction cs generalizing offset skip with
  | nil => rfl
  | cons c cs ih =>
    have next (skip : Nat) :
        tokensFrom (offset + n + 1) skip cs = shifted n (tokensFrom (offset + 1) skip cs) := by
      rw [Nat.add_right_comm, ih]
    cases skip with
    | succ skip => exact next skip
    | zero =>
      simp only [tokensFrom, next]
      split
      · rfl
      split
      · rw [shifted, Nat.add_right_comm]
      · next kind length _ => cases tokensFrom (offset + 1) (length - 1) cs <;> rfl

/-- In front of a blank a text is read as it is alone; then reading goes on behind the blank. -/
theorem tokensFrom_joined (reading : Reading offset cs ts) (blank : c ∈ blanks)
    (after : List Char) : tokensFrom offset 0 (cs ++ c :: after) =
      (tokensFrom (offset + (cs.length + 1)) 0 after).map (ts ++ ·) := by
  induction reading with
  | @nil offset =>
    rw [List.nil_append, tokensFrom_blank blank]
    cases tokensFrom (offset + 1) 0 after <;> rfl
  | @blank offset d cs ts first others ih =>
    have place : offset + 1 + (cs.length + 1) = offset + ((d :: cs).length + 1) := by
      rw [List.length_cons]
      omega
    rw [List.cons_append, tokensFrom_blank first, ih, place]
  | @token offset kind text cs ts longest clean others ih =>
    have filled : text ++ cs ≠ [] := fun none => by
      have long := length_pos_of_lexeme longest.lexeme
      rw [(List.append_eq_nil_iff.mp none).1] at long
      cases long
    have place : offset + text.length + (cs.length + 1) = offset + ((text ++ cs).length + 1) := by
      rw [List.length_append]
      omega
    have longest' := longest_at_blank longest blank after
    have clean' := clean_at_blank filled clean blank after
    rw [List.append_assoc] at longest' clean' ⊢
    rw [tokensFrom_longest longest' clean', ih, place]
    cases tokensFrom (offset + ((text ++ cs).length + 1)) 0 after <;> rfl

theorem reading_of_ofSource {source : String} (read : Token.ofSource source = .ok ts) :
    Reading 0 source.toList ts :=
  tiling_iff_reading.mp (Token.ofSource_eq_ok_iff.mp read)

end Lexical

open Lexical

/-- A text that can be read, a blank and any other text: the tokens of the first and then those of
the other, or the error of the other, as far behind the blank as it is in the other text. -/
theorem ofSource_joined (source other : String) (ts : List Token) (c : Char)
    (read : Token.ofSource source = .ok ts) (blank : c ∈ blanks) :
    Token.ofSource (source.push c ++ other) =
      match Token.ofSource other with
      | .ok us => .ok (ts ++ us.map (Token.shifted (source.length + 1)))
      | .error (cause, offset) => .error (cause, offset + (source.length + 1)) := by
  have text : (source.push c ++ other).toList = source.toList ++ c :: other.toList := by simp
  have behind := tokensFrom_shifted (source.length + 1) 0 0 other.toList
  rw [Token.ofSource, text, tokensFrom_joined (reading_of_ofSource read) blank,
    String.length_toList, behind, Token.ofSource]
  cases Lexer.tokensFrom 0 0 other.toList <;> rfl

/-- Without the line feed the first texts are one decimal. -/
theorem ofSource_joined_decimal :
    Token.ofSource "-0" = .ok [⟨.operator, "-", 0⟩, ⟨.integer, "0", 1⟩] ∧ '\n' ∈ blanks ∧
      Token.ofSource ("-0".push '\n' ++ ".5") =
        .ok [⟨.operator, "-", 0⟩, ⟨.integer, "0", 1⟩, ⟨.operator, ".", 3⟩, ⟨.integer, "5", 4⟩] ∧
      Token.ofSource ("-0".push '\n' ++ ".5 'a") = .error (.unterminatedCharacter, 8) := by
  have read : Token.ofSource "-0" = .ok [⟨.operator, "-", 0⟩, ⟨.integer, "0", 1⟩] := by rfl
  have blank : '\n' ∈ blanks := by simp [blanks]
  refine ⟨read, blank, ?_, ?_⟩
  · rw [ofSource_joined "-0" ".5" _ '\n' read blank]
    rfl
  · rw [ofSource_joined "-0" ".5 'a" _ '\n' read blank]
    rfl

end Plc

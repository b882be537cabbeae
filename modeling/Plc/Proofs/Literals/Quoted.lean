import Plc.Outcome
import Plc.Proofs.Syntax.Faults

/-!
Text between quotes is read back as it was written, and whatever the reader of tokens takes for a
literal is one for the parser too.
-/

namespace Plc

/-- A string between its quotes, each character written in one of its ways. -/
theorem readsAs_string {s : String} {pieces : List (List Char)}
    (spelled : List.Forall₂ (Spells '"') s.toList pieces) :
    ReadsAs (String.ofList ('"' :: (pieces.flatten ++ ['"']))) .string (.string s) :=
  readsAs_of_lexeme (.string (pieces_of_spelled spelled)) (literalOf_string (means_spelled spelled))

theorem readsAs_character {c : Char} {piece : List Char} (spells : Spells '\'' c piece) :
    ReadsAs (String.ofList ('\'' :: (piece ++ ['\'']))) .character (.character c) :=
  readsAs_of_lexeme (.character (piece_of_spells spells)) (literalOf_character spells)

/-- No error of a source text is about how a literal is written. -/
theorem Source.parse_honest {source : String} {cause : ParseError} {offset : Nat}
    (failed : Source.parse source = .error (.parse cause offset)) :
    Parser.literalCause cause = false := by
  cases read : Token.ofSource source with
  | error found =>
    simp only [Source.parse, Source.tokens, read] at failed
    cases failed
  | ok ts =>
    rw [Source.parse_of_tokens read] at failed
    cases answer : Program.ofTokens ts with
    | ok p =>
      rw [answer] at failed
      cases failed
    | error found =>
      rw [answer] at failed
      cases failed
      exact Program.ofTokens_honest (fun t member => literalOf_token read member) answer

/-- Quoted text is read as what it spells, each token of a literal's kind is accepted as a literal
where an expression may start, and no source text has a literal that is not well written. -/
theorem literals_agree :
    (∀ (s : String) (pieces : List (List Char)), List.Forall₂ (Spells '"') s.toList pieces →
      ReadsAs (String.ofList ('"' :: (pieces.flatten ++ ['"']))) .string (.string s)) ∧
    (∀ (c : Char) (piece : List Char), Spells '\'' c piece →
      ReadsAs (String.ofList ('\'' :: (piece ++ ['\'']))) .character (.character c)) ∧
    (∀ (source : String) (ts : List Token), Token.ofSource source = .ok ts →
      ∀ t ∈ ts, t.kind ∈ Token.literalKinds → ∃ value, ∀ limit nested rest,
        Parser.primary limit nested (t :: rest) = .ok (.literal value none, rest)) ∧
    ∀ (source : String) (offset : Nat),
      (∀ text, Source.parse source ≠ .error (.parse (.invalidInteger text) offset)) ∧
      (∀ text, Source.parse source ≠ .error (.parse (.invalidDecimal text) offset)) ∧
      Source.parse source ≠ .error (.parse .invalidCharacter offset) := by
  refine ⟨fun s pieces => readsAs_string, fun c piece => readsAs_character, ?_, ?_⟩
  · intro source ts read t member known
    obtain ⟨value, denotes⟩ := literalOf_token read member known
    exact ⟨value, fun limit nested rest => Parser.primary_literal denotes rest⟩
  · intro source offset
    refine ⟨fun text failed => ?_, fun text failed => ?_, fun failed => ?_⟩
    · cases Source.parse_honest failed
    · cases Source.parse_honest failed
    · cases Source.parse_honest failed

/-- A string that ends in an escaped quote and an escaped backslash, and an escaped apostrophe. -/
theorem literals_agree_escaped :
    ReadsAs "\"a\\\"\\\\\"" .string (.string "a\"\\") ∧
      ReadsAs "'\\''" .character (.character '\'') ∧
      Token.ofSource "-0.50" = .ok [⟨.decimal, "-0.50", 0⟩] ∧
      (∃ value, ∀ limit nested rest, Parser.primary limit nested (⟨.decimal, "-0.50", 0⟩ :: rest) =
        .ok (.literal value none, rest)) ∧
      ∀ text, Source.parse "VAR x = 1;" ≠ .error (.parse (.invalidInteger text) 8) := by
  obtain ⟨strings, characters, tokens, sources⟩ := literals_agree
  have spelled : List.Forall₂ (Spells '"') "a\"\\".toList [['a'], ['\\', '"'], ['\\', '\\']] :=
    .cons (.raw (by decide)) (.cons (.escape .mark) (.cons (.escape .backslash) .nil))
  have read : Token.ofSource "-0.50" = .ok [⟨.decimal, "-0.50", 0⟩] := by decide +kernel
  constructor
  · exact strings _ _ spelled
  constructor
  · exact characters _ _ (.escape .apostrophe)
  constructor
  · exact read
  constructor
  · exact tokens _ _ read _ List.mem_cons_self (by decide)
  · exact (sources "VAR x = 1;" 8).1

end Plc

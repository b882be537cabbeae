import Plc.Proofs.Lexical.Tiling

/-!
Blanks and lexemes. Only literals between quotes have blanks in them, and no lexeme has a line
break. So a blank ends what is in front of it, as the end of the text does, and no lexeme gets
longer for what comes behind it.
-/

namespace Plc.Lexical

variable {kind : Token.Kind} {text cs : List Char} {c : Char}

theorem solid_of_digit (digit : c.isDigit = true) : c ∉ blanks :=
  solid_of_start (show StartOf .integer c from .inr digit)

theorem solid_of_digits (digits : Digits cs) : ∀ c ∈ cs, c ∉ blanks :=
  fun c member => solid_of_digit (digits c member)

theorem solid_of_sign (signed : Sign cs) : ∀ c ∈ cs, c ∉ blanks := by
  rcases signed with rfl | rfl <;> simp [blanks]

theorem solid_of_wordPart (part : c.isAlphanum = true ∨ c = '_' ∨ c = '-') : c ∉ blanks := by
  intro blank
  simp only [blanks, List.mem_cons, List.not_mem_nil, or_false] at blank
  rcases blank with rfl | rfl | rfl | rfl | rfl | rfl <;> simp at part

/-- What is not between quotes has no blank in it. -/
theorem solid_of_lexeme (lexeme : Lexeme kind text) (bare : kind ≠ .character ∧ kind ≠ .string) :
    ∀ c ∈ text, c ∉ blanks := by
  cases lexeme with
  | identifier first others =>
    refine List.forall_mem_cons.mpr ⟨?_, fun d member => solid_of_wordPart (others d member)⟩
    exact solid_of_start (show StartOf .identifier _ from first)
  | zero => simp [blanks]
  | integer signed counting =>
    exact List.forall_mem_append.mpr
      ⟨solid_of_sign signed, solid_of_digits (digits_of_counting counting)⟩
  | decimal signed before some behind =>
    refine List.forall_mem_append.mpr ⟨solid_of_sign signed, List.forall_mem_append.mpr
      ⟨solid_of_digits (digits_of_whole before), List.forall_mem_cons.mpr ⟨by simp [blanks], ?_⟩⟩⟩
    exact solid_of_digits behind
  | character inner => exact absurd rfl bare.1
  | string inner => exact absurd rfl bare.2
  | pair known =>
    simp only [operatorPairs, List.mem_cons, List.not_mem_nil, or_false] at known
    rcases known with rfl | rfl | rfl | rfl <;> simp [blanks]
  | single solid unquoted start letter digit => simpa using solid

theorem isLineBreak_iff : isLineBreak c = true ↔ c = '\n' ∨ c = '\r' := by
  simp [isLineBreak]

theorem blank_of_lineBreak (breaks : isLineBreak c = true) : c ∈ blanks := by
  rcases isLineBreak_iff.mp breaks with rfl | rfl <;> simp [blanks]

theorem plain_of_piece {quote : Char} (inner : Piece quote text) :
    ∀ c ∈ text, isLineBreak c = false := by
  cases inner with
  | @plain c other =>
    simp only [List.mem_cons, List.not_mem_nil, or_false, not_or] at other
    simpa [isLineBreak] using ⟨other.2.2.1, other.2.2.2⟩
  | @escape c letter =>
    simp only [escapeLetters, List.mem_cons, List.not_mem_nil, or_false] at letter
    rcases letter with rfl | rfl | rfl | rfl | rfl | rfl | rfl <;> simp [isLineBreak]

theorem plain_of_pieces {quote : Char} (inner : Pieces quote text) :
    ∀ c ∈ text, isLineBreak c = false := by
  induction inner with
  | nil => simp
  | cons first others ih => exact List.forall_mem_append.mpr ⟨plain_of_piece first, ih⟩

theorem plain_of_lexeme (lexeme : Lexeme kind text) : ∀ c ∈ text, isLineBreak c = false := by
  by_cases bare : kind ≠ .character ∧ kind ≠ .string
  · intro c member
    refine Bool.eq_false_iff.mpr fun breaks => ?_
    exact solid_of_lexeme lexeme bare c member (blank_of_lineBreak breaks)
  · cases lexeme with
    | character inner =>
      refine List.forall_mem_cons.mpr ⟨rfl, List.forall_mem_append.mpr ⟨plain_of_piece inner, ?_⟩⟩
      simp [isLineBreak]
    | string inner =>
      refine List.forall_mem_cons.mpr ⟨rfl, List.forall_mem_append.mpr ⟨plain_of_pieces inner, ?_⟩⟩
      simp [isLineBreak]
    | _ => simp at bare

/-- A lexeme that goes on behind a blank is a literal, and a literal ends at its quote. -/
theorem longest_at_blank (longest : Longest cs kind text) (blank : c ∈ blanks)
    (after : List Char) : Longest (cs ++ c :: after) kind text := by
  have start : text <+: cs ++ c :: after := longest.start.trans (List.prefix_append cs _)
  refine ⟨start, longest.lexeme, fun other more start' lexeme => ?_⟩
  by_cases short : more <+: cs
  · exact longest.longest other more short lexeme
  have inside : c ∈ more := by
    have cut : cs ++ [c] <+: cs ++ c :: after := ⟨after, by simp⟩
    rcases List.prefix_or_prefix_of_prefix start' cut with ends | goesOn
    · rcases List.prefix_concat_iff.mp ends with rfl | short'
      · simp
      · exact absurd short' short
    · exact goesOn.subset (by simp)
  have quoted : ¬ (other ≠ .character ∧ other ≠ .string) :=
    fun bare => solid_of_lexeme lexeme bare c inside blank
  generalize cs ++ c :: after = whole at start start'
  cases lexeme with
  | character inner =>
    obtain ⟨rest, rfl⟩ := start'
    have one := character_of_lexeme longest.lexeme start
    rw [character_of_lexeme (.character inner) (List.prefix_append _ rest)] at one
    exact Nat.le_of_eq (Except.ok.inj one)
  | string inner =>
    obtain ⟨rest, rfl⟩ := start'
    have one := string_of_lexeme longest.lexeme start
    rw [string_of_lexeme (.string inner) (List.prefix_append _ rest)] at one
    exact Nat.le_of_eq (Except.ok.inj one)
  | _ => simp at quoted

theorem clean_at_blank (filled : cs ≠ []) (clean : ¬ LeadingZeros cs) (blank : c ∈ blanks)
    (after : List Char) : ¬ LeadingZeros (cs ++ c :: after) := by
  rintro ⟨d, ds, split, digit⟩
  cases cs with
  | nil => exact filled rfl
  | cons first more =>
    cases more with
    | nil =>
      cases split
      exact solid_of_digit digit blank
    | cons second more =>
      cases split
      exact clean ⟨_, _, rfl, digit⟩

end Plc.Lexical

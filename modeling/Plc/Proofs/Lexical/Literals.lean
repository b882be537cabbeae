import Plc.Proofs.Lexical

/-!
Character and string literals: the scans follow the pieces of a body up to the first place where no
piece goes on, which is a closing quote, the end of a line or a backslash that escapes nothing.
-/

namespace Plc.Lexical

inductive Stuck (q : Char) : List Char → Prop where
  | ends {cs : List Char} (line : EndsLine cs) : Stuck q cs
  | quote {cs : List Char} : Stuck q (q :: cs)
  | escape {cs : List Char} (bad : NoEscape cs) : Stuck q ('\\' :: cs)

variable {q : Char}

theorem isLetter_iff (c : Char) : Escape.isLetter c = true ↔ c ∈ escapeLetters := by
  simp [Escape.isLetter, Escape.table, List.lookup_isSome_iff, escapeLetters]

theorem piece_or_stuck (q : Char) (cs : List Char) :
    Stuck q cs ∨ ∃ piece rest, Piece q piece ∧ cs = piece ++ rest := by
  cases cs with
  | nil => exact .inl (.ends (by simp [EndsLine]))
  | cons c cs =>
    by_cases quote : c = q
    · subst quote
      exact .inl .quote
    by_cases line : c = '\n' ∨ c = '\r'
    · exact .inl (.ends (by simpa [EndsLine] using line))
    by_cases slash : c = '\\'
    · subst slash
      by_cases bad : NoEscape cs
      · exact .inl (.escape bad)
      · simp only [NoEscape, Classical.not_forall, Classical.not_not] at bad
        obtain ⟨d, head, letter⟩ := bad
        obtain ⟨more, rfl⟩ := List.head?_eq_some_iff.mp head
        exact .inr ⟨['\\', d], more, .escape letter, rfl⟩
    · refine .inr ⟨[c], cs, .plain ?_, rfl⟩
      simpa [quote, slash] using line

theorem pieces_split (q : Char) (cs : List Char) :
    ∃ body after, cs = body ++ after ∧ Pieces q body ∧ Stuck q after := by
  rcases piece_or_stuck q cs with stuck | ⟨piece, rest, inner, split⟩
  · exact ⟨[], cs, rfl, .nil, stuck⟩
  · have filled : 0 < piece.length := by cases inner <;> exact Nat.succ_pos _
    have shorter : rest.length < cs.length := by
      rw [split, List.length_append]
      omega
    obtain ⟨body, after, rfl, others, stuck⟩ := pieces_split q rest
    exact ⟨piece ++ body, after, by rw [split, List.append_assoc], .cons inner others, stuck⟩
termination_by cs.length

theorem plain_other {c : Char} (other : c ∉ [q, '\\', '\n', '\r']) :
    c ≠ q ∧ c ≠ '\\' ∧ isLineBreak c = false := by
  simp only [List.mem_cons, List.not_mem_nil, or_false, not_or] at other
  obtain ⟨quote, slash, feed, back⟩ := other
  exact ⟨quote, slash, by simp [isLineBreak, feed, back]⟩

theorem noEscape_cons {c : Char} {cs : List Char} (bad : NoEscape (c :: cs)) :
    Escape.isLetter c = false :=
  Bool.eq_false_iff.mpr fun letter => bad c rfl ((isLetter_iff c).mp letter)

theorem string_piece {piece rest : List Char} (inner : Piece '"' piece) (length : Nat) :
    Lexer.string length (piece ++ rest) = Lexer.string (length + piece.length) rest := by
  cases inner with
  | @plain c other =>
    obtain ⟨quote, slash, inside⟩ := plain_other other
    rw [List.singleton_append, Lexer.string]
    · simp [inside]
    · exact quote
    · rintro rfl
      exact absurd rfl slash
    · rintro _ _ rfl
      exact absurd rfl slash
  | @escape c letter =>
    simp [Lexer.string, (isLetter_iff c).mpr letter]

/-- The scan of a string passes over the pieces of its body. -/
theorem string_pieces {body : List Char} (inner : Pieces '"' body) (length : Nat)
    (after : List Char) :
    Lexer.string length (body ++ after) = Lexer.string (length + body.length) after := by
  induction inner generalizing length with
  | nil => rfl
  | @cons piece body first others ih =>
    rw [List.append_assoc, string_piece first, ih, List.length_append, Nat.add_assoc]

theorem string_ends {after : List Char} (line : EndsLine after) (length : Nat) :
    Lexer.string length after = .error (.unterminatedString, length) := by
  cases after with
  | nil => rfl
  | cons c cs => rcases line c rfl with rfl | rfl <;> simp [Lexer.string, isLineBreak]

theorem string_escape {more : List Char} (bad : NoEscape more) (length : Nat) :
    Lexer.string length ('\\' :: more) = .error (.invalidEscape more.head?, length) := by
  cases more with
  | nil => simp [Lexer.string]
  | cons c cs => simp [Lexer.string, noEscape_cons bad]

theorem character_piece {piece rest : List Char} (inner : Piece '\'' piece) :
    Lexer.character (piece ++ rest) = Lexer.closingQuote (1 + piece.length) rest := by
  cases inner with
  | @plain c other =>
    obtain ⟨quote, slash, inside⟩ := plain_other other
    rw [List.singleton_append, Lexer.character]
    · simp [inside]
    · exact quote
    · rintro rfl
      exact absurd rfl slash
    · rintro _ _ rfl
      exact absurd rfl slash
  | @escape c letter =>
    simp [Lexer.character, (isLetter_iff c).mpr letter]

theorem character_ends {after : List Char} (line : EndsLine after) :
    Lexer.character after = .error (.unterminatedCharacter, 1) := by
  cases after with
  | nil => rfl
  | cons c cs => rcases line c rfl with rfl | rfl <;> simp [Lexer.character, isLineBreak]

theorem character_escape {more : List Char} (bad : NoEscape more) :
    Lexer.character ('\\' :: more) = .error (.invalidEscape more.head?, 1) := by
  cases more with
  | nil => simp [Lexer.character]
  | cons c cs => simp [Lexer.character, noEscape_cons bad]

theorem closingQuote_other {rest : List Char} (other : rest.head? ≠ some '\'') (length : Nat) :
    Lexer.closingQuote length rest = .error (.unterminatedCharacter, length) := by
  unfold Lexer.closingQuote
  split
  · exact absurd rfl other
  · rfl

end Plc.Lexical

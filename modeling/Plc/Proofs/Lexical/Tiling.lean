import Plc.Proofs.Lexical.Lexemes

/-!
Token after token: a text is read as blanks and longest lexemes, up to its end or to the first place
where no lexeme starts. What is read before such a place is read in the same way alone, because no
lexeme gets longer where the text is shorter.
-/

namespace Plc.Lexical

open Lexer (tokensFrom)

inductive Reading : Nat → List Char → List Token → Prop where
  | nil {offset : Nat} : Reading offset [] []
  | blank {offset : Nat} {c : Char} {cs : List Char} {ts : List Token} (blank : c ∈ blanks)
      (others : Reading (offset + 1) cs ts) : Reading offset (c :: cs) ts
  | token {offset : Nat} {kind : Token.Kind} {text cs : List Char} {ts : List Token}
      (longest : Longest (text ++ cs) kind text) (clean : ¬ LeadingZeros (text ++ cs))
      (others : Reading (offset + text.length) cs ts) :
      Reading offset (text ++ cs) (⟨kind, String.ofList text, offset⟩ :: ts)

variable {offset : Nat} {kind : Token.Kind} {text cs : List Char} {ts : List Token} {c : Char}

/-- The characters of a token already read are passed over. -/
theorem tokensFrom_skip (offset skip : Nat) (cs : List Char) :
    tokensFrom offset skip cs = tokensFrom (offset + skip) 0 (cs.drop skip) := by
  induction cs generalizing offset skip with
  | nil => simp [tokensFrom]
  | cons c cs ih =>
    cases skip with
    | zero => rfl
    | succ skip =>
      rw [tokensFrom, ih, List.drop_succ_cons, Nat.add_right_comm, Nat.add_assoc]

theorem tokensFrom_blank (blank : c ∈ blanks) :
    tokensFrom offset 0 (c :: cs) = tokensFrom (offset + 1) 0 cs := by
  rw [tokensFrom, if_pos ((isBlank_iff c).mpr blank)]

theorem tokensFrom_error {cause : LexError} {inside : Nat} (solid : c ∉ blanks)
    (answer : Lexer.lexeme (c :: cs) = .error (cause, inside)) :
    tokensFrom offset 0 (c :: cs) = .error (cause, offset + inside) := by
  rw [tokensFrom, if_neg (mt (isBlank_iff c).mp solid), answer]

theorem tokensFrom_token (lexeme : Lexeme kind text)
    (answer : Lexer.lexeme (text ++ cs) = .ok (kind, text.length)) :
    tokensFrom offset 0 (text ++ cs) =
      (tokensFrom (offset + text.length) 0 cs).map (⟨kind, String.ofList text, offset⟩ :: ·) := by
  obtain ⟨c, more, rfl, start⟩ := start_of_lexeme lexeme
  have behind : tokensFrom (offset + 1) ((c :: more).length - 1) (more ++ cs) =
      tokensFrom (offset + (c :: more).length) 0 cs := by
    rw [tokensFrom_skip, List.length_cons, Nat.add_sub_cancel, List.drop_left, Nat.add_assoc,
      Nat.add_comm 1]
  rw [List.cons_append] at answer ⊢
  rw [tokensFrom, if_neg (mt (isBlank_iff c).mp (solid_of_start start)), answer]
  simp only [behind]
  cases tokensFrom (offset + (c :: more).length) 0 cs with
  | error e => rfl
  | ok rest => simp [Except.map]

theorem longest_of_cut {before after : List Char}
    (longest : Longest (text ++ (before ++ after)) kind text) :
    Longest (text ++ before) kind text := by
  have cut : text ++ before <+: text ++ (before ++ after) := ⟨after, List.append_assoc ..⟩
  constructor
  · exact List.prefix_append text before
  · exact longest.lexeme
  · intro other more start lexeme
    exact longest.longest other more (start.trans cut) lexeme

theorem leadingZeros_of_cut {before after : List Char} (zeros : LeadingZeros before) :
    LeadingZeros (before ++ after) := by
  obtain ⟨d, ds, rfl, digit⟩ := zeros
  exact ⟨d, ds ++ after, rfl, digit⟩

/-- What reading comes to: tokens for the whole text, or for what is before the place where it goes
wrong. -/
inductive Answered (offset : Nat) : List Char → Except (LexError × Nat) (List Token) → Prop where
  | all {cs : List Char} {ts : List Token} (reading : Reading offset cs ts) :
      Answered offset cs (.ok ts)
  | part {before after : List Char} {ts : List Token} {cause : LexError} {inside : Nat}
      (reading : Reading offset before ts) (malformed : Malformed after cause inside)
      (reason : LeadingZeros after ∨ OpensNothing after) :
      Answered offset (before ++ after) (.error (cause, offset + before.length + inside))

theorem answered_blank {answer : Except (LexError × Nat) (List Token)} (blank : c ∈ blanks)
    (others : Answered (offset + 1) cs answer) : Answered offset (c :: cs) answer := by
  cases others with
  | all reading => exact .all (.blank blank reading)
  | @part before after ts cause inside reading malformed reason =>
    have whole := Answered.part (.blank blank reading) malformed reason
    rwa [List.length_cons, Nat.add_comm before.length, ← Nat.add_assoc offset] at whole

theorem answered_token {answer : Except (LexError × Nat) (List Token)}
    (longest : Longest (text ++ cs) kind text) (clean : ¬ LeadingZeros (text ++ cs))
    (others : Answered (offset + text.length) cs answer) :
    Answered offset (text ++ cs) (answer.map (⟨kind, String.ofList text, offset⟩ :: ·)) := by
  cases others with
  | all reading => exact .all (.token longest clean reading)
  | @part before after ts cause inside reading malformed reason =>
    have alone : ¬ LeadingZeros (text ++ before) := by
      intro zeros
      rw [← List.append_assoc] at clean
      exact clean (leadingZeros_of_cut zeros)
    have whole := Answered.part (.token (longest_of_cut longest) alone reading) malformed reason
    rwa [List.append_assoc, List.length_append, ← Nat.add_assoc offset] at whole

/-- The induction is on the length of the text, since a token takes many characters at once. -/
theorem tokensFrom_answered (offset : Nat) (cs : List Char) :
    Answered offset cs (tokensFrom offset 0 cs) := by
  cases cs with
  | nil => exact .all .nil
  | cons c cs =>
    by_cases blank : c ∈ blanks
    · rw [tokensFrom_blank blank]
      exact answered_blank blank (tokensFrom_answered (offset + 1) cs)
    have scanned := lexeme_scanned blank cs
    generalize answer : Lexer.lexeme (c :: cs) = scan at scanned
    cases scanned with
    | wrong malformed reason =>
      rw [tokensFrom_error blank answer]
      exact .part .nil malformed reason
    | @found kind text longest clean =>
      obtain ⟨rest, split⟩ := longest.start
      have shorter : rest.length < (c :: cs).length := by
        have filled := length_pos_of_lexeme longest.lexeme
        rw [← split, List.length_append]
        omega
      rw [← split] at answer longest clean ⊢
      rw [tokensFrom_token longest.lexeme answer]
      exact answered_token longest clean (tokensFrom_answered (offset + text.length) rest)
termination_by cs.length
decreasing_by
  · exact Nat.lt_succ_self _
  · exact shorter

/-- The scan takes the longest lexeme there is. -/
theorem tokensFrom_longest (longest : Longest (text ++ cs) kind text)
    (clean : ¬ LeadingZeros (text ++ cs)) : tokensFrom offset 0 (text ++ cs) =
      (tokensFrom (offset + text.length) 0 cs).map (⟨kind, String.ofList text, offset⟩ :: ·) := by
  obtain ⟨c, more, rfl, start⟩ := start_of_lexeme longest.lexeme
  have scanned := lexeme_scanned (solid_of_start start) (more ++ cs)
  generalize answer : Lexer.lexeme (c :: (more ++ cs)) = scan at scanned
  cases scanned with
  | wrong malformed reason =>
    rcases reason with zeros | ⟨quote, -, -, nothing⟩
    · exact absurd zeros clean
    · exact absurd longest.lexeme (nothing kind (c :: more) longest.start)
  | found other clean =>
    obtain ⟨rfl, rfl⟩ := longest_unique other longest
    exact tokensFrom_token longest.lexeme answer

/-- A text of blanks and longest lexemes has these as its tokens. -/
theorem tokensFrom_of_reading (reading : Reading offset cs ts) :
    tokensFrom offset 0 cs = .ok ts := by
  induction reading with
  | nil => rfl
  | blank blank others ih => rw [tokensFrom_blank blank, ih]
  | token longest clean others ih =>
    rw [tokensFrom_longest longest clean, ih]
    rfl

theorem inside_of_malformed {cause : LexError} {inside : Nat}
    (malformed : Malformed cs cause inside) : inside ≤ cs.length := by
  cases malformed <;> simp <;> omega

end Plc.Lexical

import Plc.Proofs.Lexical.Literals
import Plc.Proofs.Lexical.Numbers

/-!
One lexeme: the scan finds the longest there is, or tells in what way the text goes wrong. That a
scan finds nothing where it fails is shown the other way about: a lexeme would have made it succeed.
-/

namespace Plc.Lexical

inductive Scanned (cs : List Char) : Lexer.Scan (Token.Kind × Nat) → Prop where
  | found {kind : Token.Kind} {text : List Char} (longest : Longest cs kind text)
      (clean : ¬ LeadingZeros cs) : Scanned cs (.ok (kind, text.length))
  | wrong {cause : LexError} {inside : Nat} (malformed : Malformed cs cause inside)
      (reason : LeadingZeros cs ∨ OpensNothing cs) : Scanned cs (.error (cause, inside))

variable {kind : Token.Kind} {text cs : List Char} {c : Char}

theorem isBlank_iff (c : Char) : Lexer.isBlank c = true ↔ c ∈ blanks := by
  simp [Lexer.isBlank, blanks, or_assoc]

theorem not_leadingZeros (other : c ≠ '0') : ¬ LeadingZeros (c :: cs) := by
  rintro ⟨d, ds, split, -⟩
  exact other (List.cons.inj split).1

theorem isWordStart_iff (c : Char) : Lexer.isWordStart c = true ↔ c = '@' ∨ c.isAlpha = true := by
  simp [Lexer.isWordStart]

theorem isWordPart_iff (c : Char) :
    Lexer.isWordPart c = true ↔ c.isAlphanum = true ∨ c = '_' ∨ c = '-' := by
  simp [Lexer.isWordPart, or_assoc]

theorem kind_of_wordStart (start : StartOf kind c) (word : Lexer.isWordStart c = true) :
    kind = .identifier := by
  rw [isWordStart_iff] at word
  cases kind with
  | identifier => rfl
  | integer | decimal =>
    rcases word with rfl | letter
    · simp [StartOf] at start
    · rcases start with rfl | digit
      · cases letter
      · rw [isAlpha_of_isDigit digit] at letter
        cases letter
  | character | string =>
    cases start
    simp at word
  | operator =>
    obtain ⟨-, -, noAt, noLetter, -⟩ := start
    rcases word with same | letter
    · exact absurd same noAt
    · rw [noLetter] at letter
      cases letter

theorem word_longest (first : Lexer.isWordStart c = true) :
    Longest (c :: cs) .identifier (c :: cs.takeWhile Lexer.isWordPart) := by
  constructor
  · exact List.cons_prefix_cons.mpr ⟨rfl, List.takeWhile_prefix _⟩
  · refine .identifier ((isWordStart_iff c).mp first) fun d member => ?_
    exact (isWordPart_iff d).mp (List.all_eq_true.mp List.all_takeWhile d member)
  · intro other more start lexeme
    cases kind_of_wordStart (start_at_head lexeme start) first
    cases lexeme with
    | @identifier d ds letter others =>
      have parts : ∀ d ∈ ds, Lexer.isWordPart d = true :=
        fun d member => (isWordPart_iff d).mpr (others d member)
      have behind := (List.cons_prefix_cons.mp start).2
      rw [← @List.takeWhile_append_dropWhile _ Lexer.isWordPart cs] at behind
      exact Nat.succ_le_succ (length_le_of_run parts (apart_dropWhile _ cs) behind)

theorem kind_of_quote (start : StartOf kind c) (quote : c ∈ quotes) :
    kind = .character ∧ c = '\'' ∨ kind = .string ∧ c = '"' := by
  cases kind with
  | character => exact .inl ⟨rfl, start⟩
  | string => exact .inr ⟨rfl, start⟩
  | operator => exact absurd quote start.2.1
  | identifier | integer | decimal =>
    simp only [quotes, List.mem_cons, List.not_mem_nil, or_false] at quote
    rcases quote with rfl | rfl <;> simp [StartOf] at start

/-- Any lexeme that an apostrophe starts is what the scan finds. -/
theorem character_of_lexeme (lexeme : Lexeme kind text) (start : text <+: '\'' :: cs) :
    Lexer.character cs = .ok text.length := by
  rcases kind_of_quote (start_at_head lexeme start) (by simp [quotes]) with ⟨rfl, -⟩ | ⟨-, same⟩
  · cases lexeme with
    | @character piece inner =>
      obtain ⟨rest, split⟩ := (List.cons_prefix_cons.mp start).2
      rw [← split, List.append_assoc, character_piece inner]
      simp [Lexer.closingQuote]
      omega
  · cases same

/-- Any lexeme that a quotation mark starts is what the scan finds. -/
theorem string_of_lexeme (lexeme : Lexeme kind text) (start : text <+: '"' :: cs) :
    Lexer.string 1 cs = .ok text.length := by
  rcases kind_of_quote (start_at_head lexeme start) (by simp [quotes]) with ⟨-, same⟩ | ⟨rfl, -⟩
  · cases same
  · cases lexeme with
    | @string body inner =>
      obtain ⟨rest, split⟩ := (List.cons_prefix_cons.mp start).2
      rw [← split, List.append_assoc, string_pieces inner]
      simp [Lexer.string]
      omega

/-- What is found of a literal settles all lexemes at its quote, and so does a failure. -/
theorem scanned_of_literal {scan : Lexer.Scan Nat} {quote : Char} (known : quote ∈ quotes)
    (unique : ∀ other more, more <+: quote :: cs → Lexeme other more → scan = .ok more.length)
    (answer : (∃ text, text <+: quote :: cs ∧ Lexeme kind text ∧ scan = .ok text.length) ∨
      ∃ cause inside, Malformed (quote :: cs) cause inside ∧ scan = .error (cause, inside)) :
    Scanned (quote :: cs) (scan.map (kind, ·)) := by
  rcases answer with ⟨text, start, lexeme, rfl⟩ | ⟨cause, inside, malformed, rfl⟩
  · refine .found ⟨start, lexeme, fun other more start' lexeme' => ?_⟩ (not_leadingZeros ?_)
    · exact Nat.le_of_eq (Except.ok.inj (unique other more start' lexeme')).symm
    · rintro rfl
      simp [quotes] at known
  · refine .wrong malformed (.inr ⟨quote, known, rfl, fun other more start lexeme => ?_⟩)
    cases unique other more start lexeme

theorem character_scanned (cs : List Char) :
    Scanned ('\'' :: cs) ((Lexer.character cs).map (.character, ·)) := by
  refine scanned_of_literal (by simp [quotes])
    (fun _ _ start lexeme => character_of_lexeme lexeme start) ?_
  rcases piece_or_stuck '\'' cs with stuck | ⟨piece, rest, inner, rfl⟩
  · right
    cases stuck with
    | ends line => exact ⟨_, _, .noCharacter line, character_ends line⟩
    | quote => exact ⟨_, _, .emptyCharacter, by simp [Lexer.character]⟩
    | escape bad => exact ⟨_, _, .characterEscape bad, character_escape bad⟩
  · by_cases closes : rest.head? = some '\''
    · left
      obtain ⟨after, rfl⟩ := List.head?_eq_some_iff.mp closes
      refine ⟨'\'' :: (piece ++ ['\'']), ⟨after, by simp⟩, .character inner, ?_⟩
      exact character_of_lexeme (.character inner) ⟨after, by simp⟩
    · right
      refine ⟨_, _, .openCharacter inner closes, ?_⟩
      rw [character_piece inner, closingQuote_other closes]

theorem string_scanned (cs : List Char) :
    Scanned ('"' :: cs) ((Lexer.string 1 cs).map (.string, ·)) := by
  refine scanned_of_literal (by simp [quotes])
    (fun _ _ start lexeme => string_of_lexeme lexeme start) ?_
  obtain ⟨body, after, rfl, inner, stuck⟩ := pieces_split '"' cs
  cases stuck with
  | ends line =>
    exact .inr ⟨_, _, .openString inner line, by rw [string_pieces inner, string_ends line]⟩
  | escape bad =>
    exact .inr ⟨_, _, .stringEscape inner bad, by rw [string_pieces inner, string_escape bad]⟩
  | @quote rest =>
    have start : '"' :: (body ++ ['"']) <+: '"' :: (body ++ '"' :: rest) := ⟨rest, by simp⟩
    exact .inl ⟨_, start, .string inner, string_of_lexeme (.string inner) start⟩

theorem startsNumber_digit (digit : c.isDigit = true) : Lexer.startsNumber (c :: cs) = true := by
  have minus := isDigit_minus digit
  unfold Lexer.startsNumber
  split
  · next same => exact absurd (List.cons.inj same).1 minus
  · next same => exact absurd (List.cons.inj same).1 minus
  · next same => rwa [← (List.cons.inj same).1]
  · next none => cases none

theorem startsNumber_minus (digits : Counting text) (start : text <+: cs) :
    Lexer.startsNumber ('-' :: cs) = true := by
  obtain ⟨rest, rfl⟩ := start
  cases digits with
  | @digits d ds first nonzero others =>
    rw [List.cons_append, Lexer.startsNumber]
    · simp [first, nonzero]
    · rintro _ _ rfl
      exact absurd rfl nonzero

/-- A number at the head of a text is seen from a few characters of it. -/
theorem startsNumber_of_lexeme (lexeme : Lexeme kind text) (start : text <+: cs)
    (number : kind = .integer ∨ kind = .decimal) : Lexer.startsNumber cs = true := by
  obtain ⟨rest, rfl⟩ := start
  cases lexeme with
  | zero => exact startsNumber_digit rfl
  | @integer sign digits signed counting =>
    rcases signed with rfl | rfl
    · cases counting with
      | digits first nonzero others => exact startsNumber_digit first
    · exact startsNumber_minus counting ⟨rest, rfl⟩
  | @decimal sign whole places signed before filled behind =>
    cases before with
    | zero =>
      obtain ⟨d, ds, rfl⟩ := List.exists_cons_of_ne_nil filled
      rcases signed with rfl | rfl
      · exact startsNumber_digit rfl
      · exact behind d List.mem_cons_self
    | counting digits =>
      rcases signed with rfl | rfl
      · cases digits with
        | digits first nonzero others => exact startsNumber_digit first
      · exact startsNumber_minus digits ⟨'.' :: (places ++ rest), by simp⟩
  | identifier | character | string | pair | single => rcases number with same | same <;> cases same

theorem operator_of_pair (known : text ∈ operatorPairs) (start : text <+: cs) :
    text.length = 2 ∧ Lexer.operator cs = 2 := by
  obtain ⟨rest, rfl⟩ := start
  simp only [operatorPairs, List.mem_cons, List.not_mem_nil, or_false] at known
  rcases known with rfl | rfl | rfl | rfl <;> exact ⟨rfl, rfl⟩

theorem operator_cases (cs : List Char) :
    (∃ pair ∈ operatorPairs, pair <+: cs) ∨ Lexer.operator cs = 1 := by
  unfold Lexer.operator
  split
  · exact .inl ⟨['!', '='], by simp [operatorPairs], _, rfl⟩
  · exact .inl ⟨['=', '='], by simp [operatorPairs], _, rfl⟩
  · exact .inl ⟨['&', '&'], by simp [operatorPairs], _, rfl⟩
  · exact .inl ⟨['|', '|'], by simp [operatorPairs], _, rfl⟩
  · exact .inr rfl

/-- Where neither a word, a number nor a literal starts, a lexeme is an operator. -/
theorem operator_longest (noWord : Lexer.isWordStart c = false)
    (noNumber : Lexer.startsNumber (c :: cs) = false) (noQuote : c ∉ quotes)
    (start : text <+: c :: cs) (lexeme : Lexeme kind text) :
    text.length ≤ Lexer.operator (c :: cs) := by
  have first := start_at_head lexeme start
  have number : ¬ (kind = .integer ∨ kind = .decimal) := by
    intro number
    rw [startsNumber_of_lexeme lexeme start number] at noNumber
    cases noNumber
  cases lexeme with
  | identifier =>
    rw [(isWordStart_iff c).mpr first] at noWord
    cases noWord
  | zero | integer | decimal => simp at number
  | character | string =>
    cases first
    simp [quotes] at noQuote
  | pair known =>
    obtain ⟨two, same⟩ := operator_of_pair known start
    exact Nat.le_of_eq (two.trans same.symm)
  | single =>
    unfold Lexer.operator
    split <;> simp

theorem operator_scanned (solid : c ∉ blanks) (noWord : Lexer.isWordStart c = false)
    (noNumber : Lexer.startsNumber (c :: cs) = false) (noQuote : c ∉ quotes) :
    Scanned (c :: cs) (.ok (.operator, Lexer.operator (c :: cs))) := by
  have noDigit : c.isDigit = false := by
    cases digit : c.isDigit with
    | false => rfl
    | true =>
      rw [startsNumber_digit digit] at noNumber
      cases noNumber
  have clean : ¬ LeadingZeros (c :: cs) := by
    apply not_leadingZeros
    rintro rfl
    cases noDigit
  have longest : ∀ other more, more <+: c :: cs → Lexeme other more →
      more.length ≤ Lexer.operator (c :: cs) :=
    fun _ _ => operator_longest noWord noNumber noQuote
  rcases operator_cases (c :: cs) with ⟨pair, known, start⟩ | one
  · obtain ⟨two, same⟩ := operator_of_pair known start
    rw [same, ← two] at longest ⊢
    exact .found ⟨start, .pair known, longest⟩ clean
  · have word := mt (isWordStart_iff c).mpr (Bool.eq_false_iff.mp noWord)
    rw [not_or] at word
    have lexeme : Lexeme .operator [c] :=
      .single solid noQuote word.1 (Bool.eq_false_iff.mpr word.2) noDigit
    rw [one] at longest ⊢
    have alone : Longest (c :: cs) .operator [c] := ⟨⟨cs, rfl⟩, lexeme, longest⟩
    exact .found alone clean

theorem lexeme_scanned (solid : c ∉ blanks) (cs : List Char) :
    Scanned (c :: cs) (Lexer.lexeme (c :: cs)) := by
  simp only [Lexer.lexeme, List.headD_cons, List.drop_one, List.tail_cons]
  split
  · next word =>
    have length : Lexer.word (c :: cs) = (c :: cs.takeWhile Lexer.isWordPart).length := by
      simp [Lexer.word, Nat.add_comm]
    rw [length]
    refine .found (word_longest word) (not_leadingZeros ?_)
    rintro rfl
    cases word
  split
  · next number =>
    rcases number_spec number with ⟨zeros, answer⟩ | ⟨clean, kind, text, longest, answer⟩
    · rw [answer]
      exact .wrong (.zeros zeros) (.inl zeros)
    · rw [answer]
      exact .found longest clean
  split
  · next apostrophe =>
    subst apostrophe
    exact character_scanned cs
  split
  · next mark =>
    subst mark
    exact string_scanned cs
  · next word number apostrophe mark =>
    exact operator_scanned solid (Bool.eq_false_iff.mpr word) (Bool.eq_false_iff.mpr number)
      (by simp [quotes, apostrophe, mark])

def kindOf (text : List Char) : Token.Kind :=
  if Lexer.isWordStart (text.headD ' ') then .identifier
  else if Lexer.startsNumber text then if '.' ∈ text then .decimal else .integer
  else if text.headD ' ' = '\'' then .character
  else if text.headD ' ' = '"' then .string
  else .operator

theorem isWordStart_of_number (first : c = '-' ∨ c.isDigit = true) :
    Lexer.isWordStart c = false := by
  rcases first with rfl | digit
  · rfl
  · have other : c ≠ '@' := by
      rintro rfl
      cases digit
    simp [Lexer.isWordStart, other, isAlpha_of_isDigit digit]

theorem point_not_mem (digits : Digits text) : '.' ∉ text := by
  intro point
  cases digits '.' point

theorem kindOf_number (lexeme : Lexeme kind text) (number : kind = .integer ∨ kind = .decimal) :
    kindOf text = if '.' ∈ text then .decimal else .integer := by
  obtain ⟨c, cs, rfl, start⟩ := start_of_lexeme lexeme
  have first : c = '-' ∨ c.isDigit = true := by rcases number with rfl | rfl <;> exact start
  have seen := startsNumber_of_lexeme lexeme List.prefix_rfl number
  simp [kindOf, isWordStart_of_number first, seen]

theorem kindOf_lexeme (lexeme : Lexeme kind text) : kindOf text = kind := by
  cases lexeme with
  | identifier first others => simp [kindOf, (isWordStart_iff _).mpr first]
  | zero => rfl
  | integer signed counting =>
    rw [kindOf_number (.integer signed counting) (.inl rfl), if_neg]
    have digits := point_not_mem (digits_of_counting counting)
    rcases signed with rfl | rfl <;> simp [digits]
  | decimal signed before filled behind =>
    rw [kindOf_number (.decimal signed before filled behind) (.inr rfl), if_pos (by simp)]
  | character | string => rfl
  | pair known =>
    simp only [operatorPairs, List.mem_cons, List.not_mem_nil, or_false] at known
    rcases known with rfl | rfl | rfl | rfl <;> rfl
  | @single c solid unquoted start letter digit =>
    have number : Lexer.startsNumber [c] = false := by
      unfold Lexer.startsNumber
      split <;> simp_all
    simp only [quotes, List.mem_cons, List.not_mem_nil, or_false, not_or] at unquoted
    simp [kindOf, Lexer.isWordStart, start, letter, number, unquoted]

theorem longest_unique {other : Token.Kind} {more : List Char} (one : Longest cs kind text)
    (two : Longest cs other more) : kind = other ∧ text = more := by
  have length : text.length = more.length :=
    Nat.le_antisymm (two.longest kind text one.start one.lexeme)
      (one.longest other more two.start two.lexeme)
  have same : text = more :=
    (List.prefix_of_prefix_length_le one.start two.start (Nat.le_of_eq length)).eq_of_length length
  subst same
  exact ⟨(kindOf_lexeme one.lexeme).symm.trans (kindOf_lexeme two.lexeme), rfl⟩

end Plc.Lexical

import Mathlib.Data.List.Forall2
import Plc.Proofs.Lexical.Exact
import Plc.Proofs.Syntax.Finds

/-!
Texts that are literals. A lexeme that stands by itself is read as one token, and a token whose kind
is that of a literal denotes one: digits their number in base ten, and what is between quotes the
characters that its pieces stand for, each one raw or by its escape.
-/

namespace Plc

/-- The text is one token of this kind, and where an expression may start such a token is this
literal, whatever is behind it. -/
structure ReadsAs (text : String) (kind : Token.Kind) (value : Literal) : Prop where
  token : Token.ofSource text = .ok [⟨kind, text, 0⟩]
  literal : ∀ limit nested offset rest,
    Parser.primary limit nested (⟨kind, text, offset⟩ :: rest) = .ok (.literal value none, rest)

namespace Lexical

variable {kind : Token.Kind} {text : List Char}

theorem zeros_not_counting {ds : List Char} (counting : Counting ds) (cs : List Char) :
    ¬ LeadingZeros (ds ++ cs) := by
  cases counting with
  | digits first nonzero others => exact not_leadingZeros nonzero

/-- No lexeme goes on behind a zero that is its first digit. -/
theorem clean_of_lexeme (lexeme : Lexeme kind text) : ¬ LeadingZeros text := by
  cases lexeme with
  | identifier first others =>
    apply not_leadingZeros
    rintro rfl
    simp at first
  | zero =>
    rintro ⟨d, ds, split, digit⟩
    cases split
  | integer signed counting =>
    rcases signed with rfl | rfl
    · have clean := zeros_not_counting counting []
      rwa [List.append_nil] at clean
    · exact not_leadingZeros (by decide)
  | decimal signed before filled behind =>
    rcases signed with rfl | rfl
    · cases before with
      | zero =>
        rintro ⟨d, ds, split, digit⟩
        cases split
        cases digit
      | counting counting => exact zeros_not_counting counting _
    · exact not_leadingZeros (by decide)
  | character inner | string inner => exact not_leadingZeros (by decide)
  | pair known =>
    obtain ⟨c, cs, rfl, among⟩ := first_of_pair known
    apply not_leadingZeros
    rintro rfl
    simp at among
  | single solid unquoted start letter digit =>
    rintro ⟨d, ds, split, -⟩
    cases split

/-- A lexeme by itself is one token. -/
theorem ofSource_of_lexeme (lexeme : Lexeme kind text) :
    Token.ofSource (String.ofList text) = .ok [⟨kind, String.ofList text, 0⟩] := by
  have alone : Longest (text ++ []) kind text := by
    rw [List.append_nil]
    exact ⟨List.prefix_rfl, lexeme, fun _ _ start _ => start.length_le⟩
  have clean : ¬ LeadingZeros (text ++ []) := by
    rw [List.append_nil]
    exact clean_of_lexeme lexeme
  have reading : Reading 0 (text ++ []) [⟨kind, String.ofList text, 0⟩] := .token alone clean .nil
  have read := tokensFrom_of_reading reading
  rw [Token.ofSource, String.toList_ofList]
  rwa [List.append_nil] at read

end Lexical

open Lexical

theorem readsAs_of_lexeme {kind : Token.Kind} {text : List Char} {value : Literal}
    (lexeme : Lexeme kind text)
    (denotes : ∀ offset, Grammar.LiteralOf ⟨kind, String.ofList text, offset⟩ value) :
    ReadsAs (String.ofList text) kind value :=
  ⟨ofSource_of_lexeme lexeme, fun _ _ offset rest => Parser.primary_literal (denotes offset) rest⟩

section

variable {ds sign whole places : List Char}

theorem numeral_digits (digits : Digits ds) (filled : ds ≠ []) :
    Numeral ds (Nat.ofDigitChars 10 ds 0) := by
  induction ds using List.reverseRecOn with
  | nil => exact absurd rfl filled
  | append_singleton front x ih =>
    obtain ⟨d, small, rfl⟩ :=
      digitChar_of_isDigit (digits x (List.mem_append_right front List.mem_cons_self))
    have value : Nat.ofDigitChars 10 (front ++ [d.digitChar]) 0 =
        10 * Nat.ofDigitChars 10 front 0 + d := by
      simp [Nat.ofDigitChars_eq_foldl, toNat_digitChar small]
    rw [value]
    by_cases first : front = []
    · subst first
      simpa using Numeral.digit small
    · exact .more (ih (fun c member => digits c (List.mem_append_left _ member)) first) small

/-- Digits, perhaps behind a minus, denote their number in base ten. -/
theorem integerText_signed (sign_ : Sign sign) (digits : Digits ds) (filled : ds ≠ []) :
    IntegerText (sign ++ ds) (signed (decide (sign = ['-'])) (Nat.ofDigitChars 10 ds 0)) := by
  rcases sign_ with rfl | rfl
  · exact .plain (numeral_digits digits filled)
  · exact .minus (numeral_digits digits filled)

/-- The digits before and behind the point are those of the unscaled number, and the scale is the
number of those behind it. -/
theorem decimalText_signed (sign_ : Sign sign) (before : Digits whole) (filled : whole ≠ [])
    (behind : Digits places) : DecimalText (sign ++ (whole ++ '.' :: places))
      ⟨signed (decide (sign = ['-'])) (Nat.ofDigitChars 10 (whole ++ places) 0),
        places.length⟩ := by
  have all : ∀ c ∈ places, decide (c ≠ '_') = true := fun c member => by
    simp only [decide_eq_true_eq]
    rintro rfl
    cases behind '_' member
  have text := integerText_signed sign_ (List.forall_mem_append.mpr ⟨before, behind⟩)
    (List.append_ne_nil_of_left_ne_nil filled places)
  rw [← List.append_assoc] at text ⊢
  have plain := PlainText.point text
  rw [List.countP_eq_length.mpr all] at plain
  exact .plain plain

end

/-- A way to write a character between these quotes: as it is, or by its escape. -/
inductive Spells (quote : Char) : Char → List Char → Prop where
  | raw {c : Char} (other : c ∉ [quote, '\\', '\n', '\r']) : Spells quote c [c]
  | escape {letter c : Char} (escape : EscapeOf letter c) : Spells quote c ['\\', letter]

section

variable {quote c letter : Char} {piece body cs : List Char} {pieces : List (List Char)}

theorem letter_of_escape (escape : EscapeOf letter c) : letter ∈ escapeLetters := by
  cases escape <;> simp [escapeLetters]

theorem escape_of_letter (known : letter ∈ escapeLetters) : ∃ c, EscapeOf letter c := by
  simp only [escapeLetters, List.mem_cons, List.not_mem_nil, or_false] at known
  rcases known with rfl | rfl | rfl | rfl | rfl | rfl | rfl
  · exact ⟨_, .backspace⟩
  · exact ⟨_, .lineFeed⟩
  · exact ⟨_, .carriageReturn⟩
  · exact ⟨_, .tab⟩
  · exact ⟨_, .apostrophe⟩
  · exact ⟨_, .mark⟩
  · exact ⟨_, .backslash⟩

theorem piece_of_spells (spells : Spells quote c piece) : Piece quote piece := by
  cases spells with
  | raw other => exact .plain other
  | escape escape => exact .escape (letter_of_escape escape)

theorem spells_of_piece (inner : Piece quote piece) : ∃ c, Spells quote c piece := by
  cases inner with
  | plain other => exact ⟨_, .raw other⟩
  | escape known =>
    obtain ⟨c, escape⟩ := escape_of_letter known
    exact ⟨c, .escape escape⟩

theorem means_spells (spells : Spells quote c piece) {rest : List Char} (means : Means rest cs) :
    Means (piece ++ rest) (c :: cs) := by
  cases spells with
  | raw other => exact .plain (plain_other other).2.1 means
  | escape escape => exact .escape escape means

theorem pieces_of_spelled (spelled : List.Forall₂ (Spells quote) cs pieces) :
    Pieces quote pieces.flatten := by
  induction spelled with
  | nil => exact .nil
  | cons first others ih => exact .cons (piece_of_spells first) ih

theorem means_spelled (spelled : List.Forall₂ (Spells quote) cs pieces) :
    Means pieces.flatten cs := by
  induction spelled with
  | nil => exact .nil
  | cons first others ih => exact means_spells first ih

theorem between_quoted (first last : Char) (body : List Char) :
    Between (String.ofList (first :: (body ++ [last]))).toList body := by
  rw [String.toList_ofList]
  exact .quotes

end

section

variable {text : List Char} {piece body cs : List Char} {c : Char}

theorem literalOf_integer {n : Int} (denotes : IntegerText text n) (offset : Nat) :
    Grammar.LiteralOf ⟨.integer, String.ofList text, offset⟩ (.integer n) :=
  .integer rfl (by rwa [String.toList_ofList])

theorem literalOf_decimal {d : Decimal} (denotes : DecimalText text d) (offset : Nat) :
    Grammar.LiteralOf ⟨.decimal, String.ofList text, offset⟩ (.decimal d) :=
  .decimal rfl (by rwa [String.toList_ofList])

theorem literalOf_character (spells : Spells '\'' c piece) (offset : Nat) :
    Grammar.LiteralOf ⟨.character, String.ofList ('\'' :: (piece ++ ['\''])), offset⟩
      (.character c) := by
  have means := means_spells spells .nil
  rw [List.append_nil] at means
  exact .character rfl (between_quoted _ _ _) means

theorem literalOf_string {s : String} (means : Means body s.toList) (offset : Nat) :
    Grammar.LiteralOf ⟨.string, String.ofList ('"' :: (body ++ ['"'])), offset⟩ (.string s) :=
  .string rfl (between_quoted _ _ _) means

end

def Token.literalKinds : List Token.Kind := [.integer, .decimal, .character, .string]

/-- A lexeme of such a kind denotes a literal. -/
theorem literalOf_lexeme {kind : Token.Kind} {text : List Char} (lexeme : Lexeme kind text)
    (known : kind ∈ Token.literalKinds) (offset : Nat) :
    ∃ value, Grammar.LiteralOf ⟨kind, String.ofList text, offset⟩ value := by
  cases lexeme with
  | identifier | pair | single => simp [Token.literalKinds] at known
  | zero => exact ⟨_, literalOf_integer (.plain (.digit (by decide : 0 < 10))) offset⟩
  | integer sign counting =>
    have denotes := integerText_signed sign (digits_of_counting counting)
      (ne_nil_of_counting counting)
    exact ⟨_, literalOf_integer denotes offset⟩
  | decimal sign before filled behind =>
    have denotes := decimalText_signed sign (digits_of_whole before) (ne_nil_of_whole before) behind
    exact ⟨_, literalOf_decimal denotes offset⟩
  | character inner =>
    obtain ⟨c, spells⟩ := spells_of_piece inner
    exact ⟨_, literalOf_character spells offset⟩
  | @string body inner =>
    have means : Means body (String.ofList (Escape.decode body)).toList := by
      rw [String.toList_ofList]
      exact means_decode body
    exact ⟨_, literalOf_string means offset⟩

/-- So does every token of such a kind that a source text has. -/
theorem literalOf_token {source : String} {ts : List Token}
    (read : Token.ofSource source = .ok ts) {t : Token} (member : t ∈ ts)
    (known : t.kind ∈ Token.literalKinds) : ∃ value, Grammar.LiteralOf t value := by
  have lexeme := ((Token.ofSource_eq_ok_iff.mp read).longest t member).lexeme
  obtain ⟨value, denotes⟩ := literalOf_lexeme lexeme known t.offset
  rw [String.ofList_toList] at denotes
  exact ⟨value, denotes⟩

/-- A source text has no exponents, so the places of a decimal are those that are written. -/
theorem scale_of_token {source : String} {ts : List Token}
    (read : Token.ofSource source = .ok ts) {t : Token} (member : t ∈ ts) {d : Decimal}
    (denotes : Grammar.LiteralOf t (.decimal d)) : 0 ≤ d.scale := by
  have lexeme := ((Token.ofSource_eq_ok_iff.mp read).longest t member).lexeme
  cases denotes with
  | decimal kind text =>
    rw [kind] at lexeme
    generalize t.text.toList = cs at lexeme text
    cases lexeme with
    | decimal sign before filled behind =>
      have written :=
        decimalText_signed sign (digits_of_whole before) (ne_nil_of_whole before) behind
      rw [← Decimal.ofText?_eq_some_iff] at text written
      rw [text] at written
      cases written
      exact Int.natCast_nonneg _

end Plc

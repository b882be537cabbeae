import Plc.Outcome
import Plc.Proofs.Diagnostics
import Plc.Proofs.Lexical.Blanks
import Plc.Proofs.Lexical.Exact
import Plc.Proofs.Syntax.Offsets
import Plc.Proofs.Typing.Sound

/-!
Layout. The blanks between tokens are only there to keep them apart: with other blanks between them,
and as long as an `=` stays behind its `<` or `>`, the same tokens are read and they make the same
program, or the same error at the same token.
-/

namespace Plc

namespace Lexical

open Token (Alike)

def Blank (cs : List Char) : Prop := ∀ c ∈ cs, c ∈ blanks

/-- The texts of the tokens with blanks between any two of them, and behind them, except that a
glued `=` has none in front of it. -/
inductive Laid : List Token → List Char → Prop where
  | none : Laid [] []
  | last {t : Token} {gap : List Char} (blank : Blank gap) : Laid [t] (t.text.toList ++ gap)
  | next {t u : Token} {ts : List Token} {gap cs : List Char} (blank : Blank gap)
      (apart : gap = [] ↔ Token.glued t u = true) (others : Laid (u :: ts) cs) :
      Laid (t :: u :: ts) (t.text.toList ++ (gap ++ cs))

/-- A text of these tokens with any blanks between them, in front of them and behind them. -/
def Relaid (ts : List Token) (cs : List Char) : Prop :=
  ∃ lead rest, cs = lead ++ rest ∧ Blank lead ∧ Laid ts rest

/-- The text of the token is read as this token if nothing else is there. -/
structure Alone (t : Token) : Prop where
  longest : Longest t.text.toList t.kind t.text.toList
  clean : ¬ LeadingZeros t.text.toList

variable {t u : Token} {ts : List Token} {cs gap : List Char} {offset : Nat}

theorem alone_of_tiling (tiling : Tiling cs ts) (member : t ∈ ts) : Alone t := by
  have longest := tiling.longest t member
  have clean := tiling.clean t member
  obtain ⟨rest, split⟩ := longest.start
  rw [← split] at longest clean
  constructor
  · rw [← List.nil_append rest] at longest
    have cut := longest_of_cut longest
    rwa [List.append_nil] at cut
  · exact fun zeros => clean (leadingZeros_of_cut zeros)

theorem reading_of_blank {rest : List Char} (blank : Blank gap)
    (others : Reading (offset + gap.length) rest ts) : Reading offset (gap ++ rest) ts := by
  induction gap generalizing offset with
  | nil => exact others
  | cons c gap ih =>
    obtain ⟨first, blank⟩ := List.forall_mem_cons.mp blank
    refine .blank first (ih blank ?_)
    rwa [List.length_cons, Nat.add_comm gap.length, ← Nat.add_assoc] at others

/-- In front of blanks, and at the end, a token is read as it is alone. -/
theorem longest_of_alone {rest : List Char} (alone : Alone t) (blank : Blank gap)
    (apart : gap = [] → rest = []) :
    Longest (t.text.toList ++ (gap ++ rest)) t.kind t.text.toList ∧
      ¬ LeadingZeros (t.text.toList ++ (gap ++ rest)) := by
  cases gap with
  | nil =>
    rw [apart rfl, List.append_nil, List.append_nil]
    exact ⟨alone.longest, alone.clean⟩
  | cons c gap =>
    have first := blank c List.mem_cons_self
    have filled := List.length_pos_iff.mp (length_pos_of_lexeme alone.longest.lexeme)
    exact ⟨longest_at_blank alone.longest first _, clean_at_blank filled alone.clean first _⟩

/-- A `<` and a `>` are read alone whatever comes behind them. -/
theorem longest_of_ordering {c : Char} (ordering : c = '<' ∨ c = '>') (cs : List Char) :
    Longest (c :: cs) .operator [c] ∧ ¬ LeadingZeros (c :: cs) := by
  constructor
  · rcases ordering with rfl | rfl
    all_goals
      exact ⟨⟨cs, rfl⟩, .single (by decide) (by decide) (by decide) rfl rfl,
        fun _ _ => operator_longest rfl rfl (by decide)⟩
  · apply not_leadingZeros
    rcases ordering with rfl | rfl <;> decide

theorem glued_moved_iff {n m : Nat} : Token.glued (t.moved n) (u.moved m) = true ↔
    (t.isOperator "<" = true ∨ t.isOperator ">" = true) ∧ u.isOperator "=" = true ∧
      m = n + t.text.length := by
  simp [Token.glued, Parser.gluedEquals, Token.stop, Token.moved, Token.isOperator]

theorem ordering_of_glued (glued : Token.glued t u = true) :
    (t.isOperator "<" = true ∨ t.isOperator ">" = true) ∧ u.isOperator "=" = true :=
  have ⟨ordering, equals, _⟩ := glued_moved_iff (n := t.offset) (m := u.offset).mp glued
  ⟨ordering, equals⟩

theorem longest_of_glued (glued : Token.glued t u = true) (cs : List Char) :
    Longest (t.text.toList ++ cs) t.kind t.text.toList ∧
      ¬ LeadingZeros (t.text.toList ++ cs) := by
  have single : ∃ c, (c = '<' ∨ c = '>') ∧ t.kind = .operator ∧ t.text.toList = [c] := by
    rcases (ordering_of_glued glued).1 with less | greater
    · simp only [Token.isOperator, Bool.and_eq_true, beq_iff_eq] at less
      exact ⟨'<', .inl rfl, less.1, by rw [less.2]; rfl⟩
    · simp only [Token.isOperator, Bool.and_eq_true, beq_iff_eq] at greater
      exact ⟨'>', .inr rfl, greater.1, by rw [greater.2]; rfl⟩
  obtain ⟨c, ordering, kind, text⟩ := single
  rw [kind, text]
  exact longest_of_ordering ordering cs

/-- A token that is read at the front of a text. -/
theorem reading_of_token {rest : List Char}
    (longest : Longest (t.text.toList ++ rest) t.kind t.text.toList ∧
      ¬ LeadingZeros (t.text.toList ++ rest))
    (others : Reading (offset + t.text.length) rest ts) :
    Reading offset (t.text.toList ++ rest) (t.moved offset :: ts) := by
  have token : (⟨t.kind, String.ofList t.text.toList, offset⟩ : Token) = t.moved offset := by
    rw [String.ofList_toList]
    rfl
  rw [← String.length_toList] at others
  rw [← token]
  exact .token longest.1 longest.2 others

/-- In the new text tokens are glued where they were. -/
theorem glued_of_laid {n : Nat} (apart : gap = [] ↔ Token.glued t u = true) {m : Nat}
    (place : m = n + t.text.length + gap.length) :
    Token.glued (t.moved n) (u.moved m) = Token.glued t u := by
  rw [Bool.eq_iff_iff, glued_moved_iff, ← apart]
  constructor
  · rintro ⟨-, -, adjacent⟩
    exact List.eq_nil_of_length_eq_zero (by omega)
  · intro none
    obtain ⟨ordering, equals⟩ := ordering_of_glued (apart.mp none)
    exact ⟨ordering, equals, by rw [place, none]; rfl⟩

theorem reading_of_laid (laid : Laid ts cs) (alone : ∀ t ∈ ts, Alone t) (offset : Nat) :
    ∃ ts', Reading offset cs ts' ∧ Alike ts ts' ∧ ∀ t' ∈ ts'.head?, t'.offset = offset := by
  induction laid generalizing offset with
  | none => exact ⟨[], .nil, .nil, by simp⟩
  | @last t gap blank =>
    have longest := longest_of_alone (alone t (by simp)) blank fun _ => Eq.refl ([] : List Char)
    have behind : Reading (offset + t.text.length) (gap ++ []) [] := reading_of_blank blank .nil
    exact ⟨[t.moved offset], by simpa using reading_of_token longest behind,
      .cons (by simp) .nil, by simp [Token.moved]⟩
  | @next t u ts gap cs blank apart laid ih =>
    obtain ⟨ts', others, alike, first⟩ :=
      ih (fun v member => alone v (List.mem_cons_of_mem t member))
        (offset + t.text.length + gap.length)
    have longest : Longest (t.text.toList ++ (gap ++ cs)) t.kind t.text.toList ∧
        ¬ LeadingZeros (t.text.toList ++ (gap ++ cs)) := by
      by_cases glued : Token.glued t u = true
      · exact longest_of_glued glued (gap ++ cs)
      · exact longest_of_alone (alone t (by simp)) blank fun none => absurd (apart.mp none) glued
    refine ⟨t.moved offset :: ts', reading_of_token longest (reading_of_blank blank others),
      .cons ?_ alike, by simp [Token.moved]⟩
    rintro _ ⟨⟩ u' head
    cases alike with
    | @cons u m us us' glue alike =>
      cases head
      exact glued_of_laid apart (first _ rfl)

theorem tiling_of_relaid (relaid : Relaid ts cs) (alone : ∀ t ∈ ts, Alone t) :
    ∃ ts', Tiling cs ts' ∧ Alike ts ts' := by
  obtain ⟨lead, rest, rfl, blank, laid⟩ := relaid
  obtain ⟨ts', reading, alike, -⟩ := reading_of_laid laid alone (0 + lead.length)
  exact ⟨ts', tiling_iff_reading.mpr (reading_of_blank blank reading), alike⟩

end Lexical

open Lexical

/-- With other blanks between its tokens a text is read as the same program, or there is the same
error at the same token. -/
theorem parse_of_relaid (source source' : String) (ts : List Token)
    (read : Token.ofSource source = .ok ts) (relaid : Relaid ts source'.toList) :
    ∃ ts', Token.ofSource source' = .ok ts' ∧ Token.Alike ts ts' ∧
      ((∃ p, Source.parse source = .ok p ∧ Source.parse source' = .ok p) ∨
        ∃ cause, ∃ i ≤ ts.length,
          Source.parse source = .error (.parse cause (Token.offsetAt ts i)) ∧
          Source.parse source' = .error (.parse cause (Token.offsetAt ts' i))) := by
  have tiling := Token.ofSource_eq_ok_iff.mp read
  obtain ⟨ts', tiling', alike⟩ := tiling_of_relaid relaid fun t => alone_of_tiling tiling
  have read' := Token.ofSource_eq_ok_iff.mpr tiling'
  refine ⟨ts', read', alike, ?_⟩
  rw [Source.parse_of_tokens read, Source.parse_of_tokens read']
  rcases Program.ofTokens_alike alike with ⟨p, one, other⟩ | ⟨cause, i, within, one, other⟩
  · exact .inl ⟨p, by rw [one]; rfl, by rw [other]; rfl⟩
  · exact .inr ⟨cause, i, within, by rw [one]; rfl, by rw [other]; rfl⟩

def tightGlobal : String := "VAR a=1<=;"

def wideGlobal : String := "VAR a = 1 <=\n;\n"

def globalTokens : List Token :=
  [⟨.identifier, "VAR", 0⟩, ⟨.identifier, "a", 4⟩, ⟨.operator, "=", 5⟩, ⟨.integer, "1", 6⟩,
    ⟨.operator, "<", 7⟩, ⟨.operator, "=", 8⟩, ⟨.operator, ";", 9⟩]

theorem relaid_wideGlobal : Relaid globalTokens wideGlobal.toList := by
  have space : Blank [' '] := by simp [Blank, blanks]
  have feed : Blank ['\n'] := by simp [Blank, blanks]
  have none : Blank [] := by simp [Blank]
  refine ⟨[], _, by decide +kernel, none, .next space (by decide) <| .next space (by decide) <|
    .next space (by decide) <| .next space (by decide) <| .next none (by decide) <|
    .next feed (by decide) <| .last feed⟩

/-- The value is missing, in both texts in front of the semicolon. -/
theorem parse_of_relaid_wideGlobal : Token.ofSource tightGlobal = .ok globalTokens ∧
    Relaid globalTokens wideGlobal.toList ∧
    ∃ ts', Token.ofSource wideGlobal = .ok ts' ∧ Token.Alike globalTokens ts' ∧
      Source.parse tightGlobal =
        .error (.parse (.expected .expression) (Token.offsetAt globalTokens 6)) ∧
      Source.parse wideGlobal = .error (.parse (.expected .expression) (Token.offsetAt ts' 6)) := by
  have known : ∃ ts ∈ (Token.ofSource tightGlobal).toOption, ts = globalTokens := by decide +kernel
  obtain ⟨ts, read, rfl⟩ := exists_ok known
  have failed := eq_error_of_failure (show failure? (Source.parse tightGlobal) =
    some (.parse (.expected .expression) 9) by decide +kernel)
  -- only the last token stands at this offset
  have place : ∀ i ≤ globalTokens.length, Token.offsetAt globalTokens i = 9 → i = 6 := by decide
  obtain ⟨ts', read', alike, ends⟩ := parse_of_relaid _ _ _ read relaid_wideGlobal
  rcases ends with ⟨p, parsed, -⟩ | ⟨cause, i, within, one, other⟩
  · cases failed.symm.trans parsed
  · obtain ⟨rfl, stands⟩ :
        ParseError.expected .expression = cause ∧ 9 = Token.offsetAt globalTokens i := by
      simpa using failed.symm.trans one
    obtain rfl := place i within stands.symm
    exact ⟨read, relaid_wideGlobal, ts', read', alike, one, other⟩

end Plc

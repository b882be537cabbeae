import Plc.Outcome
import Plc.Proofs.Lexical.Blanks
import Plc.Proofs.Lexical.Exact
import Plc.Proofs.Lines
import Plc.Proofs.Syntax.Prefix
import Plc.Report

/-!
Where diagnostics point. Every error in the text lies on a character within a line, or just behind
one. So the source has that line, the diagnostic shows it, and its caret is under the place.
-/

namespace Plc

open Lexical

def OnLine (cs : List Char) (offset : Nat) : Prop :=
  ∃ i c, cs[i]? = some c ∧ isLineBreak c = false ∧ (offset = i ∨ offset = i + 1)

variable {cs before after : List Char} {offset : Nat}

namespace OnLine

theorem on {c : Char} (here : cs[offset]? = some c) (plain : isLineBreak c = false) :
    OnLine cs offset :=
  ⟨offset, c, here, plain, .inl rfl⟩

theorem behind {c : Char} (front : cs[offset]? = some c) (plain : isLineBreak c = false) :
    OnLine cs (offset + 1) :=
  ⟨offset, c, front, plain, .inr rfl⟩

theorem further {skip : Nat} (inside : OnLine (cs.drop skip) offset) :
    OnLine cs (skip + offset) := by
  obtain ⟨i, c, place, plain, near⟩ := inside
  rw [List.getElem?_drop] at place
  exact ⟨skip + i, c, place, plain, by omega⟩

/-- Behind characters that are all within a line. -/
theorem behind_run (filled : before ≠ []) (plain : ∀ c ∈ before, isLineBreak c = false) :
    OnLine (before ++ after) before.length := by
  have front := List.getLast?_eq_some_getLast filled
  have many : 0 < before.length := List.length_pos_iff.mpr filled
  have last : (before ++ after)[before.length - 1]? = some (before.getLast filled) := by
    rw [List.getElem?_append_left (Nat.sub_lt many Nat.one_pos), ← List.getLast?_eq_getElem?, front]
  have behind := OnLine.behind last (plain _ (List.getLast_mem filled))
  rwa [Nat.sub_add_cancel many] at behind

theorem within (inside : OnLine cs offset) : offset ≤ cs.length := by
  obtain ⟨i, c, place, -, near⟩ := inside
  have short := (List.getElem?_eq_some_iff.mp place).1
  omega

theorem reached (inside : OnLine cs offset) :
    Reached (cs.take offset) (cs.drop offset) [] := by
  obtain ⟨i, c, place, plain, same⟩ := inside
  rcases same with rfl | rfl
  · have ahead : (cs.drop offset).head? = some c := by rw [List.head?_drop, place]
    have filled : cs.drop offset ≠ [] := by
      intro none
      rw [none] at ahead
      cases ahead
    refine ⟨?_, fun _ => .inr filled, fun none => absurd none filled⟩
    rintro ⟨-, feed⟩
    rw [ahead] at feed
    cases feed
    cases plain
  · have last : (cs.take (i + 1)).getLast? = some c := by
      rw [List.getLast?_take, if_neg (Nat.succ_ne_zero i), Nat.add_sub_cancel, place]
      rfl
    refine ⟨?_, fun none => ?_, fun _ d found => ?_⟩
    · rintro ⟨feed, -⟩
      rw [last] at feed
      cases feed
      cases plain
    · rw [none] at last
      cases last
    · rw [last] at found
      cases found
      exact plain

end OnLine

theorem line_of_onLine (inside : OnLine cs offset) :
    ∃ p start, Position.locate cs offset = p ∧ 1 ≤ p.line ∧ p.column = start.length + 1 ∧
      (linesOf cs)[p.line - 1]? = some (start ++ restOfLine (cs.drop offset)) := by
  obtain ⟨k, start, text, position⟩ := situated _ _ [] ⟨1, 1⟩ rfl inside.reached
  rw [List.take_append_drop] at text position
  rw [List.length_take, Nat.min_eq_left inside.within] at position
  refine ⟨_, start, position, Nat.le_add_right 1 k, rfl, ?_⟩
  rw [Nat.add_sub_cancel_left]
  exact text

theorem onLine_of_quoted {quote : Char} {run : List Char} (first : isLineBreak quote = false)
    (plain : ∀ c ∈ run, isLineBreak c = false) (after : List Char) :
    OnLine (quote :: (run ++ after)) (1 + run.length) := by
  rw [Nat.add_comm]
  exact OnLine.behind_run (List.cons_ne_nil quote run) (List.forall_mem_cons.mpr ⟨first, plain⟩)

theorem onLine_of_malformed {cause : LexError} (malformed : Malformed cs cause offset) :
    OnLine cs offset := by
  cases malformed with
  | zeros zeros =>
    obtain ⟨d, ds, rfl, -⟩ := zeros
    exact .on (c := '0') rfl rfl
  | emptyCharacter => exact .on (c := '\'') rfl rfl
  | noCharacter ends => exact .behind (c := '\'') rfl rfl
  | openCharacter inner goesOn => exact onLine_of_quoted rfl (plain_of_piece inner) _
  | characterEscape bad => exact .on (c := '\\') rfl rfl
  | openString inner ends => exact onLine_of_quoted rfl (plain_of_pieces inner) _
  | stringEscape inner bad => exact onLine_of_quoted rfl (plain_of_pieces inner) _

theorem onLine_of_lexError {source : String} {cause : LexError}
    (failed : Token.ofSource source = .error (cause, offset)) : OnLine source.toList offset := by
  have answered := tokensFrom_answered 0 source.toList
  rw [Token.ofSource] at failed
  rw [failed] at answered
  generalize source.toList = cs at answered
  generalize wrong : Except.error (cause, offset) = answer at answered
  cases answered with
  | all reading => cases wrong
  | @part before after ts cause inside reading malformed reason =>
    cases wrong
    rw [Nat.zero_add]
    refine .further ?_
    rw [List.drop_left]
    exact onLine_of_malformed malformed

section Tokens

variable {ts : List Token} {t : Token}

theorem onLine_of_start (tiling : Tiling cs ts) (member : t ∈ ts) : OnLine cs t.offset := by
  have longest := tiling.longest t member
  obtain ⟨c, more, split, -⟩ := start_of_lexeme longest.lexeme
  have start := longest.start
  rw [split] at start
  have plain := plain_of_lexeme longest.lexeme c (by simp [split])
  obtain ⟨rest, ahead⟩ := start
  have here : cs[t.offset]? = some c := by rw [← List.head?_drop, ← ahead]; rfl
  exact .on here plain

theorem onLine_of_stop (tiling : Tiling cs ts) (member : t ∈ ts) : OnLine cs t.stop := by
  have longest := tiling.longest t member
  obtain ⟨rest, ahead⟩ := longest.start
  have filled := List.length_pos_iff.mp (length_pos_of_lexeme longest.lexeme)
  rw [stop_eq]
  refine .further ?_
  rw [← ahead]
  exact .behind_run filled (plain_of_lexeme longest.lexeme)

end Tokens

theorem onLine_of_parseError {ts : List Token} {cause : ParseError} (tiling : Tiling cs ts)
    (failed : Program.ofTokens ts = .error (cause, offset)) : OnLine cs offset := by
  unfold Program.ofTokens at failed
  cases answer : Parser.program (ts.length + 1) ts with
  | ok whole =>
    rw [answer] at failed
    cases failed
  | error fault =>
    rw [answer] at failed
    obtain ⟨cause, rest⟩ := fault
    cases failed
    obtain ⟨xs, split⟩ := Parser.suffix_of_fault answer
    cases rest with
    | cons t rest =>
      have member : t ∈ ts := by simp [split]
      exact onLine_of_start tiling member
    | nil =>
      cases last : ts.getLast? with
      | none =>
        obtain rfl := List.getLast?_eq_none_iff.mp last
        cases answer
      | some t =>
        rw [Parser.faultOffset, last]
        exact onLine_of_stop tiling (List.mem_of_getLast? last)

theorem onLine_of_error {source : String} {e : Error}
    (failed : Source.tokens source = .error e ∨ Source.parse source = .error e) :
    ∃ offset, e.offset? = some offset ∧ OnLine source.toList offset := by
  cases read : Token.ofSource source with
  | error wrong =>
    rw [Source.parse, Source.tokens, read] at failed
    have same : Error.lex wrong.1 wrong.2 = e :=
      failed.elim (fun lexed => Except.error.inj lexed) fun parsed => Except.error.inj parsed
    exact ⟨wrong.2, same ▸ rfl, onLine_of_lexError read⟩
  | ok ts =>
    have parsed : Source.parse source = .error e := failed.resolve_left fun lexed => by
      rw [Source.tokens, read] at lexed
      cases lexed
    rw [Source.parse_of_tokens read] at parsed
    cases answer : Program.ofTokens ts with
    | ok p =>
      rw [answer] at parsed
      cases parsed
    | error wrong =>
      rw [answer] at parsed
      have same : Error.parse wrong.1 wrong.2 = e := Except.error.inj parsed
      have tiling := Token.ofSource_eq_ok_iff.mp read
      exact ⟨wrong.2, same ▸ rfl, onLine_of_parseError tiling answer⟩

/-- In the printed row the character at the offset stands above the column, or the row ends there
because the line does. -/
inductive Under (cs : List Char) (offset : Nat) (row : List Char) (column : Nat) : Prop where
  | character {c : Char} (here : cs[offset]? = some c) (plain : isLineBreak c = false)
      (above : row[column]? = some c)
  | past (ends : ∀ c, cs[offset]? = some c → isLineBreak c = true) (above : column = row.length)

theorem under_of_line (margin start : List Char) :
    Under cs offset (margin ++ (start ++ restOfLine (cs.drop offset)))
      (margin.length + start.length) := by
  have ahead : cs[offset]? = (cs.drop offset).head? := List.head?_drop.symm
  rw [← List.append_assoc, ← List.length_append]
  cases behind : cs.drop offset with
  | nil =>
    rw [behind] at ahead
    exact .past (by simp [ahead]) (by simp [restOfLine])
  | cons c rest =>
    rw [behind] at ahead
    cases breaks : isLineBreak c with
    | true => exact .past (by simpa [ahead] using breaks) (by simp [restOfLine, breaks])
    | false => exact .character ahead breaks (by simp [restOfLine, breaks])

namespace Error

def heading (e : Error) (file : Option String) (p : Position) : String :=
  e.phase.text ++ ": " ++ e.message ++ "\n" ++ "  --> " ++ file.getD "<input>" ++ ":" ++
    toString p.line ++ ":" ++ toString p.column ++ "\n"

end Error

def numbered (p : Position) (line : List Char) : String :=
  "  " ++ toString p.line ++ " " ++ String.ofList line

def caretBelow (column : Nat) : String := String.ofList (List.replicate column ' ') ++ "^"

/-- The diagnostic, without colors, shows the line of the source that the error is in, and a caret
below the place. -/
structure Shows (source : String) (file : Option String) (e : Error) (offset : Nat) (p : Position)
    (line : List Char) (column : Nat) : Prop where
  known : e.offset? = some offset
  within : offset ≤ source.toList.length
  whole : ¬ ((source.toList.take offset).getLast? = some '\r' ∧
    (source.toList.drop offset).head? = some '\n')
  located : Position.locate source.toList offset = p
  counted : 1 ≤ p.line
  listed : (linesOf source.toList)[p.line - 1]? = some line
  plain : ∀ c ∈ line, isLineBreak c = false
  printed : e.report.diagnostic ⟨some source, file, false⟩ =
    e.heading file p ++ numbered p line ++ "\n" ++ caretBelow column ++ "\n"
  under : Under source.toList offset (numbered p line).toList column

theorem diagnostic_of_line {source : String} {e : Error} {line : List Char} {p : Position}
    (known : e.offset? = some offset) (located : Position.locate source.toList offset = p)
    (listed : (linesOf source.toList)[p.line - 1]? = some line) (file : Option String) :
    e.report.diagnostic ⟨some source, file, false⟩ = e.heading file p ++ numbered p line ++ "\n" ++
      caretBelow ((toString p.line).length + 2 + p.column) ++ "\n" := by
  have excerpt : Report.excerpt false source.toList p = numbered p line ++ "\n" ++
      caretBelow ((toString p.line).length + 2 + p.column) ++ "\n" := by
    rw [Report.excerpt, listed]
    simp [Report.painted, numbered, caretBelow, String.append_assoc]
  have place : Report.place ⟨some source, file, false⟩ offset = "  --> " ++
      file.getD "<input>" ++ ":" ++ toString p.line ++ ":" ++ toString p.column ++ "\n" ++
        (numbered p line ++ "\n" ++ caretBelow ((toString p.line).length + 2 + p.column) ++
          "\n") := by
    rw [← excerpt, ← located]
    rfl
  rw [Report.diagnostic]
  simp only [Error.report, known, place, Error.heading, Report.painted, Bool.false_eq_true,
    if_false, String.append_assoc]

theorem under_of_position {p : Position} {start : List Char}
    (placed : p.column = start.length + 1) :
    Under cs offset (numbered p (start ++ restOfLine (cs.drop offset))).toList
      ((toString p.line).length + 2 + p.column) := by
  have column : (toString p.line).length + 2 + p.column =
      ("  " ++ toString p.line ++ " ").toList.length + start.length := by
    simp only [String.length_toList, String.length_append, placed]
    have two : "  ".length = 2 := rfl
    have one : " ".length = 1 := rfl
    omega
  rw [column, numbered, String.toList_append, String.toList_ofList]
  exact under_of_line _ start

/-- Every error of the text is shown on its line with the caret under its place. -/
theorem caret_under_fault (source : String) (file : Option String) (e : Error)
    (failed : Source.tokens source = .error e ∨ Source.parse source = .error e) :
    ∃ offset p line column, Shows source file e offset p line column := by
  obtain ⟨offset, known, inside⟩ := onLine_of_error failed
  obtain ⟨p, start, located, counted, placed, listed⟩ := line_of_onLine inside
  refine ⟨offset, p, _, _, known, inside.within, inside.reached.apart, located, counted, listed,
    ?_, diagnostic_of_line known located listed file, under_of_position placed⟩
  exact plain_of_lines (by simp) (List.mem_of_getElem? listed)

def failure? {ε α : Type} : Except ε α → Option ε
  | .error e => some e
  | .ok _ => none

theorem eq_error_of_failure {ε α : Type} {result : Except ε α} {e : ε}
    (known : failure? result = some e) : result = .error e := by
  cases result with
  | error d =>
    cases known
    rfl
  | ok a => cases known

def namelessGlobal : String := "VAR a;\r\nVAR\r\n"

theorem caret_under_fault_nameless :
    Source.parse namelessGlobal = .error (.parse (.expected .globalName) 11) ∧
      ∃ offset p line column, Shows namelessGlobal none (.parse (.expected .globalName) 11)
        offset p line column := by
  have failed := eq_error_of_failure (show failure? (Source.parse namelessGlobal) =
    some (.parse (.expected .globalName) 11) by decide +kernel)
  exact ⟨failed, caret_under_fault _ none _ (.inr failed)⟩

end Plc

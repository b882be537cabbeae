import Plc.Proofs.Cursor
import Plc.Proofs.Lexical.Tiling
import Plc.Token.Walk

/-!
The walk over the characters finds the tokens of the scan. It never takes a character behind the
end, each token has at least one, and each loop ends: it takes no more turns than there are
characters left, and one for the end.
-/

namespace Plc.Lexer.Walk

open Cursor (bind_of_ok bind_of_error of_drop_eq_cons)
open Lexical

variable {all cs : List Char} {pos start n turns : Nat} {c : Char} {kind : Token.Kind}

theorem peekAt_apply (distance : Nat) :
    peekAt distance all pos = some (.ok ((all.drop pos)[distance]?.getD '\x00', pos)) := by
  rw [List.getElem?_drop]
  rfl

theorem peek_apply : peek all pos = some (.ok ((all.drop pos).headD '\x00', pos)) := by
  rw [peek, peekAt_apply, List.headD_eq_head?_getD, List.head?_eq_getElem?]

theorem accept_yes (rest : all.drop pos = c :: cs) :
    accept c all pos = some (.ok (true, pos + 1)) := by
  obtain ⟨here, -, inside⟩ := of_drop_eq_cons rest
  rw [accept, bind_of_ok Cursor.atEnd_apply, if_neg (by simpa using inside),
    bind_of_ok (Cursor.entry_apply here), if_pos (beq_self_eq_true c)]
  rfl

theorem accept_no (other : (all.drop pos).head? ≠ some c) :
    accept c all pos = some (.ok (false, pos)) := by
  rw [accept, bind_of_ok Cursor.atEnd_apply]
  cases rest : all.drop pos with
  | nil =>
    rw [if_pos (by simpa using rest)]
    rfl
  | cons d ds =>
    obtain ⟨here, -, inside⟩ := of_drop_eq_cons rest
    have differ : (d == c) = false := by simpa [rest] using other
    rw [if_neg (by simpa using inside), bind_of_ok (Cursor.entry_apply here), differ]
    rfl

/-- A loop that goes on through certain characters. It ends with the text because the character that
a look shows there is none of them. -/
theorem pass_apply {test : Char → Bool} (zero : test '\x00' = false)
    (enough : all.length - pos < turns) : pass test turns all pos =
      some (.ok ((), pos + ((all.drop pos).takeWhile test).length)) := by
  induction turns generalizing pos with
  | zero => exact absurd enough (Nat.not_lt_zero _)
  | succ turns ih =>
    rw [pass, bind_of_ok peek_apply]
    rcases rest : all.drop pos with _ | ⟨c, cs⟩
    · rw [List.headD_nil, zero]
      rfl
    obtain ⟨-, behind, inside⟩ := of_drop_eq_cons rest
    rw [List.headD_cons]
    cases holds : test c with
    | false =>
      rw [List.takeWhile_cons_of_neg (by simp [holds])]
      rfl
    | true =>
      rw [if_pos rfl, bind_of_ok (Cursor.advance_apply rest), ih (by omega), behind,
        List.takeWhile_cons_of_pos holds, List.length_cons, Nat.add_assoc, Nat.add_comm 1]

/-- The walk that began at `start` ends as the scan of the text from there does: behind a token of
at least one character, all of them inside, or with the same fault. -/
inductive Arrives (all : List Char) (start : Nat) :
    Cursor.Outcome (LexError × Nat) Token → Scan (Token.Kind × Nat) → Prop where
  | token {kind : Token.Kind} {length : Nat} (some : 0 < length)
      (inside : start + length ≤ all.length) :
      Arrives all start
        (.some (.ok (⟨kind, String.ofList ((all.drop start).take length), start⟩, start + length)))
        (.ok (kind, length))
  | fault {cause : LexError} {inside offset : Nat} (there : offset = start + inside) :
      Arrives all start (.some (.error (.fault (cause, offset)))) (.error (cause, inside))

theorem tokenFrom_arrives (some : 0 < n) (inside : start + n ≤ all.length) :
    Arrives all start (tokenFrom start kind all (start + n)) (.ok (kind, n)) := by
  rw [tokenFrom, bind_of_ok (Cursor.since_apply (Nat.le_add_right start n) inside),
    ← List.take_drop]
  exact .token some inside

/-- A loop that begins inside the text ends inside it. -/
theorem inside_of_pass (test : Char → Bool) (inside : pos ≤ all.length) :
    pos + ((all.drop pos).takeWhile test).length ≤ all.length := by
  have long := (List.takeWhile_prefix test (l := all.drop pos)).length_le
  rw [List.length_drop] at long
  omega

theorem word_arrives (rest : all.drop pos = c :: cs) (enough : all.length - pos < turns) :
    Arrives all pos (word pos turns all pos) (.ok (.identifier, Lexer.word (c :: cs))) := by
  obtain ⟨-, behind, inside⟩ := of_drop_eq_cons rest
  have within : pos + 1 + _ ≤ _ := inside_of_pass isWordPart inside
  rw [word, bind_of_ok (Cursor.advance_apply rest), bind_of_ok (pass_apply rfl (by omega))]
  rw [behind, Nat.add_assoc] at within ⊢
  exact tokenFrom_arrives (by omega) within

/-- A minus in front of a zero starts a number where a point and a digit follow. -/
theorem startsNumber_minusZero (cs : List Char) : Lexer.startsNumber ('-' :: '0' :: cs) =
    (cs[0]?.getD '\x00' == '.' && (cs[1]?.getD '\x00').isDigit) := by
  rcases cs with _ | ⟨point, _ | ⟨place, cs⟩⟩
  · rfl
  · simp [Lexer.startsNumber]
  · by_cases same : point = '.'
    · subst same
      rfl
    · simp [Lexer.startsNumber, same]

theorem startsNumber_apply :
    startsNumber all pos = some (.ok (Lexer.startsNumber (all.drop pos), pos)) := by
  rw [startsNumber, bind_of_ok peek_apply]
  generalize rest : all.drop pos = cs
  rcases cs with _ | ⟨c, cs⟩
  · rfl
  rw [List.headD_cons]
  by_cases digit : c.isDigit = true
  · rw [if_pos digit, startsNumber_digit digit]
    rfl
  rw [if_neg digit]
  by_cases minus : c = '-'
  · subst minus
    rw [if_pos (beq_self_eq_true '-'), bind_of_ok (peekAt_apply 1), rest]
    rcases cs with _ | ⟨d, cs⟩
    · rfl
    by_cases zero : d = '0'
    · subst zero
      rw [startsNumber_minusZero]
      show (peekAt 2 >>= _) all pos = _
      rw [bind_of_ok (peekAt_apply 2), bind_of_ok (peekAt_apply 3), rest]
      rfl
    · have nonzero : (d != '0') = true := bne_iff_ne.mpr zero
      simp [Lexer.startsNumber, zero, nonzero]
  · rw [if_neg (by simpa using minus)]
    simp [Lexer.startsNumber, minus, digit]

theorem fraction_arrives (some : 0 < n) (inside : start + n ≤ all.length)
    (enough : all.length - start < turns) : Arrives all start (fraction start turns all (start + n))
      (.ok (if Lexer.fraction (all.drop (start + n)) = 0 then .integer else .decimal,
        n + Lexer.fraction (all.drop (start + n)))) := by
  rw [fraction, bind_of_ok peek_apply, bind_of_ok (peekAt_apply 1)]
  generalize rest : all.drop (start + n) = cs
  have behind := Lexical.behind_fraction cs
  generalize Lexer.fraction cs = length at behind ⊢
  cases behind with
  | @places places cs digits filled apart =>
    obtain ⟨d, ds, rfl⟩ := List.exists_cons_of_ne_nil filled
    obtain ⟨-, behind, inside'⟩ := of_drop_eq_cons rest
    have within : start + n + 1 + _ ≤ _ := inside_of_pass Char.isDigit inside'
    rw [if_pos (by simpa using digits d List.mem_cons_self),
      bind_of_ok (Cursor.advance_apply rest), bind_of_ok (pass_apply rfl (by omega))]
    rw [behind, takeWhile_of digits apart, Nat.add_assoc, Nat.add_assoc] at within ⊢
    rw [if_neg (by omega)]
    exact tokenFrom_arrives (by omega) within
  | none noPlaces =>
    have other : ¬ (cs.headD '\x00' == '.' && (cs[1]?.getD '\x00').isDigit) = true := by
      rcases cs with _ | ⟨point, _ | ⟨place, cs⟩⟩
      · simp
      · simp
      · have noDigit := noPlaces place cs
        simp_all
    rw [if_neg other, if_pos rfl]
    exact tokenFrom_arrives some inside

/-- The sign of a number is passed, and no digit is taken for one. -/
theorem accept_sign {sign whole rest : List Char} (shape : Number (all.drop pos) sign whole rest) :
    ∃ signed, accept '-' all pos = some (.ok (signed, pos + sign.length)) := by
  obtain ⟨split, signed, digits, filled, -⟩ := shape
  obtain ⟨d, ds, rfl⟩ := List.exists_cons_of_ne_nil filled
  rcases signed with rfl | rfl
  · have minus := isDigit_minus (digits d List.mem_cons_self)
    exact ⟨false, accept_no (by simpa [split] using minus)⟩
  · exact ⟨true, accept_yes split⟩

/-- Where a look after the zero shows a digit, it is one of the number. -/
theorem isDigit_behind {ds rest : List Char} (digits : Digits ds)
    (apart : Apart Char.isDigit rest) : ((ds ++ rest).headD '\x00').isDigit = true ↔ ds ≠ [] := by
  rcases ds with _ | ⟨d, ds⟩
  · rcases rest with _ | ⟨c, cs⟩
    · simp
    · simp [apart c rfl]
  · simp [digits d List.mem_cons_self]

theorem number_arrives (starts : Lexer.startsNumber (all.drop pos) = true)
    (enough : all.length - pos < turns) :
    Arrives all pos (number pos turns all pos) (Lexer.number (all.drop pos)) := by
  obtain ⟨sign, whole, rest, shape, -⟩ := number_of_start starts
  obtain ⟨signed, moved⟩ := accept_sign shape
  rw [number_eq shape, number, bind_of_ok moved]
  obtain ⟨split, -, digits, filled, apart⟩ := shape
  have body : all.drop (pos + sign.length) = whole ++ rest := Cursor.drop_of_append split
  have behind := Cursor.drop_of_append body
  have long : all.length - pos = sign.length + (whole.length + rest.length) := by
    rw [← List.length_drop, split, List.length_append, List.length_append]
  have some : 0 < whole.length := List.length_pos_iff.mpr filled
  have arrives : Arrives all pos (fraction pos turns all (pos + (sign.length + whole.length))) _ :=
    fraction_arrives (by omega) (by omega) enough
  rw [← Nat.add_assoc, behind] at arrives
  obtain ⟨d, ds, rfl⟩ := List.exists_cons_of_ne_nil filled
  by_cases zero : d = '0'
  · subst zero
    have others : Digits ds := fun d member => digits d (List.mem_cons_of_mem _ member)
    have second : all.drop (pos + sign.length + 1) = ds ++ rest := (of_drop_eq_cons body).2.1
    rw [bind_of_ok (accept_yes body), if_pos rfl, bind_of_ok peek_apply, second]
    by_cases more : ds = []
    · subst more
      rw [if_neg (mt (isDigit_behind others apart).mp (by simp)), if_neg (by simp)]
      exact arrives
    · have many : 1 < ('0' :: ds).length := Nat.succ_lt_succ (List.length_pos_iff.mpr more)
      rw [if_pos ((isDigit_behind others apart).mpr more), if_pos ⟨rfl, many⟩]
      exact .fault rfl
  · rw [bind_of_ok (accept_no (by simpa [body] using zero)), if_neg Bool.false_ne_true,
      if_neg (by simp [zero]), bind_of_ok (pass_apply rfl (by omega)), body,
      takeWhile_of digits apart]
    exact arrives

/-- A backslash and its letter are passed together. -/
theorem escape_letter (rest : all.drop pos = '\\' :: c :: cs) (letter : c ∈ escapeLetters) :
    escape all pos = some (.ok ((), pos + 2)) := by
  obtain ⟨-, behind, -⟩ := of_drop_eq_cons rest
  rw [escape, bind_of_ok Cursor.place_apply, bind_of_ok (Cursor.advance_apply rest),
    bind_of_ok peek_apply, behind, List.headD_cons, if_pos ((isLetter_iff c).mpr letter),
    bind_of_ok (Cursor.advance_apply behind)]
  rfl

theorem escape_bad (rest : all.drop pos = '\\' :: cs) (bad : NoEscape cs) :
    escape all pos = some (.error (.fault (.invalidEscape cs.head?, pos))) := by
  obtain ⟨-, behind, inside⟩ := of_drop_eq_cons rest
  rw [escape, bind_of_ok Cursor.place_apply, bind_of_ok (Cursor.advance_apply rest),
    bind_of_ok peek_apply, behind]
  rcases cs with _ | ⟨c, cs⟩
  · rw [if_neg (by decide), bind_of_ok Cursor.atEnd_apply, if_pos (by simpa using behind)]
    rfl
  · have goesOn := (of_drop_eq_cons behind).2.2
    rw [List.headD_cons, noEscape_cons bad, if_neg Bool.false_ne_true,
      bind_of_ok Cursor.atEnd_apply, if_neg (by simpa using goesOn)]
    rfl

theorem closeCharacter_arrives : Arrives all start (closeCharacter start all (start + n))
    ((closingQuote n (all.drop (start + n))).map (.character, ·)) := by
  rw [closeCharacter]
  by_cases closes : (all.drop (start + n)).head? = some '\''
  · obtain ⟨after, rest⟩ := List.head?_eq_some_iff.mp closes
    rw [bind_of_ok (accept_yes rest), if_pos rfl, rest]
    exact tokenFrom_arrives (Nat.succ_pos n) (of_drop_eq_cons rest).2.2
  · rw [bind_of_ok (accept_no closes), closingQuote_other closes, if_neg Bool.false_ne_true]
    exact .fault rfl

theorem character_arrives (rest : all.drop pos = '\'' :: cs) :
    Arrives all pos (character pos all pos) ((Lexer.character cs).map (.character, ·)) := by
  obtain ⟨-, behind, inside⟩ := of_drop_eq_cons rest
  rw [character, bind_of_ok (Cursor.advance_apply rest), bind_of_ok peek_apply, behind]
  rcases piece_or_stuck '\'' cs with stuck | ⟨piece, after, inner, rfl⟩
  · cases stuck with
    | quote => exact .fault rfl
    | escape bad =>
      rw [character_escape bad, if_neg (by simp), if_pos (by simp),
        bind_of_error (escape_bad behind bad)]
      exact .fault rfl
    | ends line =>
      rw [character_ends line]
      rcases cs with _ | ⟨c, cs⟩
      · rw [if_neg (by simp), if_neg (by simp), if_neg (by decide), bind_of_ok Cursor.atEnd_apply,
          if_pos (by simpa using behind)]
        exact .fault rfl
      · rcases line c rfl with rfl | rfl <;> exact .fault rfl
  · rw [character_piece inner]
    have moved : Arrives all pos (closeCharacter pos all (pos + (1 + piece.length))) _ :=
      closeCharacter_arrives
    rw [← Nat.add_assoc, Cursor.drop_of_append behind] at moved
    cases inner with
    | @plain c other =>
      obtain ⟨quote, slash, line⟩ := plain_other other
      have goesOn := (of_drop_eq_cons behind).2.2
      rw [if_neg (by simpa using quote), if_neg (by simpa using slash), if_neg (by simp [line]),
        bind_of_ok Cursor.atEnd_apply, if_neg (by simpa using goesOn),
        bind_of_ok (Cursor.advance_apply behind)]
      exact moved
    | @escape c letter =>
      rw [if_neg (by simp), if_pos (by simp), bind_of_ok (escape_letter behind letter)]
      exact moved

/-- One turn of the loop of a string literal, at a character. -/
theorem stringRest_cons (rest : all.drop pos = c :: cs) : stringRest start (turns + 1) all pos =
    (if c == '"' then do
      let _ ← Cursor.advance
      tokenFrom start .string
    else if isLineBreak c then do
      let here ← Cursor.place
      Cursor.fault (.unterminatedString, here)
    else if c == '\\' then do
      escape
      stringRest start turns
    else do
      let _ ← Cursor.advance
      stringRest start turns) all pos := by
  have goesOn := (of_drop_eq_cons rest).2.2
  rw [stringRest, bind_of_ok Cursor.atEnd_apply, if_neg (by simpa using goesOn),
    bind_of_ok peek_apply, rest, List.headD_cons]

/-- A string literal goes on behind each piece of its body. -/
theorem stringRest_piece {piece after : List Char} (inner : Piece '"' piece)
    (rest : all.drop pos = piece ++ after) :
    stringRest start (turns + 1) all pos = stringRest start turns all (pos + piece.length) := by
  cases inner with
  | @plain c other =>
    obtain ⟨quote, slash, line⟩ := plain_other other
    rw [stringRest_cons rest, if_neg (by simpa using quote), if_neg (by simp [line]),
      if_neg (by simpa using slash), bind_of_ok (Cursor.advance_apply rest)]
    rfl
  | @escape c letter =>
    rw [stringRest_cons rest, if_neg (by simp), if_neg (by simp [isLineBreak]), if_pos (by simp),
      bind_of_ok (escape_letter rest letter)]
    rfl

/-- Where no piece goes on the literal is closed, or there is its fault. -/
theorem stringRest_stuck {after : List Char} (stuck : Stuck '"' after)
    (rest : all.drop (start + n) = after) :
    Arrives all start (stringRest start (turns + 1) all (start + n))
      ((Lexer.string n after).map (.string, ·)) := by
  cases stuck with
  | quote =>
    rw [stringRest_cons rest, if_pos (by simp), bind_of_ok (Cursor.advance_apply rest)]
    exact tokenFrom_arrives (Nat.succ_pos n) (of_drop_eq_cons rest).2.2
  | escape bad =>
    rw [string_escape bad, stringRest_cons rest, if_neg (by simp), if_neg (by simp [isLineBreak]),
      if_pos (by simp), bind_of_error (escape_bad rest bad)]
    exact .fault rfl
  | ends line =>
    rw [string_ends line]
    rcases after with _ | ⟨c, cs⟩
    · rw [stringRest, bind_of_ok Cursor.atEnd_apply, if_pos (by simpa using rest)]
      exact .fault rfl
    · rw [stringRest_cons rest]
      rcases line c rfl with rfl | rfl <;> exact .fault rfl

/-- One turn for each piece, of which each has a character. -/
theorem stringRest_arrives {body after : List Char} (inner : Pieces '"' body)
    (stuck : Stuck '"' after) (rest : all.drop (start + n) = body ++ after)
    (enough : all.length - (start + n) < turns) :
    Arrives all start (stringRest start turns all (start + n))
      ((Lexer.string n (body ++ after)).map (.string, ·)) := by
  induction inner generalizing n turns with
  | nil =>
    obtain ⟨turns, rfl⟩ := Nat.exists_eq_add_one_of_ne_zero (Nat.ne_zero_of_lt enough)
    exact stringRest_stuck stuck rest
  | @cons piece body first others ih =>
    obtain ⟨turns, rfl⟩ := Nat.exists_eq_add_one_of_ne_zero (Nat.ne_zero_of_lt enough)
    rw [List.append_assoc] at rest ⊢
    have some : 0 < piece.length := by cases first <;> simp
    have long : all.length - (start + n) = piece.length + (body ++ after).length := by
      rw [← List.length_drop, rest, List.length_append]
    have behind := Cursor.drop_of_append rest
    rw [Nat.add_assoc] at behind
    rw [stringRest_piece first rest, string_piece first, Nat.add_assoc]
    exact ih behind (by omega)

theorem string_arrives (rest : all.drop pos = '"' :: cs) (enough : all.length - pos < turns) :
    Arrives all pos (string pos turns all pos) ((Lexer.string 1 cs).map (.string, ·)) := by
  obtain ⟨body, after, rfl, inner, stuck⟩ := pieces_split '"' cs
  rw [string, bind_of_ok (Cursor.advance_apply rest)]
  exact stringRest_arrives inner stuck (of_drop_eq_cons rest).2.1 (by omega)

theorem operator_pair {d : Char} (known : [c, d] ∈ operatorPairs) (cs : List Char) :
    Lexer.operator (c :: cs) = if cs.head? = some d then 2 else 1 := by
  simp only [operatorPairs, List.mem_cons, List.cons.injEq, and_true, List.not_mem_nil, or_false]
    at known
  rcases cs with _ | ⟨e, cs⟩
  · rcases known with ⟨rfl, rfl⟩ | ⟨rfl, rfl⟩ | ⟨rfl, rfl⟩ | ⟨rfl, rfl⟩ <;> simp [Lexer.operator]
  · by_cases same : e = d
    · subst same
      rcases known with ⟨rfl, rfl⟩ | ⟨rfl, rfl⟩ | ⟨rfl, rfl⟩ | ⟨rfl, rfl⟩ <;> rfl
    · rcases known with ⟨rfl, rfl⟩ | ⟨rfl, rfl⟩ | ⟨rfl, rfl⟩ | ⟨rfl, rfl⟩ <;>
        simp [Lexer.operator, same]

/-- The second character of an operator is taken where it is the next. -/
theorem pair_arrives {d : Char} (known : [c, d] ∈ operatorPairs) (rest : all.drop pos = c :: cs) :
    Arrives all pos ((do
      let _ ← accept d
      tokenFrom pos .operator) all (pos + 1)) (.ok (.operator, Lexer.operator (c :: cs))) := by
  obtain ⟨-, behind, inside⟩ := of_drop_eq_cons rest
  rw [operator_pair known]
  by_cases more : cs.head? = some d
  · obtain ⟨ds, rfl⟩ := List.head?_eq_some_iff.mp more
    rw [bind_of_ok (accept_yes behind), if_pos more]
    exact tokenFrom_arrives Nat.two_pos (of_drop_eq_cons behind).2.2
  · rw [bind_of_ok (accept_no (behind ▸ more)), if_neg more]
    exact tokenFrom_arrives Nat.one_pos inside

theorem operator_arrives (rest : all.drop pos = c :: cs) :
    Arrives all pos (operator pos all pos) (.ok (.operator, Lexer.operator (c :: cs))) := by
  rw [operator, bind_of_ok (Cursor.advance_apply rest)]
  by_cases bang : c = '!'
  · subst bang
    exact pair_arrives (by simp [operatorPairs]) rest
  by_cases equals : c = '='
  · subst equals
    exact pair_arrives (by simp [operatorPairs]) rest
  by_cases ampersand : c = '&'
  · subst ampersand
    exact pair_arrives (by simp [operatorPairs]) rest
  by_cases bar : c = '|'
  · subst bar
    exact pair_arrives (by simp [operatorPairs]) rest
  have one : Lexer.operator (c :: cs) = 1 := by simp [Lexer.operator, bang, equals, ampersand, bar]
  rw [if_neg (by simp [bang, equals]), if_neg (by simpa using ampersand),
    if_neg (by simpa using bar), one]
  exact tokenFrom_arrives Nat.one_pos (of_drop_eq_cons rest).2.2

/-- At every place with a character the walk finds what the scan finds there. -/
theorem token_arrives (inside : pos < all.length) (enough : all.length - pos < turns) :
    Arrives all pos (token turns all pos) (lexeme (all.drop pos)) := by
  obtain ⟨c, cs, rest⟩ := List.exists_cons_of_ne_nil
    (show all.drop pos ≠ [] by simpa using inside)
  have number : startsNumber all pos = some (.ok (Lexer.startsNumber (c :: cs), pos)) := by
    rw [startsNumber_apply, rest]
  rw [token, bind_of_ok Cursor.place_apply, bind_of_ok peek_apply, lexeme, rest, List.headD_cons,
    List.headD_cons]
  by_cases first : isWordStart c = true
  · rw [if_pos first, if_pos first]
    exact word_arrives rest enough
  rw [if_neg first, if_neg first, bind_of_ok number]
  by_cases starts : Lexer.startsNumber (c :: cs) = true
  · rw [if_pos starts, if_pos starts, ← rest]
    exact number_arrives (rest ▸ starts) enough
  rw [if_neg starts, if_neg starts]
  by_cases apostrophe : c = '\''
  · subst apostrophe
    exact character_arrives rest
  by_cases quotation : c = '"'
  · subst quotation
    exact string_arrives rest enough
  rw [if_neg (by simpa using apostrophe), if_neg apostrophe, if_neg (by simpa using quotation),
    if_neg quotation]
  exact operator_arrives rest

def outcome (all : List Char) : Except (LexError × Nat) (List Token) →
    Cursor.Outcome (LexError × Nat) (List Token)
  | .ok ts => some (.ok (ts, all.length))
  | .error fault => some (.error (.fault fault))

/-- One token of the scan, and then those behind it. -/
theorem tokensFrom_cons {length : Nat} (solid : c ∉ blanks) (some : 0 < length)
    (answer : lexeme (c :: cs) = .ok (kind, length)) : tokensFrom pos 0 (c :: cs) =
      (tokensFrom (pos + length) 0 ((c :: cs).drop length)).map
        (⟨kind, String.ofList ((c :: cs).take length), pos⟩ :: ·) := by
  obtain ⟨more, rfl⟩ := Nat.exists_eq_succ_of_ne_zero (Nat.ne_of_gt some)
  rw [tokensFrom, if_neg (mt (isBlank_iff c).mp solid), answer]
  simp only [Nat.succ_eq_add_one, Nat.add_sub_cancel, List.drop_succ_cons]
  rw [tokensFrom_skip, Nat.add_assoc, Nat.add_comm 1]
  cases tokensFrom (pos + (more + 1)) 0 (cs.drop more) <;> rfl

/-- The loop over the text ends with it. A turn passes a blank, or a token of at least one
character, and one more turn finds the end. -/
theorem tokens_apply (inside : pos ≤ all.length) (enough : all.length - pos + 1 < turns) :
    tokens turns all pos = outcome all (tokensFrom pos 0 (all.drop pos)) := by
  induction turns generalizing pos with
  | zero => exact absurd enough (Nat.not_lt_zero _)
  | succ turns ih =>
    rw [tokens, bind_of_ok Cursor.atEnd_apply]
    rcases rest : all.drop pos with _ | ⟨c, cs⟩
    · have stop : all.length ≤ pos := by simpa using rest
      rw [if_pos (by simpa using stop), Nat.le_antisymm inside stop]
      rfl
    obtain ⟨-, behind, goesOn⟩ := of_drop_eq_cons rest
    rw [if_neg (by simpa using goesOn), bind_of_ok peek_apply, rest, List.headD_cons]
    by_cases blank : isBlank c = true
    · rw [if_pos blank, bind_of_ok (Cursor.advance_apply rest), ih goesOn (by omega), behind,
        tokensFrom_blank ((isBlank_iff c).mp blank)]
    have solid : c ∉ blanks := mt (isBlank_iff c).mpr blank
    have arrives : Arrives all pos (token turns all pos) _ := token_arrives goesOn (by omega)
    rw [if_neg blank]
    generalize walked : token turns all pos = found at arrives
    generalize scanned : lexeme (all.drop pos) = answer at arrives
    rw [rest] at scanned
    cases arrives with
    | fault there =>
      rw [bind_of_error walked, tokensFrom_error solid scanned, there]
      rfl
    | @token kind length some within =>
      have others := ih within (by omega)
      rw [bind_of_ok walked, tokensFrom_cons solid some scanned, ← rest, List.drop_drop]
      rw [Cursor.bind_apply, others]
      cases tokensFrom (pos + length) 0 (all.drop (pos + length)) <;> rfl

end Plc.Lexer.Walk

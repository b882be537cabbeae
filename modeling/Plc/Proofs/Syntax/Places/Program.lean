import Plc.Proofs.Lexical.Places
import Plc.Proofs.Syntax.Places

/-!
The walk over the tokens of statements and of whole programs, up to the main statement: whatever the
text and whatever the tokens, the walks end, and they take nothing behind the end.
-/

namespace Plc.Parser.Walk

open Cursor (of_drop_eq_cons)

variable {α : Type} {all ts : List Token} {pos bound limit turns : Nat} {t : Token}

theorem follows_typeAnnotation :
    Follows all bound 0 (fun _ => typeAnnotation) Parser.typeAnnotation :=
  follows_then (follows_accept _) fun _ =>
    follows_ite (follows_then (follows_requireName _).any fun _ => follows_pure _) (follows_pure _)

theorem follows_initializer {walk : Nat → Walk Expr} {p : Parser Expr}
    (value : Follows all bound 0 walk p) :
    Follows all bound 0 (fun turns => initializer (walk turns)) (Parser.initializer p) :=
  follows_then (follows_accept _) fun _ =>
    follows_ite (follows_then value fun _ => follows_pure _) (follows_pure _)

section

variable {value : Parser Expr} (nested : Follows all bound 1 expression value)

include nested

theorem follows_declaration : Follows all bound 1 declaration (Parser.declaration value) := by
  refine follows_first (follows_requireName _) fun name => Follows.near ?_ (Nat.sub_le bound 1)
  refine follows_then follows_typeAnnotation fun typeName => ?_
  refine follows_then (follows_initializer nested.any) fun initial => ?_
  exact follows_ite (follows_then (follows_fail _) fun _ => follows_last _ _ _) (follows_last _ _ _)

theorem follows_returned : Follows all bound 1 returned (Parser.returned value) :=
  follows_first nested fun _ => follows_last _ _ _

theorem follows_assignmentOrExpression :
    Follows all bound 1 assignmentOrExpression (Parser.assignmentOrExpression value) := by
  refine follows_first nested fun e => Follows.near ?_ (Nat.sub_le bound 1)
  refine follows_then (follows_accept _) fun assigns => follows_ite ?_ (follows_last _ _ _)
  exact follows_then nested.any fun assigned => follows_last _ _ _

end

/-- What is done at the end of the tokens, and what in front of one. -/
theorem follows_atEnd {ending further : Nat → Walk α} {p q : Parser α}
    (stop : Follows all bound 0 ending q) (more : Follows all bound 0 further p) :
    Follows all bound 0
      (fun turns => Cursor.atEnd >>= fun c => if c then ending turns else further turns)
      (Parser.nextIs (fun _ => true) >>= fun c => if c then p else q) := by
  intro pos inside near
  have last := stop pos inside near
  have others := more pos inside near
  simp only [Cursor.bind_of_ok Cursor.atEnd_apply, bind_eq]
  by_cases goesOn : pos < all.length
  · obtain ⟨t, ts, rest⟩ := List.exists_cons_of_ne_nil
      (show all.drop pos ≠ [] by simpa using goesOn)
    simp only [decide_eq_false (Nat.not_le.mpr goesOn), rest] at others ⊢
    exact others
  · have rest : all.drop pos = [] := by simpa using goesOn
    simp only [decide_eq_true (Nat.not_lt.mp goesOn), rest] at last ⊢
    exact last

theorem unended_eq {words : List String} (some : words ≠ []) :
    (unended words : Walk α) = fail (.expected .blockEnd) := by
  rw [unended, ← List.getLast?_eq_getElem?, List.getLast?_eq_some_getLast some]

section

variable {p : Parser Stmt} (one : Follows all bound 1 statement p)

include one

/-- A block ends at one of its words, or with a fault at the end of the tokens. Otherwise it goes on
behind a statement, which takes at least one of them. -/
theorem follows_block {words : List String} (some : words ≠ []) {count : Nat}
    (enough : bound ≤ count) : Follows all bound 0 (block words) (Parser.block words p count) := by
  induction count generalizing bound with
  | zero =>
    rw [Nat.le_zero.mp enough]
    exact follows_zero
  | succ count ih =>
    refine follows_turn (fun turns => by rw [block, unended_eq some]) ?_
    refine follows_then (follows_nextIs _) fun stops => follows_ite (follows_pure []) ?_
    refine follows_atEnd (follows_fail _) (follows_first one fun first => ?_).any
    exact follows_then (ih (one.near (Nat.sub_le bound 1)) (by omega)) fun _ => follows_pure _

variable {value : Parser Expr} (nested : Follows all (bound + 1) 1 expression value)

include nested

theorem follows_conditional :
    Follows all (bound + 1) 1 conditional (Parser.conditional (bound + 1) value p) := by
  have enough := Nat.le_succ bound
  refine follows_turn conditional.eq_2 ?_
  refine follows_first nested fun c => follows_then (follows_require _ _).any fun _ => ?_
  refine follows_then (follows_block one (by simp) enough) fun whenTrue => ?_
  refine follows_then (follows_accept _) fun other => follows_ite ?_ ?_
  · exact follows_then (follows_block one (by simp) enough) fun _ => follows_last _ _ _
  · exact follows_then (follows_pure []) fun _ => follows_last _ _ _

theorem follows_loop : Follows all (bound + 1) 1 loop (Parser.loop (bound + 1) value p) := by
  refine follows_turn loop.eq_2 ?_
  refine follows_first nested fun c => follows_then (follows_require _ _).any fun _ => ?_
  exact follows_then (follows_block one (by simp) (Nat.le_succ bound)) fun _ => follows_last _ _ _

omit one nested in
theorem follows_valueCases {body : Parser (List Stmt)} {count : Nat}
    (nested : Follows all bound 1 expression value)
    (inner : Follows all bound 0 (block caseTerminators) body) (enough : bound ≤ count) :
    Follows all bound 0 valueCases (Parser.valueCases value body count) := by
  induction count generalizing bound with
  | zero =>
    rw [Nat.le_zero.mp enough]
    exact follows_zero
  | succ count ih =>
    refine follows_turn valueCases.eq_2 ?_
    refine follows_then (follows_accept _) fun another => follows_ite ?_ (follows_pure [])
    have inner' := inner.near (Nat.sub_le bound 1)
    have others := ih (nested.near (Nat.sub_le bound 1)) inner' (by omega)
    refine (follows_first nested fun e => ?_).any
    refine follows_then (follows_require _ _).any fun _ => follows_then inner' fun body => ?_
    exact follows_then others fun _ => follows_pure _

omit one nested in
theorem follows_defaultCase {body : Parser (List Stmt)}
    (inner : Follows all bound 0 (block caseTerminators) body) :
    Follows all bound 0 defaultCase (Parser.defaultCase body) := by
  refine follows_turn defaultCase.eq_2 ?_
  refine follows_then (follows_accept _) fun another => follows_ite ?_ (follows_pure [])
  refine follows_then inner fun body => follows_then (follows_nextIs _) fun last => ?_
  exact follows_ite (follows_pure _) (follows_fail _)

theorem follows_switch : Follows all (bound + 1) 1 switch (Parser.switch (bound + 1) value p) := by
  have enough := Nat.le_succ bound
  have inner : Follows all bound 0 (block caseTerminators)
      (Parser.block caseTerminators p (bound + 1)) :=
    follows_block one (by simp [caseTerminators]) enough
  refine follows_turn switch.eq_2 ?_
  refine follows_first nested fun c => ?_
  refine follows_then (follows_valueCases (nested.near enough) inner enough) fun cases => ?_
  exact follows_then (follows_defaultCase inner) fun default => follows_last _ _ _

end

theorem follows_statement (all : List Token) (limit : Nat) :
    Follows all limit 1 statement (Parser.statement limit) := by
  induction limit with
  | zero => exact follows_zero
  | succ limit ih =>
    have nested := follows_expression all (limit + 1)
    refine follows_turn statement.eq_2 ?_
    refine follows_then (follows_accept _) fun _ => follows_ite (follows_declaration nested) ?_
    refine follows_then (follows_accept _) fun _ => follows_ite (follows_conditional ih nested) ?_
    refine follows_then (follows_accept _) fun _ => follows_ite (follows_switch ih nested) ?_
    refine follows_then (follows_accept _) fun _ => follows_ite (follows_loop ih nested) ?_
    exact follows_then (follows_accept _) fun _ =>
      follows_ite (follows_returned nested) (follows_assignmentOrExpression nested)

theorem follows_listLiteral (enough : bound ≤ limit) :
    Follows all bound 0 listLiteral (Parser.listLiteral limit) := by
  have nested := (follows_expression all limit).near enough
  refine follows_then (follows_require _ _).any fun _ => ?_
  exact follows_then (follows_expressionsUntil nested "]" enough) fun _ => follows_last _ _ _

theorem follows_globalOf (keyword : String) (enough : bound ≤ limit) :
    Follows all bound 1 (globalOf keyword) (Parser.globalOf limit keyword) := by
  have nested := ((follows_expression all limit).near enough).any
  refine follows_first (follows_requireName _) fun name => Follows.near ?_ (Nat.sub_le bound 1)
  refine follows_then follows_typeAnnotation fun typeName => ?_
  by_cases list : keyword = "LIST"
  · simp only [list, if_true]
    exact follows_then (follows_initializer (follows_listLiteral enough)) fun _ =>
      follows_last _ _ _
  by_cases changing : keyword = "VAR"
  · simp only [changing, String.reduceEq, if_false, if_true]
    exact follows_then (follows_initializer nested) fun _ => follows_last _ _ _
  simp only [list, changing, if_false]
  refine follows_then (follows_require _ _).any fun _ => follows_then nested fun e => ?_
  exact follows_then (follows_pure _) fun _ => follows_last _ _ _

theorem follows_parameter :
    Follows all bound 1 (fun _ => parameter) Parser.parameter := by
  refine follows_first (follows_requireName _) fun name => ?_
  refine follows_then (follows_require _ _).any fun _ => ?_
  exact follows_then (follows_requireName _).any fun _ => follows_pure _

theorem follows_parameterList (enough : bound ≤ limit) :
    Follows all bound 0 parameterList (listUntil ")" Parser.parameter limit) := by
  have several : Follows all bound 1 parameters (separated Parser.parameter limit) :=
    follows_separated parameters.eq_2 follows_parameter enough
  exact follows_then (follows_nextIs _) fun _ => follows_ite (follows_pure []) several.any

theorem follows_function (enough : bound ≤ limit) : Follows all bound 1 function (do
    Parser.requireKeyword "FUN" .declaration
    Parser.function limit) := by
  have one := (follows_statement all limit).near enough
  refine follows_first (follows_require _ _) fun _ => Follows.near ?_ (Nat.sub_le bound 1)
  refine follows_then (follows_requireName _).any fun name => ?_
  refine follows_then (follows_require _ _).any fun _ => ?_
  refine follows_then (follows_parameterList enough) fun parameters => ?_
  refine follows_then (follows_require _ _).any fun _ => ?_
  refine follows_then follows_typeAnnotation fun type => ?_
  refine follows_then (follows_require _ _).any fun _ => ?_
  exact follows_then (follows_block one (by simp) enough) fun _ => follows_last _ _ _

theorem declarations_nil (late : Bool) (rest : all.drop pos = []) :
    declarations late (turns + 1) all pos = some (.ok (⟨[], []⟩, pos)) := by
  rw [declarations, Cursor.bind_of_ok Cursor.atEnd_apply, if_pos (by simpa using rest)]
  rfl

/-- What is done in front of a token, by its keyword. -/
theorem declarations_cons (late : Bool) (rest : all.drop pos = t :: ts) :
    declarations late (turns + 1) all pos =
      if globalKeywords.any t.isKeyword then
        (if late then fail .globalAfterFunction else do
          let first ← global turns
          let others ← declarations late turns
          pure ⟨first :: others.globals, others.functions⟩ : Walk Program) all pos
      else if t.isKeyword "FUN" then
        (do
          let first ← function turns
          let others ← declarations true turns
          pure ⟨others.globals, first :: others.functions⟩ : Walk Program) all pos
      else (fail (.expected .declaration) : Walk Program) all pos := by
  have goesOn := (of_drop_eq_cons rest).2.2
  rw [declarations, Cursor.bind_of_ok Cursor.atEnd_apply, if_neg (by simpa using goesOn),
    nextIs_cons rest, nextIs_cons rest]

theorem isKeyword_global_of_fun (starts : t.isKeyword "FUN" = true) :
    globalKeywords.any t.isKeyword = false := by
  simp [globalKeywords, isKeyword_other starts]

/-- The functions in front of a token, by its keyword. -/
theorem functions_cons (limit count : Nat) (t : Token) (ts : List Token) :
    functions limit (count + 1) (t :: ts) =
      if t.isKeyword "FUN" then (do
        let first ← Parser.function limit
        let others ← functions limit count
        pure (first :: others)) ts
      else if globalKeywords.any t.isKeyword then .error ⟨.globalAfterFunction, t :: ts⟩
      else .error ⟨.expected .declaration, t :: ts⟩ := by
  rw [functions, Parser.acceptKeyword]
  cases starts : t.isKeyword "FUN" with
  | true => rw [Parser.bind_of_ok (Parser.accept_yes starts), if_pos rfl, if_pos rfl]
  | false =>
    have other : (t :: ts).head?.any (·.isKeyword "FUN") = false := starts
    rw [Parser.bind_of_ok (Parser.accept_no other)]
    simp only [Bool.false_eq_true, if_false, bind_eq, Parser.nextIs, List.head?_cons,
      Option.any_some]
    cases globalKeywords.any t.isKeyword <;> rfl

/-- The keyword of a function is seen twice by the walk and once by the parser. -/
theorem functions_fun {limit count : Nat} (starts : t.isKeyword "FUN" = true) :
    functions limit (count + 1) (t :: ts) = (do
      let first ← (do
        Parser.requireKeyword "FUN" .declaration
        Parser.function limit)
      let others ← functions limit count
      pure (first :: others)) (t :: ts) := by
  rw [functions_cons, if_pos starts, bind_assoc, Parser.requireKeyword,
    Parser.bind_of_ok (require_yes starts)]

theorem follows_functions {count : Nat} (enough : bound ≤ count) (deep : bound ≤ limit) :
    Follows all bound 0 (declarations true) (do
      let fs ← functions limit count
      pure ⟨[], fs⟩) := by
  induction count generalizing bound with
  | zero =>
    rw [Nat.le_zero.mp enough]
    exact follows_zero
  | succ count ih =>
    intro pos inside near
    refine settles_turn ?_
    rcases rest : all.drop pos with _ | ⟨t, ts⟩
    · simp only [declarations_nil true rest]
      exact settles_of_arrives (arrives_here rest inside)
    simp only [declarations_cons true rest, bind_eq]
    cases starts : t.isKeyword "FUN" with
    | true =>
      have others : Follows all (bound - 1) 0 (declarations true) _ := ih (by omega) (by omega)
      have turn : Follows all bound 1 (fun turns => (do
          let first ← function turns
          let others ← declarations true turns
          pure ⟨others.globals, first :: others.functions⟩ : Walk Program)) _ :=
        follows_first (follows_function deep) fun first =>
          follows_then others fun found =>
            follows_pure (Program.mk found.globals (first :: found.functions))
      have settles := turn.any pos inside near
      simp only [isKeyword_global_of_fun starts, Bool.false_eq_true, if_false, if_true]
      rw [functions_fun starts, ← bind_eq]
      rw [rest] at settles
      simpa only [bind_assoc, pure_bind] using settles
    | false =>
      rw [functions_cons, starts]
      cases globalKeywords.any t.isKeyword with
      | true =>
        simp only [if_true, Bool.false_eq_true, if_false, fail_apply, rest]
        exact settles_of_arrives (.fault rfl)
      | false =>
        simp only [Bool.false_eq_true, if_false, fail_apply, rest]
        exact settles_of_arrives (.fault rfl)

/-- In front of no global it does not matter whether one could come. -/
theorem declarations_late (late : Bool)
    (other : (all.drop pos).head?.any (fun t => globalKeywords.any t.isKeyword) = false) :
    declarations late turns all pos = declarations true turns all pos := by
  cases turns with
  | zero => rfl
  | succ turns => ?_
  rcases rest : all.drop pos with _ | ⟨t, ts⟩
  · rw [declarations_nil late rest, declarations_nil true rest]
  · rw [rest, List.head?_cons, Option.any_some] at other
    rw [declarations_cons late rest, declarations_cons true rest, other, if_neg Bool.false_ne_true,
      if_neg Bool.false_ne_true]

/-- No global is found in front of other tokens. -/
theorem globals_none {count : Nat}
    (other : ts.head?.any (fun t => globalKeywords.any t.isKeyword) = false) :
    globals limit (count + 1) ts = .ok ([], ts) := by
  have none : globalKeyword ts = .ok (none, ts) := by
    rcases ts with _ | ⟨t, ts⟩
    · rfl
    · rw [List.head?_cons, Option.any_some] at other
      rw [globalKeyword, other, if_neg Bool.false_ne_true]
  rw [globals, Parser.bind_of_ok none]
  rfl

/-- A global and those behind it. -/
theorem globals_some {count : Nat} (starts : globalKeywords.any t.isKeyword = true) :
    globals limit (count + 1) (t :: ts) = (do
      let first ← Parser.globalOf limit t.text
      let others ← globals limit count
      pure (first :: others)) ts := by
  have some : globalKeyword (t :: ts) = .ok (some t.text, ts) := by
    rw [globalKeyword, starts, if_pos rfl]
  rw [globals, Parser.bind_of_ok some]

theorem follows_declarations {count last : Nat} (enough : bound ≤ count) (enough' : bound ≤ last)
    (deep : bound ≤ limit) : Follows all bound 0 (declarations false) (do
      let gs ← globals limit count
      let fs ← functions limit last
      pure ⟨gs, fs⟩) := by
  induction count generalizing bound with
  | zero =>
    rw [Nat.le_zero.mp enough]
    exact follows_zero
  | succ count ih =>
    intro pos inside near
    cases starts : (all.drop pos).head?.any fun t => globalKeywords.any t.isKeyword with
    | false =>
      simp only [declarations_late false starts, Parser.bind_of_ok (globals_none starts)]
      exact follows_functions enough' deep pos inside near
    | true =>
      refine settles_turn ?_
      rcases rest : all.drop pos with _ | ⟨t, ts⟩
      · rw [rest] at starts
        cases starts
      rw [rest, List.head?_cons, Option.any_some] at starts
      obtain ⟨-, behind, inside'⟩ := of_drop_eq_cons rest
      have one : Follows all (bound - 1) 1 (globalOf t.text) (Parser.globalOf limit t.text) :=
        follows_globalOf t.text (by omega)
      have others : Follows all (bound - 1) 0 (declarations false) _ :=
        ih (by omega) (by omega) (by omega)
      have turn : Follows all (bound - 1) 0 (fun turns => (do
          let first ← globalOf t.text turns
          let others ← declarations false turns
          pure ⟨first :: others.globals, others.functions⟩ : Walk Program)) _ :=
        follows_then one.any fun first =>
          follows_then others fun found =>
            follows_pure (Program.mk (first :: found.globals) found.functions)
      have settles := (turn (pos + 1) inside' (by omega)).mono (Nat.le_succ pos)
      simp only [declarations_cons false rest, starts, if_true, Bool.false_eq_true, if_false,
        global, bind_assoc, advance_bind rest]
      rw [bind_eq, globals_some starts, ← bind_eq]
      rw [behind] at settles
      simpa only [bind_assoc, pure_bind, Nat.add_zero] using settles

def outcome (all : List Token) : Except (ParseError × Nat) Program →
    Cursor.Outcome (ParseError × Nat) Program
  | .ok p => some (.ok (p, all.length))
  | .error fault => some (.error (.fault fault))

/-- The walk over all tokens ends, and a program is found behind the last of them. -/
theorem program_apply (all : List Token) :
    ∃ enough, ∀ turns ≥ enough, program turns all 0 = outcome all (Program.ofTokens all) := by
  have deep : all.length < all.length + 1 := Nat.lt_succ_self _
  have follows : Follows all (all.length + 1) 0 program (Parser.program (all.length + 1)) :=
    follows_declarations (Nat.le_refl _) (Nat.le_refl _) (Nat.le_refl _)
  obtain ⟨enough, arrives⟩ := follows 0 (Nat.zero_le _) (by omega)
  refine ⟨enough, fun turns more => ?_⟩
  have arrives : Arrives all 0 (program turns all 0) (Parser.program (all.length + 1) all) :=
    arrives turns more
  rw [Program.ofTokens]
  generalize read : Parser.program (all.length + 1) all = answer at arrives
  generalize program turns all 0 = found at arrives
  cases arrives with
  | fault there => rw [there, outcome]
  | @found p next onward inside =>
    have none : all.drop next = [] := program_all deep read
    have last : next = all.length := Nat.le_antisymm inside (by simpa using none)
    rw [last, outcome]

end Plc.Parser.Walk

namespace Plc

/-- Whatever the text, the walk over it ends if it has turns enough, takes no character where there
is none and finds the tokens of the text; a token begun inside the text has at least one character.
Whatever the tokens, the walk over them ends, takes no token where there is none, and finds their
program, or its fault, and a program only behind the last of them; a statement or an expression has
at least one token. -/
theorem walks_inside (source : String) (ts : List Token) :
    (∀ turns > source.length + 1, Lexer.Walk.tokens turns source.toList 0 =
      Lexer.Walk.outcome source.toList (Token.ofSource source)) ∧
    (∀ pos < source.length, ∀ turns > source.length - pos,
      Lexer.Walk.Arrives source.toList pos (Lexer.Walk.token turns source.toList pos)
        (Lexer.lexeme (source.toList.drop pos))) ∧
    (∃ enough, ∀ turns ≥ enough, Parser.Walk.program turns ts 0 =
      Parser.Walk.outcome ts (Program.ofTokens ts)) ∧
    ∀ pos limit, pos ≤ ts.length → ts.length < pos + limit →
      (∃ enough, ∀ turns ≥ enough, Parser.Walk.Arrives ts (pos + 1)
        (Parser.Walk.statement turns ts pos) (Parser.statement limit (ts.drop pos))) ∧
      ∃ enough, ∀ turns ≥ enough, Parser.Walk.Arrives ts (pos + 1)
        (Parser.Walk.expression turns ts pos) (Parser.expression limit (ts.drop pos)) := by
  refine ⟨fun turns enough => ?_, fun pos inside turns enough => ?_,
    Parser.Walk.program_apply ts, fun pos limit inside near => ⟨?_, ?_⟩⟩
  · exact Lexer.Walk.tokens_apply (Nat.zero_le _) (by rwa [String.length_toList])
  · rw [← String.length_toList] at inside enough
    exact Lexer.Walk.token_arrives inside enough
  · exact Parser.Walk.follows_statement ts limit pos inside near
  · exact Parser.Walk.follows_expression ts limit pos inside near

/-- The text ends inside a string, with the character that a look behind the end shows too. The
tokens are in no order, and they start no program; from the second on there is a statement. -/
theorem walks_inside_zero :
    6 > "a \"\x00".length + 1 ∧
      Lexer.Walk.tokens 6 "a \"\x00".toList 0 = some (.error (.fault (.unterminatedString, 4))) ∧
      0 < "a \"\x00".length ∧ 6 > "a \"\x00".length - 0 ∧
      Lexer.Walk.token 6 "a \"\x00".toList 0 = some (.ok (⟨.identifier, "a", 0⟩, 1)) ∧
      ∃ ts : List Token,
        (∃ turns, Parser.Walk.program turns ts 0 =
          some (.error (.fault (.expected .declaration, 7)))) ∧
        1 ≤ ts.length ∧ ts.length < 1 + 3 ∧
        (∃ turns, Parser.Walk.statement turns ts 1 =
          some (.ok (.expression (.access "x" none none), 3))) ∧
        ∃ turns, Parser.Walk.expression turns ts 1 = some (.ok (.access "x" none none, 2)) := by
  have inside : 0 < "a \"\x00".length := by decide
  obtain ⟨text, first, ⟨many, tokens⟩, onward⟩ := walks_inside "a \"\x00"
    [⟨.operator, ")", 7⟩, ⟨.identifier, "x", 9⟩, ⟨.operator, ";", 2⟩]
  obtain ⟨⟨many', statement⟩, many'', expression⟩ := onward 1 3 (by decide) (by decide)
  have enough : 6 > "a \"\x00".length - 0 := by decide
  refine ⟨by decide, text 6 (by decide), inside, enough, ?_, _,
    ⟨many, tokens many (Nat.le_refl _)⟩, by decide, by decide, ⟨many', ?_⟩, many'', ?_⟩
  · have arrives := first 0 inside 6 enough
    generalize Lexer.Walk.token 6 "a \"\x00".toList 0 = found at arrives ⊢
    cases arrives
    rfl
  · have read : Parser.statement 3 [⟨.identifier, "x", 9⟩, ⟨.operator, ";", 2⟩] =
        .ok (.expression (.access "x" none none), []) := by rfl
    have arrives := statement many' (Nat.le_refl _)
    rw [List.drop_one, List.tail_cons, read] at arrives
    exact arrives.eq_of_ok
  · have read : Parser.expression 3 [⟨.identifier, "x", 9⟩, ⟨.operator, ";", 2⟩] =
        .ok (.access "x" none none, [⟨.operator, ";", 2⟩]) := by rfl
    have arrives := expression many'' (Nat.le_refl _)
    rw [List.drop_one, List.tail_cons, read] at arrives
    exact arrives.eq_of_ok

end Plc

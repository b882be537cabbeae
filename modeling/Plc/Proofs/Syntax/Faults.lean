import Plc.Proofs.Literals
import Plc.Proofs.Syntax.Prefix

/-!
What a fault says of its place. The parser finds a literal badly written only at a token whose kind
is that of a literal and that denotes none. No source text has such a token.
-/

namespace Plc

namespace Parser

def literalCause : ParseError → Bool
  | .invalidInteger _ | .invalidDecimal _ | .invalidCharacter => true
  | _ => false

/-- Where the text of a literal is found wrong, there is one that denotes nothing. -/
def Fault.Honest (fault : Fault) : Prop :=
  literalCause fault.cause = true →
    ∃ t rest, fault.rest = t :: rest ∧ t.kind ∈ Token.literalKinds ∧ ∀ l, ¬ Grammar.LiteralOf t l

variable {α β : Type}

def Honest (p : Parser α) : Prop := ∀ ts fault, p ts = .error fault → fault.Honest

theorem honest_pure (a : α) : Honest (pure a) := by
  intro ts fault failed
  cases failed

theorem honest_fail {cause : ParseError} (other : literalCause cause = false) :
    Honest (fail cause : Parser α) := by
  intro ts fault failed literal
  cases failed
  rw [other] at literal
  cases literal

theorem honest_bind {p : Parser α} {q : α → Parser β} (first : Honest p)
    (others : ∀ a, Honest (q a)) : Honest (p >>= q) := by
  intro ts fault failed
  rw [bind_eq] at failed
  cases read : p ts with
  | error found =>
    rw [read] at failed
    cases failed
    exact first ts _ read
  | ok found =>
    rw [read] at failed
    exact others found.1 found.2 fault failed

theorem honest_ite {c : Bool} {p q : Parser α} (yes : Honest p) (no : Honest q) :
    Honest (if c then p else q) := by
  cases c with
  | true => exact yes
  | false => exact no

section

variable (test : Token → Bool) (text : String) (what : Wanted)

theorem honest_nextIs : Honest (nextIs test) := by
  intro ts fault failed
  cases failed

theorem honest_accept : Honest (accept test) := by
  intro ts fault failed
  cases ts with
  | nil => cases failed
  | cons t ts =>
    simp only [accept] at failed
    split at failed <;> cases failed

theorem honest_acceptOperator : Honest (acceptOperator text) := honest_accept _

theorem honest_acceptKeyword : Honest (acceptKeyword text) := honest_accept _

theorem honest_expected (rest : List Token) : Fault.Honest ⟨.expected what, rest⟩ :=
  fun literal => nomatch literal

theorem honest_require : Honest (require test what) := by
  intro ts fault failed
  cases ts with
  | nil =>
    cases failed
    exact honest_expected what []
  | cons t ts =>
    simp only [require] at failed
    split at failed
    · cases failed
    · cases failed
      exact honest_expected what (t :: ts)

theorem honest_requireOperator : Honest (requireOperator text what) := honest_require _ what

theorem honest_requireKeyword : Honest (requireKeyword text what) := honest_require _ what

theorem honest_requireName : Honest (requireName what) := by
  intro ts fault failed
  cases ts with
  | nil =>
    cases failed
    exact honest_expected what []
  | cons t ts =>
    simp only [requireName] at failed
    split at failed
    · cases failed
    · cases failed
      exact honest_expected what (t :: ts)

/-- Something read and then a token that must follow it. -/
theorem honest_closed {p : Parser Unit} (closing : Honest p) (b : β) :
    Honest (do p; pure b) :=
  honest_bind closing fun _ => honest_pure b

end

theorem honest_separated {item : Parser α} (one : Honest item) (limit : Nat) :
    Honest (separated item limit) := by
  induction limit with
  | zero => exact honest_pure []
  | succ limit ih =>
    refine honest_bind one fun first => honest_bind (honest_acceptOperator ",") fun comma => ?_
    exact honest_ite (honest_bind ih fun others => honest_pure _) (honest_pure _)

theorem honest_listUntil (closing : String) {item : Parser α} (one : Honest item) (limit : Nat) :
    Honest (listUntil closing item limit) :=
  honest_bind (honest_nextIs _) fun _ => honest_ite (honest_pure []) (honest_separated one limit)

theorem honest_operatorOf (table : List Operator) : Honest (operatorOf table) := by
  intro ts fault failed
  cases ts with
  | nil => cases failed
  | cons t ts =>
    simp only [operatorOf] at failed
    split at failed <;> cases failed

theorem honest_ordering (t : Token) (strict inclusive : Operator) :
    Honest (orderingOperator t strict inclusive) := by
  intro ts fault failed
  cases ts with
  | nil => cases failed
  | cons next ts =>
    simp only [orderingOperator] at failed
    split at failed <;> cases failed

theorem honest_comparing : Honest comparingOperator := by
  intro ts fault failed
  cases ts with
  | nil => cases failed
  | cons t ts =>
    simp only [comparingOperator] at failed
    split at failed
    · cases failed
    split at failed
    · cases failed
    split at failed
    · exact honest_ordering _ _ _ ts fault failed
    split at failed
    · exact honest_ordering _ _ _ ts fault failed
    · cases failed

theorem honest_chain {operator : Parser (Option Operator)} {operand : Parser Expr}
    (between : Honest operator) (one : Honest operand) (limit : Nat) (left : Expr) :
    Honest (chain operator operand limit left) := by
  induction limit generalizing left with
  | zero => exact honest_pure left
  | succ limit ih =>
    refine honest_bind between fun found => ?_
    cases found with
    | none => exact honest_pure left
    | some op => exact honest_bind one fun right => ih _

theorem honest_layer {operator : Parser (Option Operator)} {operand : Parser Expr} (limit : Nat)
    (between : Honest operator) (one : Honest operand) :
    Honest (layer limit operator operand) :=
  honest_bind one fun first => honest_chain between one limit first

theorem honest_layers {value : Parser Expr} (limit : Nat) (one : Honest value) :
    Honest (layers limit value) := by
  apply honest_layer limit (honest_operatorOf _)
  apply honest_layer limit honest_comparing
  apply honest_layer limit (honest_operatorOf _)
  exact honest_layer limit (honest_operatorOf _) one

section

variable {value : Parser Expr} (nested : Honest value)

include nested

theorem honest_named (limit : Nat) (name : String) : Honest (named limit value name) := by
  refine honest_bind (honest_acceptOperator "(") fun opens => honest_ite ?_ ?_
  · refine honest_bind (honest_listUntil ")" nested limit) fun arguments => ?_
    exact honest_closed (honest_requireOperator _ _) _
  · refine honest_bind (honest_acceptOperator "[") fun opens => honest_ite ?_ (honest_pure _)
    exact honest_bind nested fun index => honest_closed (honest_requireOperator _ _) _

theorem honest_group : Honest (group value) :=
  honest_bind nested fun _ => honest_closed (honest_requireOperator _ _) _

omit nested in
/-- A token of these kinds denotes what its text is read as. -/
theorem text_of_literalOf {t : Token} {l : Literal} (denotes : Grammar.LiteralOf t l) :
    (t.kind = .integer → Literal.ofInteger? t.text = some l) ∧
      (t.kind = .decimal → Literal.ofDecimal? t.text = some l) ∧
      (t.kind = .character → Literal.ofCharacter? t.text = some l) := by
  cases denotes with
  | nil word | yes word | no word =>
    simp only [Token.isKeyword, Bool.and_eq_true, beq_iff_eq] at word
    simp [word]
  | integer kind text =>
    simpa [kind] using Literal.ofInteger?_eq_some_iff.mpr ⟨_, text, rfl⟩
  | decimal kind text =>
    simpa [kind] using Literal.ofDecimal?_eq_some_iff.mpr ⟨_, text, rfl⟩
  | character kind between text =>
    simpa [kind] using Literal.ofCharacter?_eq_some_iff.mpr ⟨_, _, between, text, rfl⟩
  | string kind => simp [kind]

omit nested in
/-- The one place where the text of a literal is found wrong. -/
theorem honest_literal {t : Token} {l : Option Literal} {cause : ParseError}
    (kind : t.kind ∈ Token.literalKinds) (only : ∀ m, Grammar.LiteralOf t m → l = some m)
    (ts : List Token) (fault : Fault) (failed : literal l cause t ts = .error fault) :
    fault.Honest := by
  cases l with
  | some l => cases failed
  | none =>
    cases failed
    intro _
    refine ⟨t, ts, rfl, kind, fun m denotes => ?_⟩
    cases only m denotes

theorem honest_primary (limit : Nat) : Honest (primary limit value) := by
  intro ts fault failed
  cases ts with
  | nil =>
    cases failed
    exact honest_expected _ []
  | cons t ts =>
    simp only [primary] at failed
    split at failed
    · split at failed
      · cases failed
      · exact honest_named nested limit t.text ts fault failed
    · next kind =>
      exact honest_literal (by simp [kind, Token.literalKinds])
        (fun m denotes => (text_of_literalOf denotes).1 kind) ts fault failed
    · next kind =>
      exact honest_literal (by simp [kind, Token.literalKinds])
        (fun m denotes => (text_of_literalOf denotes).2.1 kind) ts fault failed
    · next kind =>
      exact honest_literal (by simp [kind, Token.literalKinds])
        (fun m denotes => (text_of_literalOf denotes).2.2 kind) ts fault failed
    · cases failed
    · split at failed
      · exact honest_group nested ts fault failed
      · cases failed
        exact honest_expected _ _

end

theorem honest_expression (limit : Nat) : Honest (expression limit) := by
  induction limit with
  | zero => exact honest_fail rfl
  | succ limit ih => exact honest_layers _ (honest_primary ih _)

theorem honest_typeAnnotation : Honest typeAnnotation :=
  honest_bind (honest_acceptOperator ":") fun _ =>
    honest_ite (honest_bind (honest_requireName _) fun _ => honest_pure _) (honest_pure _)

theorem honest_initializer {value : Parser Expr} (one : Honest value) :
    Honest (initializer value) :=
  honest_bind (honest_acceptOperator "=") fun _ =>
    honest_ite (honest_bind one fun _ => honest_pure _) (honest_pure _)

theorem honest_block (words : List String) {statement : Parser Stmt} (one : Honest statement)
    (limit : Nat) : Honest (block words statement limit) := by
  induction limit with
  | zero => exact honest_fail rfl
  | succ limit ih =>
    refine honest_bind (honest_nextIs _) fun stops => honest_ite (honest_pure []) ?_
    refine honest_bind (honest_nextIs _) fun more => honest_ite ?_ (honest_fail rfl)
    exact honest_bind one fun first => honest_bind ih fun others => honest_pure _

section

variable {limit : Nat} {value : Parser Expr} {statement : Parser Stmt}

theorem honest_declaration (nested : Honest value) : Honest (declaration value) := by
  refine honest_bind (honest_requireName _) fun name => ?_
  refine honest_bind honest_typeAnnotation fun typeName => ?_
  refine honest_bind (honest_initializer nested) fun initial => ?_
  have last := honest_closed (honest_requireOperator ";" .localEnd)
    (Stmt.declaration name typeName initial none)
  exact honest_ite (honest_bind (honest_fail rfl) fun _ => last) last

theorem honest_conditional (nested : Honest value) (one : Honest statement) :
    Honest (conditional limit value statement) := by
  refine honest_bind nested fun c => honest_bind (honest_requireKeyword _ _) fun _ => ?_
  refine honest_bind (honest_block _ one limit) fun whenTrue => ?_
  refine honest_bind (honest_acceptKeyword "ELSE") fun other => ?_
  have last (whenFalse : List Stmt) := honest_closed (honest_requireKeyword "END" .ifClosing)
    (Stmt.conditional c whenTrue whenFalse)
  exact honest_ite (honest_bind (honest_block _ one limit) last) (honest_bind (honest_pure []) last)

theorem honest_valueCases {body : Parser (List Stmt)} (nested : Honest value) (inner : Honest body)
    (limit : Nat) : Honest (valueCases value body limit) := by
  induction limit with
  | zero => exact honest_pure []
  | succ limit ih =>
    refine honest_bind (honest_acceptKeyword "CASE") fun another => honest_ite ?_ (honest_pure [])
    refine honest_bind nested fun e => honest_bind (honest_requireOperator _ _) fun _ => ?_
    exact honest_bind inner fun ss => honest_bind ih fun others => honest_pure _

theorem honest_defaultCase {body : Parser (List Stmt)} (inner : Honest body) :
    Honest (defaultCase body) := by
  refine honest_bind (honest_acceptKeyword "DEFAULT") fun another =>
    honest_ite ?_ (honest_pure [])
  refine honest_bind inner fun ss => honest_bind (honest_nextIs _) fun last => ?_
  exact honest_ite (honest_pure _) (honest_fail rfl)

theorem honest_switch (nested : Honest value) (one : Honest statement) :
    Honest (switch limit value statement) := by
  have inner := honest_block caseTerminators one limit
  refine honest_bind nested fun c => ?_
  refine honest_bind (honest_valueCases nested inner limit) fun arms => ?_
  refine honest_bind (honest_defaultCase inner) fun default => ?_
  exact honest_closed (honest_requireKeyword _ _) _

theorem honest_loop (nested : Honest value) (one : Honest statement) :
    Honest (loop limit value statement) := by
  refine honest_bind nested fun c => honest_bind (honest_requireKeyword _ _) fun _ => ?_
  refine honest_bind (honest_block _ one limit) fun body => ?_
  exact honest_closed (honest_requireKeyword _ _) _

theorem honest_returned (nested : Honest value) : Honest (returned value) :=
  honest_bind nested fun _ => honest_closed (honest_requireOperator _ _) _

theorem honest_assignmentOrExpression (nested : Honest value) :
    Honest (assignmentOrExpression value) := by
  refine honest_bind nested fun e => honest_bind (honest_acceptOperator "=") fun equals => ?_
  apply honest_ite
  · exact honest_bind nested fun assigned => honest_closed (honest_requireOperator _ _) _
  · exact honest_closed (honest_requireOperator _ _) _

end

theorem honest_statement (limit : Nat) : Honest (statement limit) := by
  induction limit with
  | zero => exact honest_fail rfl
  | succ limit ih =>
    have nested := honest_expression (limit + 1)
    refine honest_bind (honest_acceptKeyword "LET") fun _ =>
      honest_ite (honest_declaration nested) ?_
    refine honest_bind (honest_acceptKeyword "IF") fun _ =>
      honest_ite (honest_conditional nested ih) ?_
    refine honest_bind (honest_acceptKeyword "SWITCH") fun _ =>
      honest_ite (honest_switch nested ih) ?_
    refine honest_bind (honest_acceptKeyword "WHILE") fun _ =>
      honest_ite (honest_loop nested ih) ?_
    exact honest_bind (honest_acceptKeyword "RETURN") fun _ =>
      honest_ite (honest_returned nested) (honest_assignmentOrExpression nested)

section

variable {limit : Nat}

theorem honest_listLiteral : Honest (listLiteral limit) := by
  refine honest_bind (honest_requireOperator _ _) fun _ => ?_
  refine honest_bind (honest_listUntil "]" (honest_expression limit) limit) fun elements => ?_
  exact honest_closed (honest_requireOperator _ _) _

theorem honest_globalOf (keyword : String) : Honest (globalOf limit keyword) := by
  have nested := honest_expression limit
  refine honest_bind (honest_requireName _) fun name => ?_
  refine honest_bind honest_typeAnnotation fun typeName => ?_
  have last (value : Option Expr) := honest_closed (honest_requireOperator ";" .globalEnd)
    (Global.mk name typeName (keyword != "VAL") (keyword == "LIST") value none)
  by_cases list : keyword = "LIST"
  · rw [if_pos list]
    exact honest_bind (honest_initializer honest_listLiteral) last
  by_cases changing : keyword = "VAR"
  · rw [if_neg list, if_pos changing]
    exact honest_bind (honest_initializer nested) last
  · rw [if_neg list, if_neg changing]
    refine honest_bind (honest_requireOperator _ _) fun _ => honest_bind nested fun e => ?_
    exact honest_bind (honest_pure _) last

theorem honest_parameter : Honest parameter := by
  refine honest_bind (honest_requireName _) fun name => ?_
  refine honest_bind (honest_requireOperator _ _) fun _ => ?_
  exact honest_bind (honest_requireName _) fun _ => honest_pure _

theorem honest_function : Honest (function limit) := by
  refine honest_bind (honest_requireName _) fun name => ?_
  refine honest_bind (honest_requireOperator _ _) fun _ => ?_
  refine honest_bind (honest_listUntil ")" honest_parameter limit) fun parameters => ?_
  refine honest_bind (honest_requireOperator _ _) fun _ => ?_
  refine honest_bind honest_typeAnnotation fun type => ?_
  refine honest_bind (honest_requireKeyword _ _) fun _ => ?_
  refine honest_bind (honest_block _ (honest_statement limit) limit) fun body => ?_
  exact honest_closed (honest_requireKeyword _ _) _

theorem honest_globalKeyword : Honest globalKeyword := by
  intro ts fault failed
  cases ts with
  | nil => cases failed
  | cons t ts =>
    simp only [globalKeyword] at failed
    split at failed <;> cases failed

theorem honest_globals (count : Nat) : Honest (globals limit count) := by
  induction count with
  | zero => exact honest_pure []
  | succ count ih =>
    refine honest_bind honest_globalKeyword fun found => ?_
    cases found with
    | none => exact honest_pure []
    | some keyword =>
      exact honest_bind (honest_globalOf keyword) fun first =>
        honest_bind ih fun others => honest_pure _

theorem honest_functions (count : Nat) : Honest (functions limit count) := by
  induction count with
  | zero => exact honest_pure []
  | succ count ih =>
    refine honest_bind (honest_acceptKeyword "FUN") fun another => honest_ite ?_ ?_
    · exact honest_bind honest_function fun first => honest_bind ih fun others => honest_pure _
    · refine honest_bind (honest_nextIs _) fun late => honest_ite (honest_fail rfl) ?_
      exact honest_bind (honest_nextIs _) fun left => honest_ite (honest_fail rfl) (honest_pure [])

theorem honest_program : Honest (program limit) :=
  honest_bind (honest_globals limit) fun _ =>
    honest_bind (honest_functions limit) fun _ => honest_pure _

end

end Parser

/-- Where every token of a literal's kind denotes one, no error is about how one is written. -/
theorem Program.ofTokens_honest {ts : List Token} {cause : ParseError} {offset : Nat}
    (denoting : ∀ t ∈ ts, t.kind ∈ Token.literalKinds → ∃ value, Grammar.LiteralOf t value)
    (failed : Program.ofTokens ts = .error (cause, offset)) :
    Parser.literalCause cause = false := by
  rw [Program.ofTokens] at failed
  cases answer : Parser.program (ts.length + 1) ts with
  | ok found =>
    rw [answer] at failed
    cases failed
  | error fault =>
    rw [answer] at failed
    obtain ⟨cause, rest⟩ := fault
    cases failed
    apply Bool.eq_false_iff.mpr
    intro literal
    obtain ⟨t, others, rfl, kind, none⟩ := Parser.honest_program ts _ answer literal
    obtain ⟨front, rfl⟩ := Parser.suffix_of_fault answer
    obtain ⟨value, denotes⟩ := denoting t (List.mem_append_right front List.mem_cons_self) kind
    exact none value denotes

end Plc

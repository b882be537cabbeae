import Plc.Proofs.Syntax.Prefix

/-!
What the parser sees of offsets: whether an `=` is glued to a `<` or a `>`, and nothing else. On
token lists that are alike in this, in kinds and in texts, it answers the same, or stops at the same
token with the same fault.
-/

namespace Plc

namespace Token

def moved (t : Token) (offset : Nat) : Token := { t with offset }

@[simp] theorem kind_moved (t : Token) (n : Nat) : (t.moved n).kind = t.kind := rfl

@[simp] theorem text_moved (t : Token) (n : Nat) : (t.moved n).text = t.text := rfl

@[simp] theorem isOperator_moved (t : Token) (n : Nat) (text : String) :
    (t.moved n).isOperator text = t.isOperator text := rfl

/-- An `=` without a gap behind a `<` or a `>`. -/
def glued (t next : Token) : Bool :=
  (t.isOperator "<" || t.isOperator ">") && Parser.gluedEquals t next

/-- The same tokens in other places, and glued where they were. -/
inductive Alike : List Token → List Token → Prop where
  | nil : Alike [] []
  | cons {t : Token} {n : Nat} {ts ts' : List Token}
      (glue : ∀ u ∈ ts.head?, ∀ u' ∈ ts'.head?, glued (t.moved n) u' = glued t u)
      (others : Alike ts ts') : Alike (t :: ts) (t.moved n :: ts')

theorem Alike.length_eq {ts ts' : List Token} (alike : Alike ts ts') : ts'.length = ts.length := by
  induction alike with
  | nil => rfl
  | cons glue others ih => rw [List.length_cons, ih, List.length_cons]

end Token

namespace Parser

open Token (Alike)

variable {α β : Type}

inductive Answers : Except Fault (α × List Token) → Except Fault (α × List Token) → Prop where
  | found {a : α} {rest rest' : List Token} (alike : Alike rest rest') :
      Answers (.ok (a, rest)) (.ok (a, rest'))
  | fault {cause : ParseError} {rest rest' : List Token} (alike : Alike rest rest') :
      Answers (.error ⟨cause, rest⟩) (.error ⟨cause, rest'⟩)

def Steady (p : Parser α) : Prop := ∀ ts ts', Alike ts ts' → Answers (p ts) (p ts')

theorem steady_pure (a : α) : Steady (pure a) := fun _ _ alike => .found alike

theorem steady_fail (cause : ParseError) : Steady (fail cause : Parser α) :=
  fun _ _ alike => .fault alike

theorem steady_bind {p : Parser α} {q : α → Parser β} (first : Steady p)
    (others : ∀ a, Steady (q a)) : Steady (p >>= q) := by
  intro ts ts' alike
  have start := first ts ts' alike
  rw [bind_eq, bind_eq]
  generalize p ts = answer at start
  generalize p ts' = answer' at start
  cases start with
  | fault left => exact .fault left
  | @found a rest rest' left => exact others a rest rest' left

theorem steady_ite {c : Bool} {p q : Parser α} (yes : Steady p) (no : Steady q) :
    Steady (if c then p else q) := by
  cases c with
  | true => exact yes
  | false => exact no

variable {test : Token → Bool} (blind : ∀ t n, test (t.moved n) = test t)

include blind

theorem steady_nextIs : Steady (nextIs test) := by
  intro ts ts' alike
  cases alike with
  | nil => exact .found .nil
  | @cons t n ts ts' glue others =>
    simp only [nextIs, List.head?_cons, Option.any_some, blind]
    exact .found (.cons glue others)

theorem steady_accept : Steady (accept test) := by
  intro ts ts' alike
  cases alike with
  | nil => exact .found .nil
  | @cons t n ts ts' glue others =>
    cases holds : test t with
    | true =>
      rw [accept_yes holds, accept_yes ((blind t n).trans holds)]
      exact .found others
    | false =>
      rw [accept_no (show (t :: ts).head?.any test = false from holds),
        accept_no (show (t.moved n :: ts').head?.any test = false from (blind t n).trans holds)]
      exact .found (.cons glue others)

theorem steady_require (what : Wanted) : Steady (require test what) := by
  intro ts ts' alike
  cases alike with
  | nil => exact .fault .nil
  | @cons t n ts ts' glue others =>
    cases holds : test t with
    | true =>
      rw [require_yes holds, require_yes ((blind t n).trans holds)]
      exact .found others
    | false =>
      simp only [require, blind, holds, Bool.false_eq_true, if_false]
      exact .fault (.cons glue others)

omit blind

theorem steady_acceptOperator (text : String) : Steady (acceptOperator text) :=
  steady_accept fun _ _ => rfl

theorem steady_acceptKeyword (text : String) : Steady (acceptKeyword text) :=
  steady_accept fun _ _ => rfl

theorem steady_requireOperator (text : String) (what : Wanted) :
    Steady (requireOperator text what) :=
  steady_require (fun _ _ => rfl) what

theorem steady_requireKeyword (text : String) (what : Wanted) :
    Steady (requireKeyword text what) :=
  steady_require (fun _ _ => rfl) what

theorem steady_requireName (what : Wanted) : Steady (requireName what) := by
  intro ts ts' alike
  cases alike with
  | nil => exact .fault .nil
  | @cons t n ts ts' glue others =>
    simp only [requireName, Token.kind_moved, Token.text_moved]
    by_cases named : t.kind = .identifier
    · simp only [named, if_true]
      exact .found others
    · simp only [named, if_false]
      exact .fault (.cons glue others)

theorem steady_separated {item : Parser α} (one : Steady item) (limit : Nat) :
    Steady (separated item limit) := by
  induction limit with
  | zero => exact steady_pure []
  | succ limit ih =>
    refine steady_bind one fun first => steady_bind (steady_acceptOperator ",") fun comma => ?_
    exact steady_ite (steady_bind ih fun others => steady_pure _) (steady_pure _)

theorem steady_listUntil (closing : String) {item : Parser α} (one : Steady item) (limit : Nat) :
    Steady (listUntil closing item limit) :=
  steady_bind (steady_nextIs fun _ _ => rfl) fun _ =>
    steady_ite (steady_pure []) (steady_separated one limit)

theorem steady_operatorOf (table : List Operator) : Steady (operatorOf table) := by
  intro ts ts' alike
  cases alike with
  | nil => exact .found .nil
  | @cons t n ts ts' glue others =>
    simp only [operatorOf, Token.isOperator_moved]
    cases table.find? fun op => t.isOperator op.text with
    | none => exact .found (.cons glue others)
    | some op => exact .found others

/-- Here the offsets are looked at, and the tokens are glued in both lists or in none. -/
theorem answers_ordering {t : Token} {n : Nat} {ts ts' : List Token} (strict inclusive : Operator)
    (ordering : t.isOperator "<" = true ∨ t.isOperator ">" = true)
    (glue : ∀ u ∈ ts.head?, ∀ u' ∈ ts'.head?, Token.glued (t.moved n) u' = Token.glued t u)
    (others : Alike ts ts') :
    Answers (orderingOperator t strict inclusive ts)
      (orderingOperator (t.moved n) strict inclusive ts') := by
  cases others with
  | nil => exact .found .nil
  | @cons u m us us' glue' others =>
    have same := glue u rfl (u.moved m) rfl
    simp only [Token.glued, Token.isOperator_moved, Bool.or_eq_true_iff.mpr ordering,
      Bool.true_and] at same
    simp only [orderingOperator, same]
    cases gluedEquals t u with
    | true => exact .found others
    | false => exact .found (.cons glue' others)

theorem answers_ite {c : Bool} {yes yes' no no' : Except Fault (α × List Token)}
    (taken : c = true → Answers yes yes') (other : Answers no no') :
    Answers (if c then yes else no) (if c then yes' else no') := by
  cases c with
  | true => exact taken rfl
  | false => exact other

theorem steady_comparing : Steady comparingOperator := by
  intro ts ts' alike
  cases alike with
  | nil => exact .found .nil
  | @cons t n ts ts' glue others =>
    simp only [comparingOperator, Token.isOperator_moved]
    refine answers_ite (fun _ => .found others) ?_
    refine answers_ite (fun _ => .found others) ?_
    refine answers_ite (fun less => answers_ordering _ _ (.inl less) glue others) ?_
    refine answers_ite (fun greater => answers_ordering _ _ (.inr greater) glue others) ?_
    exact .found (.cons glue others)

theorem steady_chain {operator : Parser (Option Operator)} {operand : Parser Expr}
    (between : Steady operator) (one : Steady operand) (limit : Nat) (left : Expr) :
    Steady (chain operator operand limit left) := by
  induction limit generalizing left with
  | zero => exact steady_pure left
  | succ limit ih =>
    refine steady_bind between fun found => ?_
    cases found with
    | none => exact steady_pure left
    | some op => exact steady_bind one fun right => ih _

theorem steady_layer {operator : Parser (Option Operator)} {operand : Parser Expr} (limit : Nat)
    (between : Steady operator) (one : Steady operand) :
    Steady (layer limit operator operand) :=
  steady_bind one fun first => steady_chain between one limit first

theorem steady_layers {value : Parser Expr} (limit : Nat) (one : Steady value) :
    Steady (layers limit value) := by
  refine steady_layer limit (steady_operatorOf _) ?_
  refine steady_layer limit steady_comparing ?_
  refine steady_layer limit (steady_operatorOf _) ?_
  exact steady_layer limit (steady_operatorOf _) one

section

variable {value : Parser Expr} (nested : Steady value)

include nested

theorem steady_named (limit : Nat) (name : String) : Steady (named limit value name) := by
  refine steady_bind (steady_acceptOperator "(") fun opens => steady_ite ?_ ?_
  · refine steady_bind (steady_listUntil ")" nested limit) fun arguments => ?_
    exact steady_bind (steady_requireOperator _ _) fun _ => steady_pure _
  refine steady_bind (steady_acceptOperator "[") fun opens => steady_ite ?_ (steady_pure _)
  refine steady_bind nested fun index => ?_
  exact steady_bind (steady_requireOperator _ _) fun _ => steady_pure _

theorem steady_group : Steady (group value) :=
  steady_bind nested fun _ => steady_bind (steady_requireOperator _ _) fun _ => steady_pure _

omit nested in
theorem answers_literal {t t' : Token} {ts ts' : List Token} (l : Option Literal)
    (cause : ParseError) (here : Alike (t :: ts) (t' :: ts')) (others : Alike ts ts') :
    Answers (literal l cause t ts) (literal l cause t' ts') := by
  cases l with
  | none => exact .fault here
  | some l => exact .found others

theorem steady_primary (limit : Nat) : Steady (primary limit value) := by
  intro ts ts' alike
  cases alike with
  | nil => exact .fault .nil
  | @cons t n ts ts' glue others =>
    have here : Alike (t :: ts) (t.moved n :: ts') := .cons glue others
    simp only [primary, Token.kind_moved, Token.text_moved]
    cases t.kind with
    | identifier =>
      cases Literal.ofWord? t.text with
      | some l => exact .found others
      | none => exact steady_named nested limit t.text ts ts' others
    | integer | decimal | character => exact answers_literal _ _ here others
    | string => exact .found others
    | operator =>
      by_cases opens : t.text = "("
      · simp only [opens, if_true]
        exact steady_group nested ts ts' others
      · simp only [opens, if_false]
        exact .fault here

end

theorem steady_expression (limit : Nat) : Steady (expression limit) := by
  induction limit with
  | zero => exact steady_fail _
  | succ limit ih => exact steady_layers _ (steady_primary ih _)

theorem steady_typeAnnotation : Steady typeAnnotation :=
  steady_bind (steady_acceptOperator ":") fun _ =>
    steady_ite (steady_bind (steady_requireName _) fun _ => steady_pure _) (steady_pure _)

theorem steady_initializer {value : Parser Expr} (one : Steady value) :
    Steady (initializer value) :=
  steady_bind (steady_acceptOperator "=") fun _ =>
    steady_ite (steady_bind one fun _ => steady_pure _) (steady_pure _)

theorem steady_block (words : List String) {statement : Parser Stmt} (one : Steady statement)
    (limit : Nat) : Steady (block words statement limit) := by
  induction limit with
  | zero => exact steady_fail _
  | succ limit ih =>
    refine steady_bind (steady_nextIs fun _ _ => rfl) fun stops => steady_ite (steady_pure []) ?_
    refine steady_bind (steady_nextIs fun _ _ => rfl) fun more => steady_ite ?_ (steady_fail _)
    exact steady_bind one fun first => steady_bind ih fun others => steady_pure _

section

variable {limit : Nat} {value : Parser Expr} {statement : Parser Stmt}

theorem steady_declaration (nested : Steady value) : Steady (declaration value) := by
  refine steady_bind (steady_requireName _) fun name => ?_
  refine steady_bind steady_typeAnnotation fun typeName => ?_
  refine steady_bind (steady_initializer nested) fun initial => ?_
  have last : Steady (do
      requireOperator ";" .localEnd
      pure (Stmt.declaration name typeName initial none)) :=
    steady_bind (steady_requireOperator _ _) fun _ => steady_pure _
  exact steady_ite (steady_bind (steady_fail _) fun _ => last) last

theorem steady_conditional (nested : Steady value) (one : Steady statement) :
    Steady (conditional limit value statement) := by
  refine steady_bind nested fun c => steady_bind (steady_requireKeyword _ _) fun _ => ?_
  refine steady_bind (steady_block _ one limit) fun whenTrue => ?_
  refine steady_bind (steady_acceptKeyword "ELSE") fun other => ?_
  have last (whenFalse : List Stmt) : Steady (do
      requireKeyword "END" .ifClosing
      pure (Stmt.conditional c whenTrue whenFalse)) :=
    steady_bind (steady_requireKeyword _ _) fun _ => steady_pure _
  exact steady_ite (steady_bind (steady_block _ one limit) last) (steady_bind (steady_pure []) last)

theorem steady_valueCases {body : Parser (List Stmt)} (nested : Steady value) (inner : Steady body)
    (limit : Nat) : Steady (valueCases value body limit) := by
  induction limit with
  | zero => exact steady_pure []
  | succ limit ih =>
    refine steady_bind (steady_acceptKeyword "CASE") fun another => steady_ite ?_ (steady_pure [])
    refine steady_bind nested fun e => steady_bind (steady_requireOperator _ _) fun _ => ?_
    exact steady_bind inner fun ss => steady_bind ih fun others => steady_pure _

theorem steady_defaultCase {body : Parser (List Stmt)} (inner : Steady body) :
    Steady (defaultCase body) := by
  refine steady_bind (steady_acceptKeyword "DEFAULT") fun another =>
    steady_ite ?_ (steady_pure [])
  refine steady_bind inner fun ss => steady_bind (steady_nextIs fun _ _ => rfl) fun last => ?_
  exact steady_ite (steady_pure _) (steady_fail _)

theorem steady_switch (nested : Steady value) (one : Steady statement) :
    Steady (switch limit value statement) := by
  have inner := steady_block caseTerminators one limit
  refine steady_bind nested fun c => ?_
  refine steady_bind (steady_valueCases nested inner limit) fun arms => ?_
  refine steady_bind (steady_defaultCase inner) fun default => ?_
  exact steady_bind (steady_requireKeyword _ _) fun _ => steady_pure _

theorem steady_loop (nested : Steady value) (one : Steady statement) :
    Steady (loop limit value statement) := by
  refine steady_bind nested fun c => steady_bind (steady_requireKeyword _ _) fun _ => ?_
  refine steady_bind (steady_block _ one limit) fun body => ?_
  exact steady_bind (steady_requireKeyword _ _) fun _ => steady_pure _

theorem steady_returned (nested : Steady value) : Steady (returned value) :=
  steady_bind nested fun _ => steady_bind (steady_requireOperator _ _) fun _ => steady_pure _

theorem steady_assignmentOrExpression (nested : Steady value) :
    Steady (assignmentOrExpression value) := by
  refine steady_bind nested fun e => steady_bind (steady_acceptOperator "=") fun equals => ?_
  refine steady_ite ?_ (steady_bind (steady_requireOperator _ _) fun _ => steady_pure _)
  refine steady_bind nested fun assigned => ?_
  exact steady_bind (steady_requireOperator _ _) fun _ => steady_pure _

end

theorem steady_statement (limit : Nat) : Steady (statement limit) := by
  induction limit with
  | zero => exact steady_fail _
  | succ limit ih =>
    have nested := steady_expression (limit + 1)
    refine steady_bind (steady_acceptKeyword "LET") fun _ =>
      steady_ite (steady_declaration nested) ?_
    refine steady_bind (steady_acceptKeyword "IF") fun _ =>
      steady_ite (steady_conditional nested ih) ?_
    refine steady_bind (steady_acceptKeyword "SWITCH") fun _ =>
      steady_ite (steady_switch nested ih) ?_
    refine steady_bind (steady_acceptKeyword "WHILE") fun _ =>
      steady_ite (steady_loop nested ih) ?_
    exact steady_bind (steady_acceptKeyword "RETURN") fun _ =>
      steady_ite (steady_returned nested) (steady_assignmentOrExpression nested)

section

variable {limit : Nat}

theorem steady_listLiteral : Steady (listLiteral limit) := by
  refine steady_bind (steady_requireOperator _ _) fun _ => ?_
  refine steady_bind (steady_listUntil "]" (steady_expression limit) limit) fun elements => ?_
  exact steady_bind (steady_requireOperator _ _) fun _ => steady_pure _

theorem steady_globalOf (keyword : String) : Steady (globalOf limit keyword) := by
  have nested := steady_expression limit
  refine steady_bind (steady_requireName _) fun name => ?_
  refine steady_bind steady_typeAnnotation fun typeName => ?_
  have last (value : Option Expr) : Steady (do
      requireOperator ";" .globalEnd
      pure (Global.mk name typeName (keyword != "VAL") (keyword == "LIST") value none)) :=
    steady_bind (steady_requireOperator _ _) fun _ => steady_pure _
  by_cases list : keyword = "LIST"
  · simp only [list, if_true] at last ⊢
    exact steady_bind (steady_initializer steady_listLiteral) last
  by_cases changing : keyword = "VAR"
  · simp only [changing, String.reduceEq, if_false, if_true] at last ⊢
    exact steady_bind (steady_initializer nested) last
  simp only [list, changing, if_false]
  refine steady_bind (steady_requireOperator _ _) fun _ => steady_bind nested fun e => ?_
  exact steady_bind (steady_pure _) last

theorem steady_parameter : Steady parameter := by
  refine steady_bind (steady_requireName _) fun name => ?_
  refine steady_bind (steady_requireOperator _ _) fun _ => ?_
  exact steady_bind (steady_requireName _) fun _ => steady_pure _

theorem steady_function : Steady (function limit) := by
  refine steady_bind (steady_requireName _) fun name => ?_
  refine steady_bind (steady_requireOperator _ _) fun _ => ?_
  refine steady_bind (steady_listUntil ")" steady_parameter limit) fun parameters => ?_
  refine steady_bind (steady_requireOperator _ _) fun _ => ?_
  refine steady_bind steady_typeAnnotation fun type => ?_
  refine steady_bind (steady_requireKeyword _ _) fun _ => ?_
  refine steady_bind (steady_block _ (steady_statement limit) limit) fun body => ?_
  exact steady_bind (steady_requireKeyword _ _) fun _ => steady_pure _

theorem steady_globalKeyword : Steady globalKeyword := by
  intro ts ts' alike
  cases alike with
  | nil => exact .found .nil
  | @cons t n ts ts' glue others =>
    have same : globalKeywords.any (t.moved n).isKeyword = globalKeywords.any t.isKeyword := rfl
    simp only [globalKeyword, same, Token.text_moved]
    exact answers_ite (fun _ => .found others) (.found (.cons glue others))

theorem steady_globals (count : Nat) : Steady (globals limit count) := by
  induction count with
  | zero => exact steady_pure []
  | succ count ih =>
    refine steady_bind steady_globalKeyword fun found => ?_
    cases found with
    | none => exact steady_pure []
    | some keyword =>
      exact steady_bind (steady_globalOf keyword) fun first =>
        steady_bind ih fun others => steady_pure _

theorem steady_functions (count : Nat) : Steady (functions limit count) := by
  induction count with
  | zero => exact steady_pure []
  | succ count ih =>
    refine steady_bind (steady_acceptKeyword "FUN") fun another => steady_ite ?_ ?_
    · exact steady_bind steady_function fun first => steady_bind ih fun others => steady_pure _
    refine steady_bind (steady_nextIs fun _ _ => rfl) fun late => steady_ite (steady_fail _) ?_
    exact steady_bind (steady_nextIs fun _ _ => rfl) fun left =>
      steady_ite (steady_fail _) (steady_pure [])

theorem steady_program : Steady (program limit) :=
  steady_bind (steady_globals limit) fun _ =>
    steady_bind (steady_functions limit) fun _ => steady_pure _

end

end Parser

/-- Tokens that are alike make the same program, or there is the same error at the same one. -/
theorem Program.ofTokens_alike {ts ts' : List Token} (alike : Token.Alike ts ts') :
    (∃ p, Program.ofTokens ts = .ok p ∧ Program.ofTokens ts' = .ok p) ∨
      ∃ cause, ∃ i ≤ ts.length, Program.ofTokens ts = .error (cause, Token.offsetAt ts i) ∧
        Program.ofTokens ts' = .error (cause, Token.offsetAt ts' i) := by
  have answers : Parser.Answers (Parser.program (ts.length + 1) ts)
      (Parser.program (ts'.length + 1) ts') :=
    alike.length_eq ▸ Parser.steady_program ts ts' alike
  unfold Program.ofTokens
  generalize read : Parser.program (ts.length + 1) ts = answer at answers
  generalize read' : Parser.program (ts'.length + 1) ts' = answer' at answers
  cases answers with
  | @found p rest rest' left => exact .inl ⟨p, rfl, rfl⟩
  | @fault cause rest rest' left =>
    obtain ⟨xs, rfl⟩ := Parser.suffix_of_fault read
    obtain ⟨xs', rfl⟩ := Parser.suffix_of_fault read'
    have length : xs'.length = xs.length := by
      have all := alike.length_eq
      simp only [List.length_append, left.length_eq] at all
      omega
    refine .inr ⟨cause, xs.length, by simp, ?_, ?_⟩
    · simp only [Parser.faultOffset_append]
    · simp only [Parser.faultOffset_append, length]

end Plc

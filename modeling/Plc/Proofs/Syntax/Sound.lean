import Plc.Proofs.Syntax.Reads

/-!
Every parser of the language reads what the grammar derives. The bound on the tokens is below the
depth of the parser, or equal to it where nothing is answered without a token taken.
-/

namespace Plc.Parser

open Grammar

variable {α β : Type} {G : List Token → α → Prop} {H : List Token → β → Prop} {n : Nat}

theorem some_value : ∃ xs e, ValueOf xs e :=
  ⟨[word "x"], _, .operand (.operand (.operand (.operand (.access ⟨rfl, by decide⟩))))⟩

inductive Offered (layer : Layer) : List Token → Option Operator → Prop where
  | none : Offered layer [] none
  | some {xs : List Token} {op : Operator} (sign : OperatorOf layer xs op) :
      Offered layer xs (some op)

theorem reads_operatorOf {layer : Layer} :
    Reads n (Offered layer) (operatorOf layer.operators) := by
  intro ts _
  cases ts with
  | nil => exact ⟨[], rfl, .none⟩
  | cons t ts =>
    simp only [operatorOf]
    cases found : layer.operators.find? fun op => t.isOperator op.text with
    | none => exact ⟨[], rfl, .none⟩
    | some op =>
      have sign := List.find?_some found
      exact ⟨[t], rfl, .some (.plain (List.mem_of_find?_eq_some found) sign)⟩

/-- `<` and `>` count for themselves, or with an `=` that is glued to them. -/
theorem reads_ordering {t : Token} {strict inclusive : Operator}
    (plain : OperatorOf .comparing [t] strict)
    (more : ∀ next, gluedEquals t next → OperatorOf .comparing [t, next] inclusive) :
    Reads n (fun xs op => Offered .comparing (t :: xs) op)
      (orderingOperator t strict inclusive) := by
  intro ts _
  cases ts with
  | nil => exact ⟨[], rfl, .some plain⟩
  | cons next ts =>
    by_cases glued : gluedEquals t next
    · simp only [orderingOperator, glued, if_true]
      exact ⟨[next], rfl, .some (more next glued)⟩
    · simp only [orderingOperator, glued]
      exact ⟨[], rfl, .some plain⟩

theorem reads_comparing : Reads n (Offered .comparing) comparingOperator := by
  intro ts within
  cases ts with
  | nil => exact ⟨[], rfl, .none⟩
  | cons t ts =>
    have shorter := Nat.le_succ_of_le within
    have same : Operator.equal ∈ Layer.comparing.operators := by decide
    have differ : Operator.notEqual ∈ Layer.comparing.operators := by decide
    simp only [comparingOperator]
    split
    · next sign => exact ⟨[t], rfl, .some (.plain same sign)⟩
    split
    · next sign => exact ⟨[t], rfl, .some (.plain differ sign)⟩
    split
    · next sign =>
      refine derived_cons (reads_ordering (.plain (by decide) sign) fun next glued => ?_) shorter
      obtain ⟨equal, place⟩ := gluedEquals_iff.mp glued
      exact .lessEqual sign equal place
    split
    · next sign =>
      refine derived_cons (reads_ordering (.plain (by decide) sign) fun next glued => ?_) shorter
      obtain ⟨equal, place⟩ := gluedEquals_iff.mp glued
      exact .greaterEqual sign equal place
    · exact ⟨[], rfl, .none⟩

theorem reads_operator (layer : Layer) : Reads n (Offered layer) (operatorReader layer) := by
  cases layer with
  | comparing => exact reads_comparing
  | logical => exact reads_operatorOf
  | adding => exact reads_operatorOf
  | multiplying => exact reads_operatorOf

section

variable {limit : Nat} {value : Parser Expr}

theorem reads_chain {layer : Layer} (operand : Reads n (ExprOf layer.operand) value) (limit : Nat)
    {xs : List Token} {left : Expr} (derived : ExprOf (some layer) xs left) :
    Reads n (fun ys e => ExprOf (some layer) (xs ++ ys) e)
      (chain (operatorReader layer) value limit left) := by
  induction limit generalizing xs left with
  | zero => exact reads_pure (by simpa using derived)
  | succ limit ih =>
    refine reads_bind (reads_operator layer) fun ys found offered => ?_
    cases offered with
    | none => exact reads_pure (by simpa using derived)
    | some sign =>
      refine reads_bind operand fun zs right second => ?_
      simpa using ih (.binary derived sign second)

theorem reads_layer (layer : Layer) (limit : Nat)
    (operand : Reads n (ExprOf layer.operand) value) :
    Reads n (ExprOf (some layer)) (Parser.layer limit (operatorReader layer) value) :=
  reads_bind operand fun _ _ derived => reads_chain operand limit (.operand derived)

theorem reads_named {t : Token} (name : IsReference t) (nested : Reads n ValueOf value)
    (deep : n < limit) :
    Reads n (fun xs e => ExprOf none (t :: xs) e) (named limit value t.text) := by
  refine reads_bind (reads_accept _) fun xs opens taken => ?_
  cases taken with
  | yes opens =>
    refine reads_bind (reads_listUntil nested deep) fun ys args inner => ?_
    refine reads_bind (reads_requireOperator _ _) fun zs _ ⟨closes⟩ => reads_pure ?_
    simpa using ExprOf.call name opens inner closes
  | no =>
    refine reads_bind (reads_accept _) fun xs opens taken => ?_
    cases taken with
    | yes opens =>
      refine reads_bind nested fun ys index inner => ?_
      refine reads_bind (reads_requireOperator _ _) fun zs _ ⟨closes⟩ => reads_pure ?_
      simpa using ExprOf.element name opens inner closes
    | no => exact reads_pure (by simpa using ExprOf.access name)

theorem some_primary : ∃ xs e, ExprOf none xs e := ⟨[word "x"], _, .access ⟨rfl, by decide⟩⟩

theorem literalOf_of_word {t : Token} {l : Literal} (kind : t.kind = .identifier)
    (known : Literal.ofWord? t.text = some l) : LiteralOf t l := by
  unfold Literal.ofWord? at known
  split at known
  · next text =>
    cases known
    exact .nil (by simp [Token.isKeyword, kind, text])
  · next text =>
    cases known
    exact .yes (by simp [Token.isKeyword, kind, text])
  · next text =>
    cases known
    exact .no (by simp [Token.isKeyword, kind, text])
  · cases known

theorem derived_literal {t : Token} {ts : List Token} {value : Option Literal} {cause : ParseError}
    (known : ∀ l, value = some l → LiteralOf t l) :
    Derived (ExprOf none) (t :: ts) (literal value cause t ts) := by
  cases value with
  | none => exact ⟨[], rfl, some_primary⟩
  | some l => exact ⟨[t], rfl, .literal (known l rfl)⟩

theorem reads_group {opening : Token} (opens : opening.isOperator "(")
    (nested : Reads n ValueOf value) :
    Reads n (fun xs e => ExprOf none (opening :: xs) e) (group value) := by
  refine reads_bind nested fun xs e inner => ?_
  refine reads_bind (reads_requireOperator _ _) fun ys _ ⟨closes⟩ => reads_pure ?_
  simpa using ExprOf.group opens inner closes

theorem reads_primary (nested : Reads n ValueOf value) (deep : n < limit) :
    Reads (n + 1) (ExprOf none) (primary limit value) := by
  intro ts within
  cases ts with
  | nil => exact ⟨[], rfl, some_primary⟩
  | cons t ts =>
    simp only [primary]
    split
    · next kind =>
      split
      · next l known => exact ⟨[t], rfl, .literal (literalOf_of_word kind known)⟩
      · next unknown =>
        exact derived_cons (reads_named ⟨kind, ofWord?_eq_none.mp unknown⟩ nested deep) within
    · next kind =>
      refine derived_literal fun l read => ?_
      obtain ⟨n, text, rfl⟩ := Literal.ofInteger?_eq_some_iff.mp read
      exact .integer kind text
    · next kind =>
      refine derived_literal fun l read => ?_
      obtain ⟨d, text, rfl⟩ := Literal.ofDecimal?_eq_some_iff.mp read
      exact .decimal kind text
    · next kind =>
      refine derived_literal fun l read => ?_
      obtain ⟨c, inner, between, text, rfl⟩ := Literal.ofCharacter?_eq_some_iff.mp read
      exact .character kind between text
    · next kind =>
      obtain ⟨s, inner, between, text, is⟩ :=
        Literal.ofString_eq_iff.mp (Eq.refl (Literal.ofString t.text))
      rw [← is]
      exact ⟨[t], rfl, .literal (.string kind between text)⟩
    · next kind =>
      split
      · next text =>
        exact derived_cons (reads_group (by simp [Token.isOperator, kind, text]) nested) within
      · exact ⟨[], rfl, some_primary⟩

theorem reads_expression {limit : Nat} (deep : n ≤ limit) :
    Reads n ValueOf (expression limit) := by
  induction limit generalizing n with
  | zero => exact reads_fail some_value
  | succ limit ih =>
    have primary : Reads n (ExprOf none) (primary (limit + 1) (expression limit)) :=
      reads_mono (reads_primary (ih (Nat.le_refl limit)) (Nat.lt_succ_self limit)) deep
    exact reads_layer .logical _ (reads_layer .comparing _
      (reads_layer .adding _ (reads_layer .multiplying _ primary)))

end

theorem reads_typeAnnotation : Reads n AnnotationOf typeAnnotation := by
  refine reads_bind (reads_accept _) fun xs colon taken => ?_
  cases taken with
  | no => exact reads_pure .absent
  | yes sign =>
    refine reads_bind (reads_requireName _) fun ys name named => reads_pure ?_
    simpa using AnnotationOf.present sign named

theorem reads_initializer {Value : List Token → Expr → Prop} {value : Parser Expr}
    (one : Reads n Value value) : Reads n (InitialOf Value) (initializer value) := by
  refine reads_bind (reads_accept _) fun xs equals taken => ?_
  cases taken with
  | no => exact reads_pure .absent
  | yes sign =>
    refine reads_bind one fun ys e derived => reads_pure ?_
    simpa using InitialOf.present sign derived

theorem some_stmt : ∃ xs s, StmtOf xs s := by
  obtain ⟨xs, e, value⟩ := some_value
  exact ⟨_, _, .return (isKeyword_word "RETURN") value (isOperator_sign ";")⟩

section

variable {limit : Nat} {value : Parser Expr} {statement : Parser Stmt} {words : List String}

/-- Where the next token is none of these words, a list derived from it starts with none. -/
theorem derived_of_other {p : Parser α} {ts : List Token}
    (reads : Reads n (fun xs a => startsWith words xs = false → G xs a) p)
    (some : ∃ ys a, G ys a) (goes : startsWith words ts = false) (within : ts.length ≤ n) :
    Derived G ts (p ts) := by
  have start := reads ts within
  revert start
  cases p ts with
  | error fault =>
    rintro ⟨xs, split, ys, a, derived⟩
    refine ⟨xs, split, ?_⟩
    rw [split] at goes
    cases xs with
    | nil => exact some
    | cons t xs => exact ⟨ys, a, derived goes⟩
  | ok found =>
    rintro ⟨xs, split, derived⟩
    exact ⟨xs, split, derived (startsWith_append_left (split ▸ goes))⟩

theorem reads_block (one : Reads n StmtOf statement) (limit : Nat) :
    Reads n (BlockOf words) (block words statement limit) := by
  induction limit with
  | zero => exact reads_fail ⟨[], [], .nil⟩
  | succ limit ih =>
    intro ts within
    cases stops : startsWith words ts with
    | true =>
      rw [block_stop stops]
      exact ⟨[], rfl, .nil⟩
    | false =>
      cases ts with
      | nil => exact ⟨[], rfl, [], [], .nil⟩
      | cons t ts =>
        rw [block_more stops]
        refine derived_of_other ?_ ⟨[], [], .nil⟩ stops within
        refine reads_bind one fun xs s first => reads_bind ih fun ys ss others => ?_
        refine reads_pure fun goes => ?_
        rw [List.append_nil] at goes ⊢
        exact .cons (startsWith_append_left goes) first others

def After (keyword : String) (xs : List Token) (s : Stmt) : Prop :=
  ∀ t : Token, t.isKeyword keyword → StmtOf (t :: xs) s

theorem reads_declaration (nested : Reads n ValueOf value) :
    Reads n (After "LET") (declaration value) := by
  refine reads_bind (reads_requireName _) fun xs name named => ?_
  refine reads_bind reads_typeAnnotation fun ys typeName typed => ?_
  refine reads_bind (reads_initializer nested) fun zs initial given => ?_
  have done (either : typeName ≠ none ∨ initial ≠ none) :
      Reads n (fun ws s => After "LET" (xs ++ (ys ++ (zs ++ ws))) s) (do
        requireOperator ";" .localEnd
        pure (.declaration name typeName initial none)) := by
    refine reads_bind (reads_requireOperator _ _) fun ws _ ⟨ends⟩ => reads_pure ?_
    intro t starts
    simpa using StmtOf.declaration starts named typed given either ends
  refine reads_ite (fun neither => ?_) fun either => ?_
  · simp only [Bool.and_eq_true, Option.isNone_iff_eq_none] at neither
    obtain ⟨rfl, rfl⟩ := neither
    cases typed
    cases given
    obtain ⟨zs, e, derived⟩ := some_value
    refine reads_fail ⟨sign "=" :: (zs ++ [sign ";"]), .declaration name none (some e) none,
      fun t starts => ?_⟩
    simpa using StmtOf.declaration starts named .absent
      (.present (isOperator_sign "=") derived) (.inr nofun) (isOperator_sign ";")
  · refine done ?_
    rw [Bool.and_eq_false_iff, ← Bool.not_eq_true, ← Bool.not_eq_true] at either
    exact either.imp (by simp) (by simp)

theorem reads_conditional (nested : Reads n ValueOf value) (one : Reads n StmtOf statement) :
    Reads n (After "IF") (conditional limit value statement) := by
  refine reads_bind nested fun xs c condition => ?_
  refine reads_bind (reads_requireKeyword _ _) fun _ _ opening => ?_
  obtain @⟨opening, opens⟩ := opening
  refine reads_bind (reads_block one limit) fun ys whenTrue first => ?_
  have done {zs : List Token} {whenFalse : List Stmt} (second : ElseOf zs whenFalse) :
      Reads n (fun ws s => After "IF" (xs ++ ([opening] ++ (ys ++ (zs ++ ws)))) s) (do
        requireKeyword "END" .ifClosing
        pure (.conditional c whenTrue whenFalse)) := by
    refine reads_bind (reads_requireKeyword _ _) fun ws _ ⟨ends⟩ => reads_pure ?_
    intro t starts
    simpa using StmtOf.conditional starts condition opens first second ends
  refine reads_bind (reads_accept _) fun zs other taken => ?_
  cases taken with
  | no => exact done .absent
  | yes starts =>
    refine reads_bind (reads_block one limit) fun zs whenFalse second => ?_
    simpa using done (.present starts second)

theorem reads_valueCases {body : Parser (List Stmt)} (nested : Reads n ValueOf value)
    (inner : Reads n (BlockOf armEnds) body) (limit : Nat) :
    Reads n (Many ArmOf) (valueCases value body limit) := by
  induction limit with
  | zero => exact reads_pure .nil
  | succ limit ih =>
    refine reads_bind (reads_accept _) fun xs another taken => ?_
    cases taken with
    | no => exact reads_pure .nil
    | yes starts =>
      refine reads_bind nested fun xs e given => ?_
      refine reads_bind (reads_requireOperator _ _) fun _ _ ⟨colon⟩ => ?_
      refine reads_bind inner fun ys ss derived => reads_bind ih fun zs cs others => ?_
      refine reads_pure ?_
      simpa using Many.cons (ArmOf.arm starts given colon derived) others

theorem reads_defaultCase {body : Parser (List Stmt)} (inner : Reads n (BlockOf armEnds) body) :
    Reads n DefaultOf (defaultCase body) := by
  refine reads_bind (reads_accept _) fun xs another taken => ?_
  cases taken with
  | no => exact reads_pure .absent
  | @yes word starts =>
    refine reads_bind inner fun ys ss derived => ?_
    refine reads_bind (reads_nextIs _) fun zs stops empty => ?_
    subst empty
    have done : DefaultOf ([word] ++ (ys ++ ([] ++ []))) [.arm none ss] := by
      simpa using DefaultOf.present starts derived
    exact reads_ite (fun _ => reads_pure done) fun _ => reads_fail ⟨[], _, done⟩

theorem reads_switch (nested : Reads n ValueOf value) (one : Reads n StmtOf statement) :
    Reads n (After "SWITCH") (switch limit value statement) := by
  have inner : Reads n (BlockOf armEnds) (block caseTerminators statement limit) :=
    reads_block one limit
  refine reads_bind nested fun xs c condition => ?_
  refine reads_bind (reads_valueCases nested inner limit) fun ys cs cases => ?_
  refine reads_bind (reads_defaultCase inner) fun zs ds last => ?_
  refine reads_bind (reads_requireKeyword _ _) fun _ _ ⟨ends⟩ => reads_pure ?_
  intro t starts
  simpa using StmtOf.switch starts condition cases last ends

theorem reads_loop (nested : Reads n ValueOf value) (one : Reads n StmtOf statement) :
    Reads n (After "WHILE") (loop limit value statement) := by
  refine reads_bind nested fun xs c condition => ?_
  refine reads_bind (reads_requireKeyword _ _) fun _ _ ⟨opens⟩ => ?_
  refine reads_bind (reads_block one limit) fun ys body inner => ?_
  refine reads_bind (reads_requireKeyword _ _) fun _ _ ⟨ends⟩ => reads_pure ?_
  intro t starts
  simpa using StmtOf.loop starts condition opens inner ends

theorem reads_returned (nested : Reads n ValueOf value) :
    Reads n (After "RETURN") (returned value) := by
  refine reads_bind nested fun xs e given => ?_
  refine reads_bind (reads_requireOperator _ _) fun _ _ ⟨ends⟩ => reads_pure ?_
  intro t starts
  simpa using StmtOf.return starts given ends

theorem reads_assignmentOrExpression (nested : Reads n ValueOf value) :
    Reads n (fun xs s => startsWith statementWords xs = false → StmtOf xs s)
      (assignmentOrExpression value) := by
  refine reads_bind nested fun xs e first => reads_bind (reads_accept _) fun _ _ taken => ?_
  cases taken with
  | yes equal =>
    refine reads_bind nested fun ys assigned second => ?_
    refine reads_bind (reads_requireOperator _ _) fun _ _ ⟨ends⟩ => reads_pure fun other => ?_
    simpa using StmtOf.assignment (startsWith_append_left other) first equal second ends
  | no =>
    refine reads_bind (reads_requireOperator _ _) fun _ _ ⟨ends⟩ => reads_pure fun other => ?_
    simpa using StmtOf.expression (startsWith_append_left other) first ends

end

section

variable {limit : Nat}

theorem reads_statementAfter {word : String} (known : word ∈ statementWords)
    (nested : Reads n ValueOf (expression (limit + 1))) (one : Reads n StmtOf (statement limit)) :
    Reads n (After word) (statementAfter limit word) := by
  simp only [statementWords, List.mem_cons, List.not_mem_nil, or_false] at known
  rcases known with rfl | rfl | rfl | rfl | rfl
  · exact reads_declaration nested
  · exact reads_conditional nested one
  · exact reads_switch nested one
  · exact reads_loop nested one
  · exact reads_returned nested

theorem reads_statement {limit : Nat} (deep : n ≤ limit) : Reads n StmtOf (statement limit) := by
  induction limit generalizing n with
  | zero => exact reads_fail some_stmt
  | succ limit ih =>
    intro ts within
    have nested : Reads n ValueOf (expression (limit + 1)) := reads_expression deep
    cases starts : startsWith statementWords ts with
    | false =>
      rw [statement_other starts]
      exact derived_of_other (reads_assignmentOrExpression nested) some_stmt starts within
    | true =>
      cases ts with
      | nil => cases starts
      | cons t ts =>
        obtain ⟨word, known, holds⟩ := List.any_eq_true.mp starts
        rw [statement_word _ known holds]
        have shorter : Reads limit ValueOf (expression (limit + 1)) :=
          reads_expression (Nat.le_succ limit)
        refine derived_cons ?_ (Nat.le_trans within deep)
        exact reads_imp (reads_statementAfter known shorter (ih (Nat.le_refl limit)))
          fun xs s after => after t holds

end

section

variable {limit : Nat}

theorem reads_listLiteral (deep : n < limit) : Reads n ListOf (listLiteral limit) := by
  refine reads_bind (reads_requireOperator _ _) fun _ _ ⟨opens⟩ => ?_
  have nested : Reads n ValueOf (expression limit) := reads_expression (Nat.le_of_lt deep)
  refine reads_bind (reads_listUntil nested deep) fun xs es inner => ?_
  refine reads_bind (reads_requireOperator _ _) fun _ _ ⟨closes⟩ => reads_pure ?_
  simpa using ListOf.list opens inner closes

def GlobalAfter (keyword : String) (xs : List Token) (g : Global) : Prop :=
  ∀ t : Token, t.isKeyword keyword → GlobalOf (t :: xs) g

theorem reads_globalOf {keyword : String} (known : keyword ∈ globalKeywords) (deep : n < limit) :
    Reads n (GlobalAfter keyword) (globalOf limit keyword) := by
  have nested : Reads n ValueOf (expression limit) := reads_expression (Nat.le_of_lt deep)
  refine reads_bind (reads_requireName _) fun xs name named => ?_
  refine reads_bind reads_typeAnnotation fun ys typeName typed => ?_
  simp only [globalKeywords, List.mem_cons, List.not_mem_nil, or_false] at known
  rcases known with rfl | rfl | rfl
  · refine reads_bind (reads_initializer (reads_listLiteral deep)) fun zs value given => ?_
    refine reads_bind (reads_requireOperator _ _) fun _ _ ⟨ends⟩ => reads_pure ?_
    intro t starts
    simpa using GlobalOf.list starts named typed given ends
  · refine reads_bind (reads_initializer nested) fun zs value given => ?_
    refine reads_bind (reads_requireOperator _ _) fun _ _ ⟨ends⟩ => reads_pure ?_
    intro t starts
    simpa using GlobalOf.variable starts named typed given ends
  · refine reads_bind (reads_requireOperator _ _) fun _ _ ⟨equal⟩ => ?_
    refine reads_bind nested fun zs e given => ?_
    have set : Reads n (fun ws value => ws = [] ∧ value = some e) (pure (some e)) :=
      reads_pure ⟨rfl, rfl⟩
    refine reads_bind set fun ws value ⟨empty, same⟩ => ?_
    subst empty same
    refine reads_bind (reads_requireOperator _ _) fun _ _ ⟨ends⟩ => reads_pure ?_
    intro t starts
    simpa using GlobalOf.constant starts named typed equal given ends

theorem reads_parameter : Reads n ParameterOf parameter := by
  refine reads_bind (reads_requireName _) fun xs name named => ?_
  refine reads_bind (reads_requireOperator _ _) fun _ _ ⟨colon⟩ => ?_
  refine reads_bind (reads_requireName _) fun ys typeName typed => reads_pure ?_
  simpa using ParameterOf.parameter named colon typed

theorem reads_function (deep : n < limit) :
    Reads n (fun xs f => ∀ t : Token, t.isKeyword "FUN" → FunctionOf (t :: xs) f)
      (function limit) := by
  have one : Reads n StmtOf (statement limit) := reads_statement (Nat.le_of_lt deep)
  refine reads_bind (reads_requireName _) fun xs name named => ?_
  refine reads_bind (reads_requireOperator _ _) fun _ _ ⟨opens⟩ => ?_
  refine reads_bind (reads_listUntil reads_parameter deep) fun ys parameters takes => ?_
  refine reads_bind (reads_requireOperator _ _) fun _ _ ⟨closes⟩ => ?_
  refine reads_bind reads_typeAnnotation fun zs returns typed => ?_
  refine reads_bind (reads_requireKeyword _ _) fun _ _ ⟨enters⟩ => ?_
  refine reads_bind (reads_block one limit) fun ws body inner => ?_
  refine reads_bind (reads_requireKeyword _ _) fun _ _ ⟨leaves⟩ => reads_pure ?_
  intro t starts
  simpa using FunctionOf.function starts named opens takes closes typed enters inner leaves

inductive GlobalOffered : List Token → Option String → Prop where
  | none : GlobalOffered [] none
  | some {t : Token} {keyword : String} (known : keyword ∈ globalKeywords)
      (holds : t.isKeyword keyword) : GlobalOffered [t] (some keyword)

theorem reads_globalKeyword : Reads n GlobalOffered globalKeyword := by
  intro ts _
  cases ts with
  | nil => exact ⟨[], rfl, .none⟩
  | cons t ts =>
    simp only [globalKeyword]
    split
    · next offered =>
      obtain ⟨keyword, known, holds⟩ := List.any_eq_true.mp offered
      have text : t.text = keyword := by
        simp only [Token.isKeyword, Bool.and_eq_true, beq_iff_eq] at holds
        exact holds.2
      exact ⟨[t], rfl, .some (text ▸ known) (text ▸ holds)⟩
    · exact ⟨[], rfl, .none⟩

theorem reads_globals (deep : n < limit) (count : Nat) :
    Reads n (Many GlobalOf) (globals limit count) := by
  induction count with
  | zero => exact reads_pure .nil
  | succ count ih =>
    refine reads_bind reads_globalKeyword fun xs keyword offered => ?_
    cases offered with
    | none => exact reads_pure .nil
    | some known holds =>
      refine reads_bind (reads_globalOf known deep) fun ys g first => ?_
      refine reads_bind ih fun zs gs others => reads_pure ?_
      simpa using Many.cons (first _ holds) others

theorem reads_functions (deep : n < limit) (count : Nat) :
    Reads n (Many FunctionOf) (functions limit count) := by
  induction count with
  | zero => exact reads_pure .nil
  | succ count ih =>
    refine reads_bind (reads_accept _) fun xs another taken => ?_
    cases taken with
    | yes starts =>
      refine reads_bind (reads_function deep) fun ys f first => ?_
      refine reads_bind ih fun zs fs others => reads_pure ?_
      simpa using Many.cons (first _ starts) others
    | no =>
      refine reads_bind (reads_nextIs _) fun xs late empty => ?_
      subst empty
      refine reads_ite (fun _ => reads_fail ⟨[], [], .nil⟩) fun _ => ?_
      refine reads_bind (reads_nextIs _) fun xs more empty => ?_
      subst empty
      exact reads_ite (fun _ => reads_fail ⟨[], [], .nil⟩) fun _ => reads_pure .nil

theorem reads_program (deep : n < limit) : Reads n ProgramOf (program limit) := by
  refine reads_bind (reads_globals deep limit) fun xs gs globals => ?_
  refine reads_bind (reads_functions deep limit) fun ys fs functions => reads_pure ?_
  simpa using ProgramOf.program globals functions

end

end Plc.Parser

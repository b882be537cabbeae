import Plc.Proofs.Syntax.Sound

/-!
How far the parser looks: what it answers depends on the tokens that it takes and the one behind
them, and on nothing after that. Nor does it depend on the depth, once that is above the number of
the tokens.
-/

namespace Plc.Parser

open Grammar

variable {α β : Type} {G : List Token → α → Prop} {n : Nat}

def stopping (x : Except ParseError α) (rest : List Token) : Except Fault (α × List Token) :=
  match x with
  | .ok a => .ok (a, rest)
  | .error cause => .error ⟨cause, rest⟩

/-- An answer that `q` gives too, also if behind the next token others are left. -/
def Tracks (q : Parser α) (ts : List Token) (answer : Except Fault (α × List Token)) : Prop :=
  ∃ x xs rest, ts = xs ++ rest ∧ answer = stopping x rest ∧
    ∀ others, others.head? = rest.head? → q (xs ++ others) = stopping x others

def Agrees (n : Nat) (p q : Parser α) : Prop := ∀ ts, ts.length ≤ n → Tracks q ts (p ts)

theorem agrees_mono {m : Nat} {p q : Parser α} (agrees : Agrees n p q) (less : m ≤ n) :
    Agrees m p q :=
  fun ts within => agrees ts (Nat.le_trans within less)

/-- What looks at one token and takes none. -/
theorem tracks_stay {q : Parser α} {ts : List Token} (x : Except ParseError α)
    (same : ∀ others, others.head? = ts.head? → q others = stopping x others) :
    Tracks q ts (stopping x ts) :=
  ⟨x, [], ts, rfl, rfl, same⟩

theorem tracks_take {q : Parser α} {t : Token} {ts : List Token} (a : α)
    (same : ∀ others, q (t :: others) = .ok (a, others)) : Tracks q (t :: ts) (.ok (a, ts)) :=
  ⟨.ok a, [t], ts, rfl, rfl, fun others _ => same others⟩

theorem tracks_cons {q q' : Parser α} {t : Token} {ts : List Token}
    {answer : Except Fault (α × List Token)} (tracks : Tracks q ts answer)
    (same : ∀ others, q' (t :: others) = q others) : Tracks q' (t :: ts) answer := by
  obtain ⟨x, xs, rest, rfl, rfl, others⟩ := tracks
  exact ⟨x, t :: xs, rest, rfl, rfl, fun more head => (same _).trans (others more head)⟩

theorem agrees_pure (a : α) : Agrees n (pure a) (pure a) :=
  fun _ _ => tracks_stay (.ok a) fun _ _ => rfl

theorem agrees_fail (cause : ParseError) : Agrees n (fail cause : Parser α) (fail cause) :=
  fun _ _ => tracks_stay (.error cause) fun _ _ => rfl

theorem head?_append_congr {xs ys zs : List Token} (same : ys.head? = zs.head?) :
    (xs ++ ys).head? = (xs ++ zs).head? := by
  cases xs with
  | nil => exact same
  | cons x xs => rfl

/-- One parser after another. The second meets what the first leaves: the token that the first stops
at is the first one of its own, or the same where it takes none. -/
theorem agrees_bind_taken {p p' : Parser α} {q q' : α → Parser β} (first : Agrees n p p')
    (others : ∀ xs rest a, p (xs ++ rest) = .ok (a, rest) → (xs ++ rest).length ≤ n →
      Agrees (n - xs.length) (q a) (q' a)) : Agrees n (p >>= q) (p' >>= q') := by
  intro ts within
  rw [bind_eq]
  obtain ⟨x, xs, rest, rfl, answer, same⟩ := first ts within
  rw [answer]
  cases x with
  | error cause =>
    refine ⟨.error cause, xs, rest, rfl, rfl, fun more head => ?_⟩
    rw [bind_eq, same more head]
    rfl
  | ok a =>
    have fewer : rest.length ≤ n - xs.length := by
      rw [List.length_append] at within
      omega
    obtain ⟨y, ys, last, rfl, after, agree⟩ := others xs rest a answer within rest fewer
    refine ⟨y, xs ++ ys, last, (List.append_assoc ..).symm, after, fun more head => ?_⟩
    have start := same (ys ++ more) (head?_append_congr head)
    rw [List.append_assoc, bind_of_ok start]
    exact agree more head

theorem agrees_bind_within {p p' : Parser α} {q q' : α → Parser β} (reads : Reads n G p)
    (first : Agrees n p p')
    (others : ∀ xs a, G xs a → xs.length ≤ n → Agrees (n - xs.length) (q a) (q' a)) :
    Agrees n (p >>= q) (p' >>= q') := by
  refine agrees_bind_taken first fun xs rest a answer within => ?_
  have read := reads (xs ++ rest) within
  rw [answer] at read
  obtain ⟨taken, split, derived⟩ := read
  obtain rfl := List.append_cancel_right split
  rw [List.length_append] at within
  exact others xs a derived (by omega)

theorem agrees_bind {p p' : Parser α} {q q' : α → Parser β} (first : Agrees n p p')
    (others : ∀ a, Agrees n (q a) (q' a)) : Agrees n (p >>= q) (p' >>= q') :=
  agrees_bind_taken first fun _ _ a _ _ => agrees_mono (others a) (Nat.sub_le _ _)

theorem agrees_ite {c : Bool} {p p' q q' : Parser α} (yes : c = true → Agrees n p p')
    (no : c = false → Agrees n q q') :
    Agrees n (if c then p else q) (if c then p' else q') := by
  cases c with
  | true => exact yes rfl
  | false => exact no rfl

/-- What a parser does with the next token, if it is settled by that token: it stays in front of it,
or it goes on behind it. -/
theorem agrees_head {p : Parser α} {x : Except ParseError α} (atEnd : p [] = stopping x [])
    (atToken : ∀ t, (∃ x, ∀ ts, p (t :: ts) = stopping x (t :: ts)) ∨
      ∃ q : Parser α, Agrees n q q ∧ ∀ ts, p (t :: ts) = q ts) : Agrees n p p := by
  intro ts within
  cases ts with
  | nil =>
    rw [atEnd]
    refine tracks_stay x fun others head => ?_
    rw [List.head?_eq_none_iff.mp head, atEnd]
  | cons t ts =>
    rcases atToken t with ⟨x, stays⟩ | ⟨q, agrees, goes⟩
    · rw [stays]
      refine tracks_stay x fun others head => ?_
      obtain ⟨more, rfl⟩ := List.head?_eq_some_iff.mp head
      exact stays more
    · rw [goes]
      exact tracks_cons (agrees ts (Nat.le_of_succ_le within)) goes

theorem agrees_accept (test : Token → Bool) : Agrees n (accept test) (accept test) := by
  refine agrees_head (x := .ok false) rfl fun t => ?_
  cases holds : test t with
  | false => exact .inl ⟨.ok false, fun ts => accept_no holds⟩
  | true => exact .inr ⟨pure true, agrees_pure true, fun ts => accept_yes holds⟩

theorem agrees_require (test : Token → Bool) (what : Wanted) :
    Agrees n (require test what) (require test what) := by
  refine agrees_head (x := .error (.expected what)) rfl fun t => ?_
  cases holds : test t with
  | false =>
    refine .inl ⟨.error (.expected what), fun ts => ?_⟩
    simp only [require, holds, Bool.false_eq_true, if_false, stopping]
  | true => exact .inr ⟨pure (), agrees_pure (), fun ts => require_yes holds⟩

theorem agrees_requireName (what : Wanted) :
    Agrees n (requireName what) (requireName what) := by
  refine agrees_head (x := .error (.expected what)) rfl fun t => ?_
  by_cases kind : t.kind = .identifier
  · exact .inr ⟨pure t.text, agrees_pure _, fun ts => if_pos kind⟩
  · exact .inl ⟨.error (.expected what), fun ts => if_neg kind⟩

theorem agrees_nextIs (test : Token → Bool) : Agrees n (nextIs test) (nextIs test) := by
  intro ts _
  refine tracks_stay (.ok _) fun others head => ?_
  rw [nextIs, head]
  rfl

section

variable {limit limit' : Nat} {value value' : Parser Expr}

theorem agrees_separated {item item' : Parser α} (reads : Reads n G item)
    (one : Agrees n item item') {limit limit' : Nat} (deep : n < limit) (deeper : limit ≤ limit') :
    Agrees n (separated item limit) (separated item' limit') := by
  induction limit generalizing n limit' with
  | zero => exact absurd deep (Nat.not_lt_zero n)
  | succ limit ih =>
    obtain ⟨limit', rfl⟩ := Nat.exists_eq_succ_of_ne_zero (show limit' ≠ 0 by omega)
    refine agrees_bind_within reads one fun xs a _ _ => ?_
    refine agrees_bind_within (reads_accept _) (agrees_accept _) fun ys comma taken fewer => ?_
    cases taken with
    | no => exact agrees_pure [a]
    | yes between =>
      rw [List.length_singleton] at fewer ⊢
      have less : n - xs.length - 1 ≤ n := by omega
      have rest := ih (reads_mono reads less) (agrees_mono one less) (by omega)
        (Nat.le_of_succ_le_succ deeper)
      exact agrees_bind rest fun as => agrees_pure (a :: as)

theorem agrees_listUntil {closing : String} {item item' : Parser α} (reads : Reads n G item)
    (one : Agrees n item item') (deep : n < limit) (deeper : limit ≤ limit') :
    Agrees n (listUntil closing item limit) (listUntil closing item' limit') := by
  refine agrees_bind (agrees_nextIs _) fun closed => ?_
  exact agrees_ite (fun _ => agrees_pure []) fun _ => agrees_separated reads one deep deeper

theorem agrees_operatorOf (table : List Operator) :
    Agrees n (operatorOf table) (operatorOf table) := by
  refine agrees_head (x := .ok none) rfl fun t => ?_
  cases found : table.find? fun op => t.isOperator op.text with
  | none => exact .inl ⟨.ok none, fun ts => by simp only [operatorOf, found, stopping]⟩
  | some op =>
    refine .inr ⟨pure (some op), agrees_pure _, fun ts => ?_⟩
    simp only [operatorOf, found]
    rfl

theorem agrees_ordering (t : Token) (strict inclusive : Operator) :
    Agrees n (orderingOperator t strict inclusive) (orderingOperator t strict inclusive) := by
  refine agrees_head (x := .ok (some strict)) rfl fun next => ?_
  cases glued : gluedEquals t next with
  | true =>
    refine .inr ⟨pure (some inclusive), agrees_pure _, fun ts => ?_⟩
    simp only [orderingOperator, glued, if_true]
    rfl
  | false =>
    refine .inl ⟨.ok (some strict), fun ts => ?_⟩
    simp only [orderingOperator, glued, Bool.false_eq_true, if_false, stopping]

theorem agrees_comparing : Agrees n comparingOperator comparingOperator := by
  refine agrees_head (x := .ok none) rfl fun t => ?_
  simp only [comparingOperator]
  split
  · exact .inr ⟨pure (some .equal), agrees_pure _, fun ts => rfl⟩
  split
  · exact .inr ⟨pure (some .notEqual), agrees_pure _, fun ts => rfl⟩
  split
  · exact .inr ⟨_, agrees_ordering t .less .lessEqual, fun ts => rfl⟩
  split
  · exact .inr ⟨_, agrees_ordering t .greater .greaterEqual, fun ts => rfl⟩
  · exact .inl ⟨.ok none, fun ts => rfl⟩

theorem agrees_operator (layer : Layer) :
    Agrees n (operatorReader layer) (operatorReader layer) := by
  cases layer with
  | comparing => exact agrees_comparing
  | logical => exact agrees_operatorOf _
  | adding => exact agrees_operatorOf _
  | multiplying => exact agrees_operatorOf _

theorem agrees_chain {layer : Layer} (reads : Reads n (ExprOf layer.operand) value)
    (operand : Agrees n value value') {limit limit' : Nat} (deep : n < limit)
    (deeper : limit ≤ limit') (left : Expr) :
    Agrees n (chain (operatorReader layer) value limit left)
      (chain (operatorReader layer) value' limit' left) := by
  induction limit generalizing n limit' left with
  | zero => exact absurd deep (Nat.not_lt_zero n)
  | succ limit ih =>
    obtain ⟨limit', rfl⟩ := Nat.exists_eq_succ_of_ne_zero (show limit' ≠ 0 by omega)
    refine agrees_bind_within (reads_operator layer) (agrees_operator layer)
      fun xs found offered fewer => ?_
    cases offered with
    | none => exact agrees_pure left
    | @some _ op sign =>
      have longer : 0 < xs.length := by cases sign <;> simp
      have less : n - xs.length ≤ n := Nat.sub_le _ _
      refine agrees_bind (agrees_mono operand less) fun right => ?_
      exact ih (reads_mono reads less) (agrees_mono operand less) (by omega)
        (Nat.le_of_succ_le_succ deeper) _

theorem agrees_layer (layer : Layer) (reads : Reads n (ExprOf layer.operand) value)
    (operand : Agrees n value value') (deep : n < limit) (deeper : limit ≤ limit') :
    Agrees n (Parser.layer limit (operatorReader layer) value)
      (Parser.layer limit' (operatorReader layer) value') :=
  agrees_bind operand fun left => agrees_chain reads operand deep deeper left

theorem agrees_named (reads : Reads n ValueOf value) (nested : Agrees n value value')
    (deep : n < limit) (deeper : limit ≤ limit') (name : String) :
    Agrees n (named limit value name) (named limit' value' name) := by
  refine agrees_bind (agrees_accept _) fun opens => agrees_ite (fun _ => ?_) fun _ => ?_
  · refine agrees_bind (agrees_listUntil reads nested deep deeper) fun args => ?_
    exact agrees_bind (agrees_require _ _) fun _ => agrees_pure _
  · refine agrees_bind (agrees_accept _) fun opens => agrees_ite (fun _ => ?_) fun _ => ?_
    · refine agrees_bind nested fun index => ?_
      exact agrees_bind (agrees_require _ _) fun _ => agrees_pure _
    · exact agrees_pure _

theorem agrees_group (nested : Agrees n value value') : Agrees n (group value) (group value') :=
  agrees_bind nested fun _ => agrees_bind (agrees_require _ _) fun _ => agrees_pure _

theorem tracks_literal {q : Parser Expr} {t : Token} {ts : List Token} {l : Option Literal}
    {cause : ParseError} (same : ∀ others, q (t :: others) = literal l cause t others) :
    Tracks q (t :: ts) (literal l cause t ts) := by
  cases l with
  | none =>
    refine tracks_stay (.error cause) fun others head => ?_
    obtain ⟨more, rfl⟩ := List.head?_eq_some_iff.mp head
    exact same more
  | some l => exact tracks_take _ same

theorem agrees_primary (reads : ∀ m < n, Reads m ValueOf value)
    (nested : ∀ m < n, Agrees m value value') (deep : n ≤ limit) (deeper : limit ≤ limit') :
    Agrees n (primary limit value) (primary limit' value') := by
  intro ts within
  cases ts with
  | nil =>
    refine tracks_stay (.error _) fun others head => ?_
    rw [List.head?_eq_none_iff.mp head]
    rfl
  | cons t ts =>
    have inside := nested ts.length within
    cases kind : t.kind with
    | identifier =>
      cases known : Literal.ofWord? t.text with
      | some l =>
        simp only [primary, kind, known]
        exact tracks_take _ fun others => by simp only [primary, kind, known]
      | none =>
        simp only [primary, kind, known]
        have least := Nat.lt_of_lt_of_le within deep
        have next := agrees_named (reads ts.length within) inside least deeper t.text ts
        exact tracks_cons (next (Nat.le_refl _))
          fun others => by simp only [primary, kind, known]
    | integer | decimal | character =>
      simp only [primary, kind]
      exact tracks_literal fun others => by simp only [primary, kind]
    | string =>
      simp only [primary, kind]
      exact tracks_take _ fun others => by simp only [primary, kind]
    | operator =>
      by_cases opens : t.text = "("
      · simp only [primary, kind, opens, if_true]
        exact tracks_cons (agrees_group inside ts (Nat.le_refl _))
          fun others => by simp only [primary, kind, opens, if_true]
      · simp only [primary, kind, opens, if_false]
        refine tracks_stay (.error _) fun others head => ?_
        obtain ⟨more, rfl⟩ := List.head?_eq_some_iff.mp head
        simp only [primary, kind, opens, if_false]
        rfl

theorem agrees_expression {limit limit' : Nat} (deep : n < limit) (deeper : limit ≤ limit') :
    Agrees n (expression limit) (expression limit') := by
  induction limit generalizing n limit' with
  | zero => exact absurd deep (Nat.not_lt_zero n)
  | succ limit ih =>
    obtain ⟨limit', rfl⟩ := Nat.exists_eq_succ_of_ne_zero (show limit' ≠ 0 by omega)
    have less : n ≤ limit := Nat.le_of_lt_succ deep
    have reads : Reads n (ExprOf none) (primary (limit + 1) (expression limit)) :=
      reads_mono (reads_primary (reads_expression (Nat.le_refl limit)) (Nat.lt_succ_self limit))
        (Nat.le_of_lt deep)
    have primary : Agrees n (primary (limit + 1) (expression limit))
        (primary (limit' + 1) (expression limit')) :=
      agrees_primary (fun m fewer => reads_expression (by omega))
        (fun m fewer => ih (by omega) (Nat.le_of_succ_le_succ deeper)) (by omega) deeper
    have multiplying := agrees_layer .multiplying reads primary deep deeper
    have reads := reads_layer .multiplying (limit + 1) reads
    have adding := agrees_layer .adding reads multiplying deep deeper
    have reads := reads_layer .adding (limit + 1) reads
    have comparing := agrees_layer .comparing reads adding deep deeper
    have reads := reads_layer .comparing (limit + 1) reads
    exact agrees_layer .logical reads comparing deep deeper

end

theorem agrees_typeAnnotation : Agrees n typeAnnotation typeAnnotation := by
  refine agrees_bind (agrees_accept _) fun colon => agrees_ite (fun _ => ?_) fun _ => agrees_pure _
  exact agrees_bind (agrees_requireName _) fun _ => agrees_pure _

theorem agrees_initializer {value value' : Parser Expr} (one : Agrees n value value') :
    Agrees n (initializer value) (initializer value') := by
  refine agrees_bind (agrees_accept _) fun equals => agrees_ite (fun _ => ?_) fun _ => agrees_pure _
  exact agrees_bind one fun _ => agrees_pure _

section

variable {limit limit' : Nat} {value value' : Parser Expr} {statement statement' : Parser Stmt}

theorem agrees_block {words : List String} (reads : Reads n StmtOf statement)
    (one : Agrees n statement statement') {limit limit' : Nat} (deep : n < limit)
    (deeper : limit ≤ limit') :
    Agrees n (block words statement limit) (block words statement' limit') := by
  induction limit generalizing n limit' with
  | zero => exact absurd deep (Nat.not_lt_zero n)
  | succ limit ih =>
    obtain ⟨limit', rfl⟩ := Nat.exists_eq_succ_of_ne_zero (show limit' ≠ 0 by omega)
    refine agrees_bind (agrees_nextIs _) fun stops =>
      agrees_ite (fun _ => agrees_pure []) fun _ => ?_
    refine agrees_bind (agrees_nextIs _) fun more =>
      agrees_ite (fun _ => ?_) fun _ => agrees_fail _
    refine agrees_bind_within reads one fun xs first derived fewer => ?_
    have longer : 0 < xs.length := List.length_pos_iff.mpr (ne_nil_of_stmt derived)
    have less : n - xs.length ≤ n := Nat.sub_le _ _
    have others := ih (reads_mono reads less) (agrees_mono one less) (by omega)
      (Nat.le_of_succ_le_succ deeper)
    exact agrees_bind others fun _ => agrees_pure _

theorem agrees_declaration (nested : Agrees n value value') :
    Agrees n (declaration value) (declaration value') := by
  refine agrees_bind (agrees_requireName _) fun name => ?_
  refine agrees_bind agrees_typeAnnotation fun typeName => ?_
  refine agrees_bind (agrees_initializer nested) fun initial => ?_
  have last : Agrees n (do
      requireOperator ";" .localEnd
      pure (Stmt.declaration name typeName initial none)) (do
      requireOperator ";" .localEnd
      pure (Stmt.declaration name typeName initial none)) :=
    agrees_bind (agrees_require _ _) fun _ => agrees_pure _
  exact agrees_ite (fun _ => agrees_bind (agrees_fail _) fun _ => last) fun _ => last

theorem agrees_conditional (reads : Reads n StmtOf statement) (nested : Agrees n value value')
    (one : Agrees n statement statement') (deep : n < limit) (deeper : limit ≤ limit') :
    Agrees n (conditional limit value statement) (conditional limit' value' statement') := by
  refine agrees_bind nested fun c => agrees_bind (agrees_require _ _) fun _ => ?_
  refine agrees_bind (agrees_block reads one deep deeper) fun whenTrue => ?_
  refine agrees_bind (agrees_accept _) fun other => ?_
  have last (whenFalse : List Stmt) : Agrees n (do
      requireKeyword "END" .ifClosing
      pure (Stmt.conditional c whenTrue whenFalse)) (do
      requireKeyword "END" .ifClosing
      pure (Stmt.conditional c whenTrue whenFalse)) :=
    agrees_bind (agrees_require _ _) fun _ => agrees_pure _
  refine agrees_ite (fun _ => ?_) fun _ => agrees_bind (agrees_pure _) last
  exact agrees_bind (agrees_block reads one deep deeper) last

theorem agrees_valueCases {body body' : Parser (List Stmt)} (nested : Agrees n value value')
    (inner : Agrees n body body') {limit limit' : Nat} (deep : n < limit)
    (deeper : limit ≤ limit') :
    Agrees n (valueCases value body limit) (valueCases value' body' limit') := by
  induction limit generalizing n limit' with
  | zero => exact absurd deep (Nat.not_lt_zero n)
  | succ limit ih =>
    obtain ⟨limit', rfl⟩ := Nat.exists_eq_succ_of_ne_zero (show limit' ≠ 0 by omega)
    refine agrees_bind_within (reads_accept _) (agrees_accept _) fun xs another taken fewer => ?_
    cases taken with
    | no => exact agrees_pure []
    | yes starts =>
      rw [List.length_singleton] at fewer ⊢
      have less : n - 1 ≤ n := Nat.sub_le _ _
      refine agrees_bind (agrees_mono nested less) fun e => ?_
      refine agrees_bind (agrees_require _ _) fun _ => ?_
      refine agrees_bind (agrees_mono inner less) fun ss => ?_
      have others := ih (agrees_mono nested less) (agrees_mono inner less) (by omega)
        (Nat.le_of_succ_le_succ deeper)
      exact agrees_bind others fun _ => agrees_pure _

theorem agrees_defaultCase {body body' : Parser (List Stmt)} (inner : Agrees n body body') :
    Agrees n (defaultCase body) (defaultCase body') := by
  refine agrees_bind (agrees_accept _) fun another =>
    agrees_ite (fun _ => ?_) fun _ => agrees_pure _
  refine agrees_bind inner fun ss => agrees_bind (agrees_nextIs _) fun last => ?_
  exact agrees_ite (fun _ => agrees_pure _) fun _ => agrees_fail _

theorem agrees_switch (reads : Reads n StmtOf statement) (nested : Agrees n value value')
    (one : Agrees n statement statement') (deep : n < limit) (deeper : limit ≤ limit') :
    Agrees n (switch limit value statement) (switch limit' value' statement') := by
  have inner : Agrees n (block caseTerminators statement limit)
      (block caseTerminators statement' limit') := agrees_block reads one deep deeper
  refine agrees_bind nested fun c => ?_
  refine agrees_bind (agrees_valueCases nested inner deep deeper) fun arms => ?_
  refine agrees_bind (agrees_defaultCase inner) fun default => ?_
  exact agrees_bind (agrees_require _ _) fun _ => agrees_pure _

theorem agrees_loop (reads : Reads n StmtOf statement) (nested : Agrees n value value')
    (one : Agrees n statement statement') (deep : n < limit) (deeper : limit ≤ limit') :
    Agrees n (loop limit value statement) (loop limit' value' statement') := by
  refine agrees_bind nested fun c => agrees_bind (agrees_require _ _) fun _ => ?_
  refine agrees_bind (agrees_block reads one deep deeper) fun body => ?_
  exact agrees_bind (agrees_require _ _) fun _ => agrees_pure _

theorem agrees_returned (nested : Agrees n value value') :
    Agrees n (returned value) (returned value') :=
  agrees_bind nested fun _ => agrees_bind (agrees_require _ _) fun _ => agrees_pure _

theorem agrees_assignmentOrExpression (nested : Agrees n value value') :
    Agrees n (assignmentOrExpression value) (assignmentOrExpression value') := by
  refine agrees_bind nested fun e => agrees_bind (agrees_accept _) fun equals => ?_
  refine agrees_ite (fun _ => ?_) fun _ => ?_
  · refine agrees_bind nested fun assigned => ?_
    exact agrees_bind (agrees_require _ _) fun _ => agrees_pure _
  · exact agrees_bind (agrees_require _ _) fun _ => agrees_pure _

end

/-- A keyword decides between two parsers. The one behind it has fewer tokens left. -/
theorem agrees_branch {keyword : String} {p p' q q' : Parser α} (yes : ∀ m < n, Agrees m p p')
    (no : Agrees n q q') :
    Agrees n (do if ← acceptKeyword keyword then p else q)
      (do if ← acceptKeyword keyword then p' else q') := by
  refine agrees_bind_within (reads_accept _) (agrees_accept _) fun xs found taken fewer => ?_
  cases taken with
  | yes holds =>
    rw [List.length_singleton] at fewer ⊢
    exact yes (n - 1) (by omega)
  | no => exact no

theorem agrees_statement {limit limit' : Nat} (deep : n < limit) (deeper : limit ≤ limit') :
    Agrees n (statement limit) (statement limit') := by
  induction limit generalizing n limit' with
  | zero => exact absurd deep (Nat.not_lt_zero n)
  | succ limit ih =>
    obtain ⟨limit', rfl⟩ := Nat.exists_eq_succ_of_ne_zero (show limit' ≠ 0 by omega)
    have whole := agrees_expression deep deeper
    have nested : ∀ m < n, Agrees m (expression (limit + 1)) (expression (limit' + 1)) :=
      fun m fewer => agrees_mono whole (Nat.le_of_lt fewer)
    have one : ∀ m < n, Agrees m (statement limit) (statement limit') :=
      fun m fewer => ih (by omega) (Nat.le_of_succ_le_succ deeper)
    have reads : ∀ m < n, Reads m StmtOf (statement limit) :=
      fun m fewer => reads_statement (by omega)
    refine agrees_branch (fun m fewer => agrees_declaration (nested m fewer)) ?_
    refine agrees_branch (fun m fewer => ?_) ?_
    · exact agrees_conditional (reads m fewer) (nested m fewer) (one m fewer) (by omega) deeper
    refine agrees_branch (fun m fewer => ?_) ?_
    · exact agrees_switch (reads m fewer) (nested m fewer) (one m fewer) (by omega) deeper
    refine agrees_branch (fun m fewer => ?_) ?_
    · exact agrees_loop (reads m fewer) (nested m fewer) (one m fewer) (by omega) deeper
    refine agrees_branch (fun m fewer => agrees_returned (nested m fewer)) ?_
    exact agrees_assignmentOrExpression whole

section

variable {limit limit' : Nat}

theorem agrees_listLiteral (deep : n < limit) (deeper : limit ≤ limit') :
    Agrees n (listLiteral limit) (listLiteral limit') := by
  have reads : Reads n ValueOf (expression limit) := reads_expression (Nat.le_of_lt deep)
  refine agrees_bind (agrees_require _ _) fun _ => ?_
  refine agrees_bind (agrees_listUntil reads (agrees_expression deep deeper) deep deeper)
    fun elements => ?_
  exact agrees_bind (agrees_require _ _) fun _ => agrees_pure _

theorem agrees_globalOf (keyword : String) (deep : n < limit) (deeper : limit ≤ limit') :
    Agrees n (globalOf limit keyword) (globalOf limit' keyword) := by
  have nested := agrees_expression deep deeper
  refine agrees_bind (agrees_requireName _) fun name => ?_
  refine agrees_bind agrees_typeAnnotation fun typeName => ?_
  have last (value : Option Expr) : Agrees n (do
      requireOperator ";" .globalEnd
      pure (Global.mk name typeName (keyword != "VAL") (keyword == "LIST") value none)) (do
      requireOperator ";" .globalEnd
      pure (Global.mk name typeName (keyword != "VAL") (keyword == "LIST") value none)) :=
    agrees_bind (agrees_require _ _) fun _ => agrees_pure _
  by_cases list : keyword = "LIST"
  · simp only [list, if_true] at last ⊢
    exact agrees_bind (agrees_initializer (agrees_listLiteral deep deeper)) last
  by_cases «variable» : keyword = "VAR"
  · simp only [«variable», String.reduceEq, if_false, if_true] at last ⊢
    exact agrees_bind (agrees_initializer nested) last
  simp only [list, «variable», if_false]
  refine agrees_bind (agrees_require _ _) fun _ => agrees_bind nested fun e => ?_
  exact agrees_bind (agrees_pure _) last

theorem agrees_parameter : Agrees n parameter parameter := by
  refine agrees_bind (agrees_requireName _) fun name => agrees_bind (agrees_require _ _) fun _ => ?_
  exact agrees_bind (agrees_requireName _) fun _ => agrees_pure _

theorem agrees_function (deep : n < limit) (deeper : limit ≤ limit') :
    Agrees n (function limit) (function limit') := by
  have one : Reads n StmtOf (statement limit) := reads_statement (Nat.le_of_lt deep)
  refine agrees_bind (agrees_requireName _) fun name => agrees_bind (agrees_require _ _) fun _ => ?_
  refine agrees_bind (agrees_listUntil reads_parameter agrees_parameter deep deeper)
    fun parameters => ?_
  refine agrees_bind (agrees_require _ _) fun _ => agrees_bind agrees_typeAnnotation fun type => ?_
  refine agrees_bind (agrees_require _ _) fun _ => ?_
  refine agrees_bind (agrees_block one (agrees_statement deep deeper) deep deeper) fun body => ?_
  exact agrees_bind (agrees_require _ _) fun _ => agrees_pure _

theorem agrees_globalKeyword : Agrees n globalKeyword globalKeyword := by
  refine agrees_head (x := .ok none) rfl fun t => ?_
  cases known : globalKeywords.any t.isKeyword with
  | true =>
    refine .inr ⟨pure (some t.text), agrees_pure _, fun ts => ?_⟩
    simp only [globalKeyword, known, if_true]
    rfl
  | false =>
    refine .inl ⟨.ok none, fun ts => ?_⟩
    simp only [globalKeyword, known, Bool.false_eq_true, if_false, stopping]

theorem agrees_globals (deep : n < limit) (deeper : limit ≤ limit') {count count' : Nat}
    (enough : n < count) (more : count ≤ count') :
    Agrees n (globals limit count) (globals limit' count') := by
  induction count generalizing n count' with
  | zero => exact absurd enough (Nat.not_lt_zero n)
  | succ count ih =>
    obtain ⟨count', rfl⟩ := Nat.exists_eq_succ_of_ne_zero (show count' ≠ 0 by omega)
    refine agrees_bind_within reads_globalKeyword agrees_globalKeyword
      fun xs keyword offered fewer => ?_
    cases offered with
    | none => exact agrees_pure []
    | some known holds =>
      rw [List.length_singleton] at fewer ⊢
      refine agrees_bind (agrees_globalOf _ (by omega) deeper) fun first => ?_
      have others := ih (n := n - 1) (by omega) (by omega) (Nat.le_of_succ_le_succ more)
      exact agrees_bind others fun _ => agrees_pure _

theorem agrees_functions (deep : n < limit) (deeper : limit ≤ limit') {count count' : Nat}
    (enough : n < count) (more : count ≤ count') :
    Agrees n (functions limit count) (functions limit' count') := by
  induction count generalizing n count' with
  | zero => exact absurd enough (Nat.not_lt_zero n)
  | succ count ih =>
    obtain ⟨count', rfl⟩ := Nat.exists_eq_succ_of_ne_zero (show count' ≠ 0 by omega)
    refine agrees_branch (fun m fewer => ?_) ?_
    · refine agrees_bind (agrees_function (by omega) deeper) fun first => ?_
      have others := ih (n := m) (by omega) (by omega) (Nat.le_of_succ_le_succ more)
      exact agrees_bind others fun _ => agrees_pure _
    · refine agrees_bind (agrees_nextIs _) fun late =>
        agrees_ite (fun _ => agrees_fail _) fun _ => ?_
      refine agrees_bind (agrees_nextIs _) fun left =>
        agrees_ite (fun _ => agrees_fail _) fun _ => agrees_pure _

theorem agrees_program (deep : n < limit) (deeper : limit ≤ limit') :
    Agrees n (program limit) (program limit') := by
  refine agrees_bind (agrees_globals deep deeper deep deeper) fun gs => ?_
  exact agrees_bind (agrees_functions deep deeper deep deeper) fun fs => agrees_pure _

end

end Plc.Parser

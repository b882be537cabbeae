import Plc.Proofs.Syntax.Finds

/-!
The parser answers every tree that the grammar derives: statements, then whole programs.
-/

namespace Plc.Parser

open Grammar

variable {α : Type} {n : Nat}

def Unsigned (text : String) (rest : List Token) : Prop :=
  rest.head?.any (·.isOperator text) = false

theorem unsigned_signed {text other : String} (differ : text ≠ other) {rest : List Token}
    (signed : Signed text rest) : Unsigned other rest := by
  obtain ⟨t, ts, rfl, holds⟩ := signed
  exact isOperator_other holds differ

theorem finds_typeAnnotation : Finds n AnnotationOf (Unsigned ":") typeAnnotation := by
  intro xs typeName rest derived _ next
  cases derived with
  | absent =>
    rw [List.nil_append, typeAnnotation, acceptOperator, bind_of_ok (accept_no next)]
    rfl
  | present sign type =>
    rw [List.cons_append, typeAnnotation, acceptOperator, bind_of_ok (accept_yes sign), if_pos rfl,
      bind_of_ok (requireName_yes type rest)]
    rfl

section

variable {limit : Nat} {value : Parser Expr} {statement : Parser Stmt} {words : List String}
  {rest : List Token}

theorem finds_initializer {Value : List Token → Expr → Prop} {Next : List Token → Prop}
    (one : Finds n Value Next value) :
    Finds n (InitialOf Value) (fun rest => Next rest ∧ Unsigned "=" rest) (initializer value) := by
  intro xs initial rest derived within next
  cases derived with
  | absent =>
    rw [List.nil_append, initializer, acceptOperator, bind_of_ok (accept_no next.2)]
    rfl
  | present sign given =>
    rw [List.length_cons] at within
    rw [List.cons_append, initializer, acceptOperator, bind_of_ok (accept_yes sign), if_pos rfl,
      bind_of_ok (one _ _ rest given (by omega) next.1)]
    rfl

theorem unsigned_initial {Value : List Token → Expr → Prop} {xs : List Token}
    {initial : Option Expr} (derived : InitialOf Value xs initial) {text : String}
    (differ : "=" ≠ text) (next : Unsigned text rest) : Unsigned text (xs ++ rest) := by
  cases derived with
  | absent => exact next
  | present sign given => exact isOperator_other sign differ

theorem startsWith_keyword {text : String} (among : text ∈ words) {t : Token}
    (holds : t.isKeyword text) (ts : List Token) : startsWith words (t :: ts) = true :=
  List.any_eq_true.mpr ⟨text, among, holds⟩

theorem finds_block (one : Finds n StmtOf Free statement) {xs : List Token} {ss : List Stmt}
    (derived : BlockOf words xs ss) (within : xs.length ≤ n)
    (stops : startsWith words rest = true) (deep : xs.length < limit) :
    block words statement limit (xs ++ rest) = .ok (ss, rest) := by
  induction ss generalizing xs limit with
  | nil =>
    obtain ⟨limit, rfl⟩ := Nat.exists_eq_succ_of_ne_zero (Nat.ne_of_gt (Nat.zero_lt_of_lt deep))
    cases derived with
    | nil => exact block_stop stops
  | cons s ss ih =>
    obtain ⟨limit, rfl⟩ := Nat.exists_eq_succ_of_ne_zero (Nat.ne_of_gt (Nat.zero_lt_of_lt deep))
    cases derived with
    | @cons words ys zs s ss inside first others =>
      rw [List.length_append] at within deep
      have next := one ys s (zs ++ rest) first (by omega) trivial
      cases ys with
      | nil => exact absurd rfl (ne_nil_of_stmt first)
      | cons t ys =>
        rw [List.length_cons] at within deep
        rw [List.cons_append] at next
        have goes : startsWith words (t :: (ys ++ (zs ++ rest))) = false := inside
        rw [List.append_assoc, List.cons_append, block_more goes, bind_of_ok next,
          bind_of_ok (ih others (by omega) (by omega))]
        rfl

theorem finds_declaration {semicolon : Token} {names types values : List Token} {name : String}
    {typeName : Option String} {initial : Option Expr}
    (nested : Finds n ValueOf (Behind (some .logical)) value) (named : NameOf names name)
    (typed : AnnotationOf types typeName) (given : InitialOf ValueOf values initial)
    (either : typeName ≠ none ∨ initial ≠ none) (ends : semicolon.isOperator ";")
    (shorter : types.length ≤ n) (short : values.length ≤ n) :
    declaration value (names ++ (types ++ (values ++ semicolon :: rest))) =
      .ok (.declaration name typeName initial none, rest) := by
  have stop : Signed ";" (semicolon :: rest) := ⟨_, _, rfl, ends⟩
  have free : Unsigned ":" (semicolon :: rest) := unsigned_signed (by decide) stop
  have behind := unsigned_initial given (by decide) free
  have type := finds_typeAnnotation types typeName _ typed shorter behind
  have set := finds_initializer nested values initial (semicolon :: rest) given short
    ⟨behind_operator (by decide) stop, unsigned_signed (by decide) stop⟩
  have some : (typeName.isNone && initial.isNone) = false := by
    cases typeName <;> cases initial <;> simp_all
  rw [declaration, bind_of_ok (requireName_yes named _), bind_of_ok type, bind_of_ok set]
  simp only [some, Bool.false_eq_true, if_false]
  rw [requireOperator, bind_of_ok (require_yes ends)]
  rfl

theorem finds_conditional (nested : Finds n ValueOf (Behind (some .logical)) value)
    (one : Finds n StmtOf Free statement) (deep : n < limit) {opening closing : Token}
    {xs ys zs : List Token} {c : Expr} {whenTrue whenFalse : List Stmt} (condition : ValueOf xs c)
    (opens : opening.isKeyword "DO") (first : BlockOf ["ELSE", "END"] ys whenTrue)
    (second : ElseOf zs whenFalse) (ends : closing.isKeyword "END")
    (within : xs.length + ys.length + zs.length ≤ n) :
    conditional limit value statement (xs ++ opening :: (ys ++ (zs ++ closing :: rest))) =
      .ok (.conditional c whenTrue whenFalse, rest) := by
  have test := nested xs c (opening :: (ys ++ (zs ++ closing :: rest))) condition (by omega)
    (behind_keyword opens _)
  have stops : startsWith ["ELSE", "END"] (zs ++ closing :: rest) = true := by
    cases second with
    | absent => exact startsWith_keyword (by decide) ends rest
    | present starts inner => exact startsWith_keyword (by decide) starts _
  have yes := finds_block one first (by omega) stops (show ys.length < limit by omega)
  have last (whenFalse : List Stmt) : (do
      requireKeyword "END" .ifClosing
      pure (.conditional c whenTrue whenFalse) : Parser Stmt) (closing :: rest) =
        .ok (.conditional c whenTrue whenFalse, rest) := by
    rw [requireKeyword, bind_of_ok (require_yes ends)]
    rfl
  rw [conditional, bind_of_ok test, requireKeyword, bind_of_ok (require_yes opens), bind_of_ok yes]
  cases second with
  | absent =>
    have other : (closing :: rest).head?.any (·.isKeyword "ELSE") = false :=
      isKeyword_other ends (by decide)
    rw [List.nil_append, acceptKeyword, bind_of_ok (accept_no other)]
    exact last []
  | @present word zs _ starts inner =>
    rw [List.length_cons] at within
    have no := finds_block one inner (by omega) (startsWith_keyword (by decide) ends rest)
      (show zs.length < limit by omega)
    rw [List.cons_append, acceptKeyword, bind_of_ok (accept_yes starts)]
    exact (bind_of_ok no).trans (last whenFalse)

/-- The arms of a switch go on as long as there is another `CASE`. -/
theorem finds_valueCases {body : Parser (List Stmt)}
    (nested : Finds n ValueOf (Behind (some .logical)) value)
    (inner : Finds n (BlockOf armEnds) (fun rest => startsWith armEnds rest = true) body)
    {xs : List Token} {cs : List Case} (derived : Many ArmOf xs cs) (within : xs.length ≤ n)
    (ends : startsWith armEnds rest = true)
    (last : rest.head?.any (·.isKeyword "CASE") = false) (deep : xs.length < limit) :
    valueCases value body limit (xs ++ rest) = .ok (cs, rest) := by
  induction derived generalizing limit with
  | nil =>
    obtain ⟨limit, rfl⟩ := Nat.exists_eq_succ_of_ne_zero (Nat.ne_of_gt deep)
    rw [valueCases, List.nil_append, acceptKeyword, bind_of_ok (accept_no last)]
    rfl
  | @cons xs ys c cs first others ih =>
    obtain ⟨limit, rfl⟩ := Nat.exists_eq_succ_of_ne_zero (Nat.ne_of_gt (Nat.zero_lt_of_lt deep))
    cases first with
    | @arm word colon xs zs e ss starts given sign derived =>
      simp only [List.length_append, List.length_cons] at within deep
      have stops : startsWith armEnds (ys ++ rest) = true := by
        cases others with
        | nil => exact ends
        | cons next _ =>
          cases next with
          | arm starts _ _ _ => exact startsWith_keyword (by decide) starts _
      have key := nested xs e (colon :: (zs ++ (ys ++ rest))) given (by omega)
        (behind_operator (by decide) ⟨_, _, rfl, sign⟩)
      have statements := inner zs ss (ys ++ rest) derived (by omega) stops
      simp only [List.cons_append, List.append_assoc]
      rw [valueCases, acceptKeyword, bind_of_ok (accept_yes starts), if_pos rfl, bind_of_ok key,
        requireOperator, bind_of_ok (require_yes sign), bind_of_ok statements,
        bind_of_ok (ih (by omega) (by omega))]
      rfl

theorem finds_defaultCase {body : Parser (List Stmt)}
    (inner : Finds n (BlockOf armEnds) (fun rest => startsWith armEnds rest = true) body)
    {closing : Token} {xs : List Token} {cs : List Case} (derived : DefaultOf xs cs)
    (within : xs.length ≤ n) (ends : closing.isKeyword "END") (rest : List Token) :
    defaultCase body (xs ++ closing :: rest) = .ok (cs, closing :: rest) := by
  cases derived with
  | absent =>
    have other : (closing :: rest).head?.any (·.isKeyword "DEFAULT") = false :=
      isKeyword_other ends (by decide)
    rw [List.nil_append, defaultCase, acceptKeyword, bind_of_ok (accept_no other)]
    rfl
  | @present word xs ss starts derived =>
    rw [List.length_cons] at within
    have statements := inner xs ss (closing :: rest) derived (by omega)
      (startsWith_keyword (by decide) ends rest)
    have last : nextIs (·.isKeyword "END") (closing :: rest) = .ok (true, closing :: rest) := by
      simp only [nextIs, List.head?_cons, Option.any_some, ends]
    rw [List.cons_append, defaultCase, acceptKeyword, bind_of_ok (accept_yes starts), if_pos rfl,
      bind_of_ok statements, bind_of_ok last]
    rfl

theorem finds_switch (nested : Finds n ValueOf (Behind (some .logical)) value)
    (one : Finds n StmtOf Free statement) (deep : n < limit) {closing : Token}
    {xs ys zs : List Token} {c : Expr} {arms default : List Case} (condition : ValueOf xs c)
    (valued : Many ArmOf ys arms) (other : DefaultOf zs default) (ends : closing.isKeyword "END")
    (within : xs.length + ys.length + zs.length ≤ n) :
    switch limit value statement (xs ++ (ys ++ (zs ++ closing :: rest))) =
      .ok (.switch c (arms ++ default), rest) := by
  have inner : Finds n (BlockOf armEnds) (fun rest => startsWith armEnds rest = true)
      (block caseTerminators statement limit) := by
    intro ws ss rest derived within stops
    exact finds_block one derived within stops (by omega)
  have afterArms : startsWith armEnds (zs ++ closing :: rest) = true ∧
      (zs ++ closing :: rest).head?.any (·.isKeyword "CASE") = false := by
    cases other with
    | absent => exact ⟨startsWith_keyword (by decide) ends rest, isKeyword_other ends (by decide)⟩
    | present starts inner =>
      exact ⟨startsWith_keyword (by decide) starts _, isKeyword_other starts (by decide)⟩
  have afterCondition : Behind (some .logical) (ys ++ (zs ++ closing :: rest)) := by
    cases valued with
    | nil =>
      cases other with
      | absent => exact behind_keyword ends rest
      | present starts inner => exact behind_keyword starts _
    | cons first others =>
      cases first with
      | arm starts value sign inner => exact behind_keyword starts _
  have test := nested xs c (ys ++ (zs ++ closing :: rest)) condition (by omega) afterCondition
  have given := finds_valueCases nested inner valued (by omega) afterArms.1 afterArms.2
    (show ys.length < limit by omega)
  have last := finds_defaultCase inner other (by omega) ends rest
  rw [switch, bind_of_ok test, bind_of_ok given, bind_of_ok last, requireKeyword,
    bind_of_ok (require_yes ends)]
  rfl

theorem finds_loop (nested : Finds n ValueOf (Behind (some .logical)) value)
    (one : Finds n StmtOf Free statement) (deep : n < limit) {opening closing : Token}
    {xs ys : List Token} {c : Expr} {body : List Stmt} (condition : ValueOf xs c)
    (opens : opening.isKeyword "DO") (inner : BlockOf ["END"] ys body)
    (ends : closing.isKeyword "END") (within : xs.length + ys.length ≤ n) :
    loop limit value statement (xs ++ opening :: (ys ++ closing :: rest)) =
      .ok (.loop c body, rest) := by
  have test := nested xs c (opening :: (ys ++ closing :: rest)) condition (by omega)
    (behind_keyword opens _)
  have statements := finds_block one inner (by omega) (startsWith_keyword (by decide) ends rest)
    (show ys.length < limit by omega)
  rw [loop, bind_of_ok test, requireKeyword, bind_of_ok (require_yes opens), bind_of_ok statements,
    requireKeyword, bind_of_ok (require_yes ends)]
  rfl

theorem finds_returned (nested : Finds n ValueOf (Behind (some .logical)) value)
    {semicolon : Token} {xs : List Token} {e : Expr} (given : ValueOf xs e)
    (ends : semicolon.isOperator ";") (within : xs.length ≤ n) :
    returned value (xs ++ semicolon :: rest) = .ok (.return e, rest) := by
  have next := nested xs e (semicolon :: rest) given within
    (behind_operator (by decide) ⟨_, _, rfl, ends⟩)
  rw [returned, bind_of_ok next, requireOperator, bind_of_ok (require_yes ends)]
  rfl

theorem finds_assignment (nested : Finds n ValueOf (Behind (some .logical)) value)
    {equals semicolon : Token} {xs ys : List Token} {receiver e : Expr}
    (target : ValueOf xs receiver) (sign : equals.isOperator "=") (given : ValueOf ys e)
    (ends : semicolon.isOperator ";") (within : xs.length + ys.length ≤ n) :
    assignmentOrExpression value (xs ++ equals :: (ys ++ semicolon :: rest)) =
      .ok (.assignment receiver e, rest) := by
  have first := nested xs receiver (equals :: (ys ++ semicolon :: rest)) target (by omega)
    (behind_operator (by decide) ⟨_, _, rfl, sign⟩)
  have second := nested ys e (semicolon :: rest) given (by omega)
    (behind_operator (by decide) ⟨_, _, rfl, ends⟩)
  rw [assignmentOrExpression, bind_of_ok first, acceptOperator, bind_of_ok (accept_yes sign),
    if_pos rfl, bind_of_ok second, requireOperator, bind_of_ok (require_yes ends)]
  rfl

theorem finds_lone (nested : Finds n ValueOf (Behind (some .logical)) value)
    {semicolon : Token} {xs : List Token} {e : Expr} (given : ValueOf xs e)
    (ends : semicolon.isOperator ";") (within : xs.length ≤ n) :
    assignmentOrExpression value (xs ++ semicolon :: rest) = .ok (.expression e, rest) := by
  have next := nested xs e (semicolon :: rest) given within
    (behind_operator (by decide) ⟨_, _, rfl, ends⟩)
  have other : (semicolon :: rest).head?.any (·.isOperator "=") = false :=
    isOperator_other ends (by decide)
  rw [assignmentOrExpression, bind_of_ok next, acceptOperator, bind_of_ok (accept_no other),
    if_neg Bool.false_ne_true, requireOperator, bind_of_ok (require_yes ends)]
  rfl

end

theorem finds_statement {limit : Nat} (deep : n < limit) :
    Finds n StmtOf Free (statement limit) := by
  induction limit generalizing n with
  | zero => exact absurd deep (Nat.not_lt_zero n)
  | succ limit ih =>
    intro xs s rest derived within _
    have longer : 0 < xs.length := List.length_pos_iff.mpr (ne_nil_of_stmt derived)
    obtain ⟨n, rfl⟩ := Nat.exists_eq_succ_of_ne_zero (show n ≠ 0 by omega)
    have whole : Finds (n + 1) ValueOf (Behind (some .logical)) (expression (limit + 1)) :=
      finds_expression deep
    have nested : Finds n ValueOf (Behind (some .logical)) (expression (limit + 1)) :=
      finds_mono whole (Nat.le_succ n)
    have one : Finds n StmtOf Free (statement limit) := ih (by omega)
    have less : n < limit + 1 := by omega
    cases derived with
    | declaration starts named typed initial either ends =>
      simp only [List.length_append, List.length_cons] at within
      simp only [List.cons_append, List.append_assoc, List.nil_append]
      rw [statement_word "LET" (by decide) starts]
      exact finds_declaration nested named typed initial either ends (by omega) (by omega)
    | conditional starts condition opens first second ends =>
      simp only [List.length_append, List.length_cons] at within
      simp only [List.cons_append, List.append_assoc, List.nil_append]
      rw [statement_word "IF" (by decide) starts]
      exact finds_conditional nested one less condition opens first second ends (by omega)
    | switch starts condition valued last ends =>
      simp only [List.length_append, List.length_cons] at within
      simp only [List.cons_append, List.append_assoc, List.nil_append]
      rw [statement_word "SWITCH" (by decide) starts]
      exact finds_switch nested one less condition valued last ends (by omega)
    | loop starts condition opens body ends =>
      simp only [List.length_append, List.length_cons] at within
      simp only [List.cons_append, List.append_assoc, List.nil_append]
      rw [statement_word "WHILE" (by decide) starts]
      exact finds_loop nested one less condition opens body ends (by omega)
    | «return» starts given ends =>
      simp only [List.length_append, List.length_cons] at within
      simp only [List.cons_append, List.append_assoc, List.nil_append]
      rw [statement_word "RETURN" (by decide) starts]
      exact finds_returned nested given ends (by omega)
    | assignment other target sign given ends =>
      simp only [List.length_append, List.length_cons] at within
      simp only [List.cons_append, List.append_assoc, List.nil_append]
      rw [statement_other ((startsWith_append (ne_nil_of_expr target) _).trans other)]
      exact finds_assignment whole target sign given ends (by omega)
    | expression other given ends =>
      simp only [List.length_append, List.length_cons] at within
      simp only [List.cons_append, List.append_assoc, List.nil_append]
      rw [statement_other ((startsWith_append (ne_nil_of_expr given) _).trans other)]
      exact finds_lone whole given ends (by omega)

section

variable {limit : Nat} {rest : List Token}

theorem finds_listLiteral (deep : n < limit) : Finds n ListOf Free (listLiteral limit) := by
  intro xs e rest derived within _
  cases derived with
  | @list opening closing xs es opens inner closes =>
    simp only [List.length_append, List.length_cons] at within
    have elements := finds_arguments "]" (finds_expression deep) deep (by decide)
      (by decide) xs es (closing :: rest) inner (by omega) ⟨_, _, rfl, closes⟩
    simp only [List.cons_append, List.append_assoc, List.nil_append]
    rw [listLiteral, requireOperator, bind_of_ok (require_yes opens), bind_of_ok elements,
      requireOperator, bind_of_ok (require_yes closes)]
    rfl

theorem globalKeyword_yes {keyword : String} (known : keyword ∈ globalKeywords) {t : Token}
    (holds : t.isKeyword keyword) (ts : List Token) :
    globalKeyword (t :: ts) = .ok (some keyword, ts) := by
  have among : globalKeywords.any t.isKeyword = true := List.any_eq_true.mpr ⟨keyword, known, holds⟩
  simp only [Token.isKeyword, Bool.and_eq_true, beq_iff_eq] at holds
  simp only [globalKeyword, among, if_true, holds.2]

theorem finds_global (deep : n < limit) {xs : List Token} {g : Global} (derived : GlobalOf xs g)
    (within : xs.length ≤ n) (rest : List Token) :
    ∃ t ts keyword, xs = t :: ts ∧ keyword ∈ globalKeywords ∧
      t.isKeyword keyword ∧ globalOf limit keyword (ts ++ rest) = .ok (g, rest) := by
  have nested : Finds n ValueOf (Behind (some .logical)) (expression limit) := finds_expression deep
  cases derived with
  | @list word semicolon names types values name typeName value starts named typed initial ends =>
    simp only [List.length_append, List.length_cons] at within
    have stop : Signed ";" (semicolon :: rest) := ⟨_, _, rfl, ends⟩
    have type := finds_typeAnnotation types typeName (values ++ semicolon :: rest) typed
      (show types.length ≤ n by omega)
      (unsigned_initial initial (by decide) (unsigned_signed (by decide) stop))
    have set := finds_initializer (finds_listLiteral deep) values value (semicolon :: rest) initial
      (by omega) ⟨trivial, unsigned_signed (by decide) stop⟩
    refine ⟨word, _, "LIST", rfl, by decide, starts, ?_⟩
    simp only [List.append_assoc, List.cons_append, List.nil_append]
    rw [globalOf, bind_of_ok (requireName_yes named _), bind_of_ok type]
    exact (bind_of_ok set).trans (bind_of_ok (require_yes ends))
  | @«variable» word semicolon names types values name typeName value starts named typed initial
      ends =>
    simp only [List.length_append, List.length_cons] at within
    have stop : Signed ";" (semicolon :: rest) := ⟨_, _, rfl, ends⟩
    have type := finds_typeAnnotation types typeName (values ++ semicolon :: rest) typed
      (show types.length ≤ n by omega)
      (unsigned_initial initial (by decide) (unsigned_signed (by decide) stop))
    have set := finds_initializer nested values value (semicolon :: rest) initial
      (by omega) ⟨behind_operator (by decide) stop, unsigned_signed (by decide) stop⟩
    refine ⟨word, _, "VAR", rfl, by decide, starts, ?_⟩
    simp only [List.append_assoc, List.cons_append, List.nil_append]
    rw [globalOf, bind_of_ok (requireName_yes named _), bind_of_ok type]
    exact (bind_of_ok set).trans (bind_of_ok (require_yes ends))
  | @constant word equals semicolon names types xs name typeName e starts named typed sign value
      ends =>
    simp only [List.length_append, List.length_cons] at within
    have type := finds_typeAnnotation types typeName (equals :: (xs ++ semicolon :: rest)) typed
      (show types.length ≤ n by omega) (isOperator_other sign (by decide))
    have set := nested xs e (semicolon :: rest) value (by omega)
      (behind_operator (by decide) ⟨_, _, rfl, ends⟩)
    refine ⟨word, _, "VAL", rfl, by decide, starts, ?_⟩
    simp only [List.append_assoc, List.cons_append, List.nil_append]
    rw [globalOf, bind_of_ok (requireName_yes named _), bind_of_ok type]
    refine (bind_of_ok (require_yes sign)).trans ((bind_of_ok set).trans ?_)
    exact (bind_of_ok rfl).trans (bind_of_ok (require_yes ends))

theorem finds_globals (deep : n < limit) {xs : List Token} {gs : List Global}
    (derived : Many GlobalOf xs gs) (within : xs.length ≤ n)
    (last : globalKeyword rest = .ok (none, rest)) {count : Nat} (enough : xs.length < count) :
    globals limit count (xs ++ rest) = .ok (gs, rest) := by
  induction derived generalizing count with
  | nil =>
    obtain ⟨count, rfl⟩ := Nat.exists_eq_succ_of_ne_zero (Nat.ne_of_gt enough)
    rw [globals, List.nil_append, bind_of_ok last]
    rfl
  | @cons xs ys g gs first others ih =>
    obtain ⟨count, rfl⟩ := Nat.exists_eq_succ_of_ne_zero (Nat.ne_of_gt (Nat.zero_lt_of_lt enough))
    rw [List.length_append] at within enough
    obtain ⟨t, ts, keyword, rfl, known, holds, found⟩ :=
      finds_global deep first (by omega) (ys ++ rest)
    rw [List.length_cons] at within enough
    rw [List.append_assoc, List.cons_append, globals, bind_of_ok (globalKeyword_yes known holds _)]
    refine (bind_of_ok found).trans ?_
    rw [bind_of_ok (ih (by omega) (by omega))]
    rfl

theorem finds_parameter : Finds n ParameterOf Free parameter := by
  intro xs p rest derived _ _
  cases derived with
  | parameter named sign typed =>
    rw [List.append_assoc, List.cons_append, parameter, bind_of_ok (requireName_yes named _),
      requireOperator, bind_of_ok (require_yes sign), bind_of_ok (requireName_yes typed rest)]
    rfl

theorem finds_parameters (deep : n < limit) :
    Finds n (Listed ParameterOf) (Signed ")") (listUntil ")" parameter limit) := by
  refine finds_listUntil finds_parameter (fun _ _ => trivial) (fun _ _ => trivial) (by decide)
    (fun xs p derived => ?_) deep
  cases derived with
  | parameter named sign typed =>
    cases named with
    | name word => exact ⟨_, _, rfl, by simp [Token.isOperator, word]⟩

theorem finds_function (deep : n < limit) {xs : List Token} {f : Function}
    (derived : FunctionOf xs f) (within : xs.length ≤ n) (rest : List Token) :
    ∃ t ts, xs = t :: ts ∧ t.isKeyword "FUN" ∧ function limit (ts ++ rest) = .ok (f, rest) := by
  cases derived with
  | @function word opening closing start stop names xs types ys name parameters returns body starts
      named opens takes closes typed enters inner leaves =>
    simp only [List.length_append, List.length_cons] at within
    have one : Finds n StmtOf Free (statement limit) := finds_statement deep
    have ends : Signed ")" (closing :: (types ++ start :: (ys ++ stop :: rest))) :=
      ⟨_, _, rfl, closes⟩
    have listed := finds_parameters deep xs parameters _ takes (by omega) ends
    have type := finds_typeAnnotation types returns (start :: (ys ++ stop :: rest)) typed
      (show types.length ≤ n by omega) (isOperator_keyword enters ":")
    have statements := finds_block one inner (by omega) (startsWith_keyword (by decide) leaves rest)
      (show ys.length < limit by omega)
    refine ⟨word, _, rfl, starts, ?_⟩
    simp only [List.append_assoc, List.cons_append, List.nil_append]
    rw [function, bind_of_ok (requireName_yes named _), requireOperator,
      bind_of_ok (require_yes opens), bind_of_ok listed, requireOperator,
      bind_of_ok (require_yes closes), bind_of_ok type, requireKeyword,
      bind_of_ok (require_yes enters), bind_of_ok statements, requireKeyword,
      bind_of_ok (require_yes leaves)]
    rfl

theorem finds_functions (deep : n < limit) {xs : List Token} {fs : List Function}
    (derived : Many FunctionOf xs fs) (within : xs.length ≤ n) {count : Nat}
    (enough : xs.length < count) : functions limit count xs = .ok (fs, []) := by
  induction derived generalizing count with
  | nil =>
    obtain ⟨count, rfl⟩ := Nat.exists_eq_succ_of_ne_zero (Nat.ne_of_gt enough)
    rfl
  | @cons xs ys f fs first others ih =>
    obtain ⟨count, rfl⟩ := Nat.exists_eq_succ_of_ne_zero (Nat.ne_of_gt (Nat.zero_lt_of_lt enough))
    rw [List.length_append] at within enough
    obtain ⟨t, ts, rfl, holds, found⟩ := finds_function deep first (by omega) ys
    rw [List.length_cons] at within enough
    rw [List.cons_append, functions, acceptKeyword, bind_of_ok (accept_yes holds), if_pos rfl,
      bind_of_ok found, bind_of_ok (ih (by omega) (by omega))]
    rfl

theorem finds_program {limit : Nat} {ts : List Token} {p : Program} (derived : ProgramOf ts p)
    (deep : ts.length < limit) : program limit ts = .ok (p, []) := by
  cases derived with
  | @program xs ys gs fs globals functions =>
    rw [List.length_append] at deep
    have last : globalKeyword ys = .ok (none, ys) := by
      cases functions with
      | nil => rfl
      | cons first others =>
        cases first with
        | function starts _ _ _ _ _ _ _ _ =>
          have other : ∀ keyword ∈ globalKeywords, keyword ≠ "FUN" := by decide
          have none : globalKeywords.any (Token.isKeyword _) = false :=
            List.any_eq_false.mpr fun keyword known =>
              Bool.eq_false_iff.mp (isKeyword_other starts (other keyword known).symm)
          simp only [List.cons_append, globalKeyword, none, Bool.false_eq_true, if_false]
    have first := finds_globals (n := xs.length + ys.length) deep globals (by omega) last
      (show xs.length < limit by omega)
    have second := finds_functions (n := xs.length + ys.length) deep functions (by omega)
      (show ys.length < limit by omega)
    rw [Parser.program, bind_of_ok first, bind_of_ok second]
    rfl

end

end Plc.Parser

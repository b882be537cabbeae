import Plc.Proofs.Syntax.Steps

/-!
What the grammar derives the parser answers, as long as what follows does not go on with it. For an
expression that is an operator or a bracket that could still belong to it; a statement knows its own
end. Since the grammar groups to the left and the parser reads from the left, an expression is first
taken apart into its first operand and a `Tail` of operators and operands.
-/

namespace Plc.Parser

open Grammar

variable {α β : Type} {G : List Token → α → Prop} {Next : List Token → Prop} {n : Nat}

/-- Whatever the grammar derives from at most `n` tokens, the parser answers, where what is behind
them may be there. -/
def Finds (n : Nat) (G : List Token → α → Prop) (Next : List Token → Prop) (p : Parser α) : Prop :=
  ∀ xs a rest, G xs a → xs.length ≤ n → Next rest → p (xs ++ rest) = .ok (a, rest)

def Free (_ : List Token) : Prop := True

theorem finds_mono {m : Nat} {p : Parser α} (finds : Finds n G Next p) (less : m ≤ n) :
    Finds m G Next p :=
  fun xs a rest derived within => finds xs a rest derived (Nat.le_trans within less)

def Signed (text : String) (rest : List Token) : Prop := ∃ t ts, rest = t :: ts ∧ t.isOperator text

theorem isOperator_other {t : Token} {text other : String} (holds : t.isOperator text)
    (differ : text ≠ other) : t.isOperator other = false := by
  simp only [Token.isOperator, Bool.and_eq_true, beq_iff_eq] at holds
  simp [Token.isOperator, holds, differ]

theorem isOperator_keyword {t : Token} {text : String} (holds : t.isKeyword text) (other : String) :
    t.isOperator other = false := by
  simp only [Token.isKeyword, Bool.and_eq_true, beq_iff_eq] at holds
  simp [Token.isOperator, holds]

theorem finds_separated {item : Parser α} (one : Finds n G Next item)
    (goes : ∀ rest, Signed "," rest → Next rest) {xs rest : List Token} {as : List α}
    (items : Separated G xs as) (within : xs.length ≤ n) (next : Next rest)
    (ends : rest.head?.any (·.isOperator ",") = false) {limit : Nat} (deep : xs.length < limit) :
    separated item limit (xs ++ rest) = .ok (as, rest) := by
  induction items generalizing limit with
  | one derived =>
    obtain ⟨limit, rfl⟩ := Nat.exists_eq_succ_of_ne_zero (Nat.ne_of_gt (Nat.zero_lt_of_lt deep))
    rw [separated, bind_of_ok (one _ _ _ derived within next), acceptOperator,
      bind_of_ok (accept_no ends)]
    rfl
  | @more ys zs comma a as derived between others ih =>
    obtain ⟨limit, rfl⟩ := Nat.exists_eq_succ_of_ne_zero (Nat.ne_of_gt (Nat.zero_lt_of_lt deep))
    simp only [List.length_append, List.length_cons] at within deep
    have first := one ys a (comma :: (zs ++ rest)) derived (by omega) (goes _ ⟨_, _, rfl, between⟩)
    rw [List.append_assoc, separated, List.cons_append, bind_of_ok first, acceptOperator,
      bind_of_ok (accept_yes between), if_pos rfl,
      bind_of_ok (ih (by omega) (by omega))]
    rfl

theorem finds_listUntil {closing : String} {item : Parser α} (one : Finds n G Next item)
    (goes : ∀ rest, Signed "," rest → Next rest) (ends : ∀ rest, Signed closing rest → Next rest)
    (apart : closing ≠ ",")
    (starts : ∀ xs a, G xs a → ∃ t ts, xs = t :: ts ∧ t.isOperator closing = false) {limit : Nat}
    (deep : n < limit) :
    Finds n (Listed G) (Signed closing) (listUntil closing item limit) := by
  intro xs as rest derived within next
  obtain ⟨t, ts, rfl, closes⟩ := id next
  cases derived with
  | none =>
    have stops : nextIs (·.isOperator closing) (t :: ts) = .ok (true, t :: ts) := by
      simp only [nextIs, List.head?_cons, Option.any_some, closes]
    rw [listUntil, List.nil_append, bind_of_ok stops]
    rfl
  | some items =>
    have goesOn : nextIs (·.isOperator closing) (xs ++ t :: ts) = .ok (false, xs ++ t :: ts) := by
      cases items with
      | one derived =>
        obtain ⟨u, us, rfl, other⟩ := starts _ _ derived
        simp only [nextIs, List.cons_append, List.head?_cons, Option.any_some, other]
      | more derived between others =>
        obtain ⟨u, us, rfl, other⟩ := starts _ _ derived
        simp only [nextIs, List.cons_append, List.head?_cons, Option.any_some, other]
    rw [listUntil, bind_of_ok goesOn]
    have last : (t :: ts).head?.any (·.isOperator ",") = false := by
      simpa using isOperator_other closes apart
    exact finds_separated one goes items within (ends _ next) last (Nat.lt_of_le_of_lt within deep)

def marks : Option Layer → List String
  | none => ["(", "["]
  | some .multiplying => ["*", "/", "^", "(", "["]
  | some .adding => ["+", "-", "*", "/", "^", "(", "["]
  | some .comparing => ["==", "!=", "<", ">", "+", "-", "*", "/", "^", "(", "["]
  | some .logical =>
    ["&&", "||", "==", "!=", "<", ">", "+", "-", "*", "/", "^", "(", "["]

/-- What is behind an expression does not go on with it. -/
def Behind (l : Option Layer) (rest : List Token) : Prop :=
  ∀ t ∈ rest.head?, ∀ mark ∈ marks l, t.isOperator mark = false

theorem behind_operator {l : Option Layer} {text : String} (other : text ∉ marks l)
    {rest : List Token} (signed : Signed text rest) : Behind l rest := by
  obtain ⟨t, ts, rfl, holds⟩ := signed
  intro u head mark among
  cases Option.mem_some_iff.mp head
  exact isOperator_other holds fun same => other (same ▸ among)

theorem behind_keyword {l : Option Layer} {text : String} {t : Token} (holds : t.isKeyword text)
    (ts : List Token) : Behind l (t :: ts) := by
  intro u head mark _
  cases Option.mem_some_iff.mp head
  exact isOperator_keyword holds mark

theorem behind_operand {layer : Layer} {rest : List Token} (behind : Behind (some layer) rest) :
    Behind layer.operand rest := by
  intro t head mark among
  have wider : ∀ mark ∈ marks layer.operand, mark ∈ marks (some layer) := by
    cases layer <;> decide
  exact behind t head mark (wider mark among)

/-- No operator of a layer goes on with an operand of the layer. -/
theorem behind_sign {layer : Layer} {ys : List Token} {op : Operator}
    (sign : OperatorOf layer ys op) (rest : List Token) : Behind layer.operand (ys ++ rest) := by
  cases sign with
  | plain known sign =>
    have others : ∀ op ∈ layer.operators, op.text ∉ marks layer.operand := by
      cases layer <;> decide
    exact behind_operator (others _ known) ⟨_, _, rfl, sign⟩
  | lessEqual sign equal glued =>
    have other : "<" ∉ marks Layer.comparing.operand := by decide
    exact behind_operator other ⟨_, _, rfl, sign⟩
  | greaterEqual sign equal glued =>
    have other : ">" ∉ marks Layer.comparing.operand := by decide
    exact behind_operator other ⟨_, _, rfl, sign⟩

def Starts (xs : List Token) : Prop :=
  ∃ t ts, xs = t :: ts ∧ ∀ text, text ≠ "(" → t.isOperator text = false

theorem starts_identifier {t : Token} (kind : t.kind ≠ .operator) (ts : List Token) :
    Starts (t :: ts) :=
  ⟨t, ts, rfl, fun text _ => by simp [Token.isOperator, kind]⟩

theorem kind_of_literal {t : Token} {l : Literal} (denotes : LiteralOf t l) :
    t.kind ≠ .operator := by
  intro kind
  cases denotes <;> simp_all [Token.isKeyword]

theorem starts_of_expr : ∀ {l : Option Layer} {xs : List Token} {e : Expr},
    ExprOf l xs e → Starts xs
  | _, _, _, .literal denotes => starts_identifier (kind_of_literal denotes) _
  | _, _, _, .access name => starts_identifier (by rw [name.1]; decide) _
  | _, _, _, .element name _ _ _ => starts_identifier (by rw [name.1]; decide) _
  | _, _, _, .call name _ _ _ => starts_identifier (by rw [name.1]; decide) _
  | _, _, _, .group opens _ _ => ⟨_, _, rfl, fun _ differ => isOperator_other opens differ.symm⟩
  | _, _, _, .operand inner => starts_of_expr inner
  | _, _, _, .binary first _ _ => by
    obtain ⟨t, ts, rfl, other⟩ := starts_of_expr first
    exact ⟨t, _, rfl, other⟩

theorem ne_nil_of_expr {l : Option Layer} {xs : List Token} {e : Expr} (derived : ExprOf l xs e) :
    xs ≠ [] := by
  obtain ⟨t, ts, rfl, -⟩ := starts_of_expr derived
  exact List.cons_ne_nil t ts

/-- Operators and operands of a layer behind an expression, which all of them go to the left of. -/
inductive Tail (layer : Layer) : Expr → List Token → Expr → Prop where
  | nil {left : Expr} : Tail layer left [] left
  | cons {left right e : Expr} {ys zs ws : List Token} {op : Operator}
      (sign : OperatorOf layer ys op) (second : ExprOf layer.operand zs right)
      (others : Tail layer (.binary op left right none) ws e) :
      Tail layer left (ys ++ (zs ++ ws)) e

theorem tail_snoc {layer : Layer} {left right e : Expr} {xs ys zs : List Token} {op : Operator}
    (tail : Tail layer left xs e) (sign : OperatorOf layer ys op)
    (last : ExprOf layer.operand zs right) :
    Tail layer left (xs ++ (ys ++ zs)) (.binary op e right none) := by
  induction tail with
  | nil => simpa using Tail.cons sign last .nil
  | cons first second others ih => simpa using Tail.cons first second ih

theorem split_expr {layer : Layer} : ∀ {xs : List Token} {e : Expr}, ExprOf (some layer) xs e →
    ∃ ys zs left, xs = ys ++ zs ∧ ExprOf layer.operand ys left ∧ Tail layer left zs e
  | xs, e, .operand inner => ⟨xs, [], e, by simp, inner, .nil⟩
  | _, _, .binary first sign second => by
    obtain ⟨ys, zs, left, rfl, start, tail⟩ := split_expr first
    exact ⟨ys, _, left, List.append_assoc .., start, tail_snoc tail sign second⟩

theorem behind_tail {layer : Layer} {left e : Expr} {xs rest : List Token}
    (tail : Tail layer left xs e) (behind : Behind (some layer) rest) :
    Behind layer.operand (xs ++ rest) := by
  cases tail with
  | nil => exact behind_operand behind
  | cons sign second others =>
    rw [List.append_assoc]
    exact behind_sign sign _

theorem operator_plain {layer : Layer} {t : Token} {op : Operator} (known : op ∈ layer.operators)
    (sign : t.isOperator op.text) {rest : List Token} (starts : Starts rest) :
    operatorReader layer (t :: rest) = .ok (some op, rest) := by
  obtain ⟨u, us, rfl, other⟩ := starts
  have apart : gluedEquals t u = false := by simp [gluedEquals, other]
  simp only [Token.isOperator, Bool.and_eq_true, beq_iff_eq] at sign
  obtain ⟨kind, text⟩ := sign
  cases layer <;> simp only [Layer.operators, List.mem_cons, List.not_mem_nil, or_false] at known
  · rcases known with rfl | rfl <;>
      simp [operatorReader, logicalOperator, operatorOf, Token.isOperator, kind, text,
        Operator.text]
  · rcases known with rfl | rfl | rfl | rfl <;>
      simp [operatorReader, comparingOperator, orderingOperator, apart, Token.isOperator, kind,
        text, Operator.text]
  · rcases known with rfl | rfl <;>
      simp [operatorReader, addingOperator, operatorOf, Token.isOperator, kind, text,
        Operator.text]
  · rcases known with rfl | rfl | rfl <;>
      simp [operatorReader, multiplyingOperator, operatorOf, Token.isOperator, kind, text,
        Operator.text]

/-- An operator is found in front of an operand, which does not start with `=`. -/
theorem operator_some {layer : Layer} {ys : List Token} {op : Operator}
    (sign : OperatorOf layer ys op) {rest : List Token} (starts : Starts rest) :
    operatorReader layer (ys ++ rest) = .ok (some op, rest) := by
  cases sign with
  | plain known sign => exact operator_plain known sign starts
  | lessEqual sign equal glued =>
    have joined := gluedEquals_iff.mpr ⟨equal, glued⟩
    simp only [Token.isOperator, Bool.and_eq_true, beq_iff_eq] at sign
    simp [operatorReader, comparingOperator, orderingOperator, joined, Token.isOperator, sign]
  | greaterEqual sign equal glued =>
    have joined := gluedEquals_iff.mpr ⟨equal, glued⟩
    simp only [Token.isOperator, Bool.and_eq_true, beq_iff_eq] at sign
    simp [operatorReader, comparingOperator, orderingOperator, joined, Token.isOperator, sign]

theorem operator_none {layer : Layer} {rest : List Token} (behind : Behind (some layer) rest) :
    operatorReader layer rest = .ok (none, rest) := by
  cases rest with
  | nil => cases layer <;> rfl
  | cons t ts =>
    have other : ∀ mark ∈ marks (some layer), t.isOperator mark = false := behind t rfl
    cases layer <;> simp [marks] at other <;>
      simp [operatorReader, logicalOperator, comparingOperator, addingOperator,
        multiplyingOperator, operatorOf, Operator.text, other]

section

variable {limit : Nat} {value : Parser Expr}

theorem finds_chain {layer : Layer}
    (operand : Finds n (ExprOf layer.operand) (Behind layer.operand) value) {left e : Expr}
    {xs rest : List Token} (tail : Tail layer left xs e) (within : xs.length ≤ n)
    (behind : Behind (some layer) rest) {limit : Nat} (deep : xs.length < limit) :
    chain (operatorReader layer) value limit left (xs ++ rest) = .ok (e, rest) := by
  induction tail generalizing limit with
  | nil =>
    obtain ⟨limit, rfl⟩ := Nat.exists_eq_succ_of_ne_zero (Nat.ne_of_gt deep)
    rw [chain, List.nil_append, bind_of_ok (operator_none behind)]
    rfl
  | @cons left right e ys zs ws op sign second others ih =>
    obtain ⟨limit, rfl⟩ := Nat.exists_eq_succ_of_ne_zero (Nat.ne_of_gt (Nat.zero_lt_of_lt deep))
    have some : zs ≠ [] := ne_nil_of_expr second
    have longer : 0 < zs.length := List.length_pos_iff.mpr some
    simp only [List.length_append] at within deep
    obtain ⟨t, ts, start, other⟩ := starts_of_expr second
    have starts : Starts (zs ++ (ws ++ rest)) := ⟨t, ts ++ (ws ++ rest), by simp [start], other⟩
    have next := operand zs right (ws ++ rest) second (by omega) (behind_tail others behind)
    rw [List.append_assoc, List.append_assoc, chain, bind_of_ok (operator_some sign starts)]
    exact (bind_of_ok next).trans (ih (by omega) (by omega))

theorem finds_layer (layer : Layer)
    (operand : Finds n (ExprOf layer.operand) (Behind layer.operand) value) (deep : n < limit) :
    Finds n (ExprOf (some layer)) (Behind (some layer))
      (Parser.layer limit (operatorReader layer) value) := by
  intro xs e rest derived within behind
  obtain ⟨ys, zs, left, rfl, first, tail⟩ := split_expr derived
  rw [List.length_append] at within
  have start := operand ys left (zs ++ rest) first (by omega) (behind_tail tail behind)
  rw [List.append_assoc, Parser.layer, bind_of_ok start]
  exact finds_chain operand tail (by omega) behind (by omega)

theorem finds_arguments (closing : String)
    (nested : Finds n ValueOf (Behind (some .logical)) value) (deep : n < limit)
    (apart : closing ∉ marks (some .logical)) (comma : closing ≠ ",") :
    Finds n (Listed ValueOf) (Signed closing) (listUntil closing value limit) := by
  refine finds_listUntil nested (fun _ => behind_operator (by decide))
    (fun _ => behind_operator apart) comma (fun xs e derived => ?_) deep
  obtain ⟨t, ts, rfl, other⟩ := starts_of_expr derived
  refine ⟨t, ts, rfl, other closing fun same => apart ?_⟩
  subst same
  decide

theorem primary_literal {t : Token} {l : Literal} (denotes : LiteralOf t l) (rest : List Token) :
    primary limit value (t :: rest) = .ok (.literal l none, rest) := by
  cases denotes with
  | nil word | yes word | no word =>
    simp only [Token.isKeyword, Bool.and_eq_true, beq_iff_eq] at word
    simp [primary, word, Literal.ofWord?]
  | integer kind text =>
    simp [primary, kind, Literal.ofInteger?_eq_some_iff.mpr ⟨_, text, rfl⟩, literal]
  | decimal kind text =>
    simp [primary, kind, Literal.ofDecimal?_eq_some_iff.mpr ⟨_, text, rfl⟩, literal]
  | character kind between text =>
    simp [primary, kind, Literal.ofCharacter?_eq_some_iff.mpr ⟨_, _, between, text, rfl⟩, literal]
  | string kind between text =>
    simp [primary, kind, Literal.ofString_eq_iff.mpr ⟨_, _, between, text, rfl⟩]

theorem primary_named {t : Token} (name : IsReference t) (rest : List Token) :
    primary limit value (t :: rest) = named limit value t.text rest := by
  simp [primary, name.1, ofWord?_eq_none.mpr name.2]

theorem primary_group {t : Token} (opens : t.isOperator "(") (rest : List Token) :
    primary limit value (t :: rest) = group value rest := by
  simp only [Token.isOperator, Bool.and_eq_true, beq_iff_eq] at opens
  simp [primary, opens]

theorem head_of_behind {rest : List Token} (behind : Behind none rest) {mark : String}
    (among : mark ∈ marks none) : rest.head?.any (·.isOperator mark) = false := by
  cases rest with
  | nil => rfl
  | cons t ts => exact behind t rfl mark among

theorem finds_primary (nested : Finds n ValueOf (Behind (some .logical)) value) (deep : n < limit) :
    Finds (n + 1) (ExprOf none) (Behind none) (primary limit value) := by
  intro xs e rest derived within behind
  cases derived with
  | literal denotes => exact primary_literal denotes rest
  | access name =>
    rw [List.singleton_append, primary_named name, named, acceptOperator,
      bind_of_ok (accept_no (head_of_behind behind (by decide))), if_neg Bool.false_ne_true,
      acceptOperator, bind_of_ok (accept_no (head_of_behind behind (by decide)))]
    rfl
  | @element t opening closing xs index name opens inner closes =>
    simp only [List.length_cons, List.length_append] at within
    have bracket : (opening :: (xs ++ closing :: rest)).head?.any (·.isOperator "(") = false :=
      isOperator_other opens (by decide)
    have next := nested xs index (closing :: rest) inner (by omega)
      (behind_operator (by decide) ⟨_, _, rfl, closes⟩)
    simp only [List.cons_append, List.append_assoc, List.nil_append]
    rw [primary_named name, named, acceptOperator, bind_of_ok (accept_no bracket),
      if_neg Bool.false_ne_true, acceptOperator, bind_of_ok (accept_yes opens), if_pos rfl,
      bind_of_ok next, requireOperator, bind_of_ok (require_yes closes)]
    rfl
  | @call t opening closing xs args name opens inner closes =>
    simp only [List.length_cons, List.length_append] at within
    have next := finds_arguments ")" nested deep (by decide) (by decide) xs args (closing :: rest)
      inner (by omega) ⟨_, _, rfl, closes⟩
    simp only [List.cons_append, List.append_assoc, List.nil_append]
    rw [primary_named name, named, acceptOperator, bind_of_ok (accept_yes opens), if_pos rfl,
      bind_of_ok next, requireOperator, bind_of_ok (require_yes closes)]
    rfl
  | @group opening closing xs e opens inner closes =>
    simp only [List.length_cons, List.length_append] at within
    have next := nested xs e (closing :: rest) inner (by omega)
      (behind_operator (by decide) ⟨_, _, rfl, closes⟩)
    simp only [List.cons_append, List.append_assoc, List.nil_append]
    rw [primary_group opens, group, bind_of_ok next, requireOperator,
      bind_of_ok (require_yes closes)]
    rfl

theorem finds_expression {limit : Nat} (deep : n < limit) :
    Finds n ValueOf (Behind (some .logical)) (expression limit) := by
  induction limit generalizing n with
  | zero => exact absurd deep (Nat.not_lt_zero n)
  | succ limit ih =>
    have primary :
        Finds n (ExprOf none) (Behind none) (primary (limit + 1) (expression limit)) := by
      cases n with
      | zero =>
        intro xs e rest derived within
        exact absurd (List.eq_nil_of_length_eq_zero (Nat.le_zero.mp within))
          (ne_nil_of_expr derived)
      | succ n => exact finds_primary (ih (by omega)) (by omega)
    have multiplying := finds_layer .multiplying primary deep
    have adding := finds_layer .adding multiplying deep
    have comparing := finds_layer .comparing adding deep
    exact finds_layer .logical comparing deep

end

end Plc.Parser

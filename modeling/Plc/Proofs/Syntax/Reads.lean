import Plc.Proofs.Syntax.Steps

/-!
What the parser answers is derived from exactly the tokens that it took, and when it stops at a
fault the tokens before the fault start a list that is derivable. Both are one property of parsers,
`Reads`, that composes. Its bound is on the number of tokens: a parser that is out of depth may
answer less than there is.
-/

namespace Plc.Parser

open Grammar

variable {α β : Type} {G : List Token → α → Prop} {H : List Token → β → Prop} {n : Nat}

/-- An answer is derived from the tokens taken, and the tokens taken before a fault are the
beginning of a derivable list. -/
def Derived (G : List Token → α → Prop) (ts : List Token) : Except Fault (α × List Token) → Prop
  | .ok (a, rest) => ∃ xs, ts = xs ++ rest ∧ G xs a
  | .error fault => ∃ xs, ts = xs ++ fault.rest ∧ ∃ ys a, G (xs ++ ys) a

def Reads (n : Nat) (G : List Token → α → Prop) (p : Parser α) : Prop :=
  ∀ ts, ts.length ≤ n → Derived G ts (p ts)

theorem reads_pure {a : α} (empty : G [] a) : Reads n G (pure a) :=
  fun _ _ => ⟨[], rfl, empty⟩

theorem reads_fail {cause : ParseError} (some : ∃ ys a, G ys a) : Reads n G (fail cause) :=
  fun _ _ => ⟨[], rfl, some⟩

theorem reads_imp {p : Parser α} {G' : List Token → α → Prop} (reads : Reads n G p)
    (imp : ∀ xs a, G xs a → G' xs a) : Reads n G' p := by
  intro ts within
  have start := reads ts within
  revert start
  cases p ts with
  | error fault =>
    rintro ⟨xs, split, ys, a, derived⟩
    exact ⟨xs, split, ys, a, imp _ _ derived⟩
  | ok found =>
    rintro ⟨xs, split, derived⟩
    exact ⟨xs, split, imp _ _ derived⟩

theorem derived_cons {t : Token} {ts : List Token} {p : Parser α}
    (reads : Reads n (fun xs a => G (t :: xs) a) p) (within : (t :: ts).length ≤ n + 1) :
    Derived G (t :: ts) (p ts) := by
  have start := reads ts (Nat.le_of_succ_le_succ within)
  revert start
  cases p ts with
  | error fault =>
    rintro ⟨xs, rfl, ys, a, derived⟩
    exact ⟨t :: xs, rfl, ys, a, derived⟩
  | ok found =>
    rintro ⟨xs, rfl, derived⟩
    exact ⟨t :: xs, rfl, derived⟩

theorem reads_mono {m : Nat} {p : Parser α} (reads : Reads n G p) (less : m ≤ n) : Reads m G p :=
  fun ts within => reads ts (Nat.le_trans within less)

/-- A parser that reads something derives something. -/
theorem some_of_reads {p : Parser α} (reads : Reads n G p) : ∃ ys a, G ys a := by
  have start := reads [] (Nat.zero_le n)
  cases answer : p [] with
  | error fault =>
    rw [answer] at start
    obtain ⟨xs, -, ys, a, derived⟩ := start
    exact ⟨xs ++ ys, a, derived⟩
  | ok found =>
    rw [answer] at start
    obtain ⟨xs, -, derived⟩ := start
    exact ⟨xs, found.1, derived⟩

/-- One parser after another. What the second may count on is that the tokens taken are fewer, and
if the first stops at a fault it does not matter what the second does with tokens. -/
theorem reads_bind_within {p : Parser α} {q : α → Parser β} (first : Reads n G p)
    (others : ∀ xs a, G xs a → xs.length ≤ n →
      Reads (n - xs.length) (fun ys b => H (xs ++ ys) b) (q a))
    (some : ∀ xs a, G xs a → ∃ ys b, H (xs ++ ys) b) : Reads n H (p >>= q) := by
  intro ts within
  rw [bind_eq]
  have start := first ts within
  cases answer : p ts with
  | error fault =>
    rw [answer] at start
    obtain ⟨xs, split, ys, a, derived⟩ := start
    obtain ⟨zs, b, whole⟩ := some _ a derived
    exact ⟨xs, split, ys ++ zs, b, by rwa [← List.append_assoc]⟩
  | ok found =>
    obtain ⟨a, between⟩ := found
    rw [answer] at start
    obtain ⟨xs, rfl, derived⟩ := start
    rw [List.length_append] at within
    have next := others xs a derived (by omega) between (by omega)
    dsimp only
    cases after : q a between with
    | error fault =>
      rw [after] at next
      obtain ⟨ys, rfl, zs, b, whole⟩ := next
      exact ⟨xs ++ ys, (List.append_assoc ..).symm, zs, b, by rwa [List.append_assoc]⟩
    | ok last =>
      rw [after] at next
      obtain ⟨ys, rfl, whole⟩ := next
      exact ⟨xs ++ ys, (List.append_assoc ..).symm, whole⟩

theorem reads_bind {p : Parser α} {q : α → Parser β} (first : Reads n G p)
    (others : ∀ xs a, G xs a → Reads n (fun ys b => H (xs ++ ys) b) (q a)) :
    Reads n H (p >>= q) :=
  reads_bind_within first
    (fun xs a derived _ => reads_mono (others xs a derived) (Nat.sub_le _ _))
    fun xs a derived => some_of_reads (others xs a derived)

theorem reads_ite {c : Bool} {p q : Parser α} (yes : c = true → Reads n G p)
    (no : c = false → Reads n G q) : Reads n G (if c then p else q) := by
  cases c with
  | true => exact yes rfl
  | false => exact no rfl

def sign (text : String) : Token := ⟨.operator, text, 0⟩

def word (text : String) : Token := ⟨.identifier, text, 0⟩

theorem isOperator_sign (text : String) : (sign text).isOperator text := by
  simp [sign, Token.isOperator]

theorem isKeyword_word (text : String) : (word text).isKeyword text := by
  simp [word, Token.isKeyword]

inductive Taken (test : Token → Bool) : List Token → Bool → Prop where
  | yes {t : Token} (holds : test t) : Taken test [t] true
  | no : Taken test [] false

inductive Single (test : Token → Bool) : List Token → Unit → Prop where
  | token {t : Token} (holds : test t) : Single test [t] ()

theorem reads_accept (test : Token → Bool) : Reads n (Taken test) (accept test) := by
  intro ts _
  cases ts with
  | nil => exact ⟨[], rfl, .no⟩
  | cons t ts =>
    by_cases holds : test t
    · simp only [accept, holds, if_true]
      exact ⟨[t], rfl, .yes holds⟩
    · simp only [accept, holds]
      exact ⟨[], rfl, .no⟩

theorem reads_require {test : Token → Bool} {what : Wanted} {t : Token} (holds : test t) :
    Reads n (Single test) (require test what) := by
  intro ts _
  cases ts with
  | nil => exact ⟨[], rfl, [t], (), .token holds⟩
  | cons u ts =>
    by_cases fits : test u
    · simp only [require, fits, if_true]
      exact ⟨[u], rfl, .token fits⟩
    · simp only [require, fits]
      exact ⟨[], rfl, [t], (), .token holds⟩

theorem reads_requireOperator (text : String) (what : Wanted) :
    Reads n (Single (·.isOperator text)) (requireOperator text what) :=
  reads_require (isOperator_sign text)

theorem reads_requireKeyword (text : String) (what : Wanted) :
    Reads n (Single (·.isKeyword text)) (requireKeyword text what) :=
  reads_require (isKeyword_word text)

theorem reads_requireName (what : Wanted) : Reads n NameOf (requireName what) := by
  intro ts _
  have some : ∃ ys a, NameOf ys a := ⟨[word "x"], "x", .name rfl⟩
  cases ts with
  | nil => exact ⟨[], rfl, some⟩
  | cons t ts =>
    by_cases identifier : t.kind = .identifier
    · simp only [requireName, identifier, if_true]
      exact ⟨[t], rfl, .name identifier⟩
    · simp only [requireName, identifier, if_false]
      exact ⟨[], rfl, some⟩

theorem reads_nextIs (test : Token → Bool) : Reads n (fun xs _ => xs = []) (nextIs test) :=
  fun _ _ => ⟨[], rfl, rfl⟩

theorem reads_separated {item : Parser α} (one : Reads n G item) {limit : Nat} (deep : n < limit) :
    Reads n (Separated G) (separated item limit) := by
  induction limit generalizing n with
  | zero => exact absurd deep (Nat.not_lt_zero n)
  | succ limit ih =>
    obtain ⟨zs, z, last⟩ := some_of_reads one
    refine reads_bind_within one (fun xs a derived within => ?_)
      fun xs a derived => ⟨[], [a], by simpa using .one derived⟩
    refine reads_bind_within (reads_accept _) (fun ys comma taken fewer => ?_) ?_
    · cases taken with
      | no => exact reads_pure (by simpa using .one derived)
      | yes between =>
        simp only [List.length_singleton] at fewer
        have rest := ih (reads_mono one (show n - xs.length - 1 ≤ n by omega)) (by omega)
        refine reads_bind rest fun ys as others => reads_pure ?_
        simpa using Separated.more derived between others
    · intro ys comma taken
      cases taken with
      | no => exact ⟨[], [a], by simpa using .one derived⟩
      | yes between => exact ⟨zs, [a, z], by simpa using Separated.more derived between (.one last)⟩

theorem reads_listUntil {closing : String} {item : Parser α} {limit : Nat} (one : Reads n G item)
    (deep : n < limit) : Reads n (Listed G) (listUntil closing item limit) := by
  refine reads_bind (reads_nextIs _) fun xs closed empty => ?_
  subst empty
  refine reads_ite (fun _ => reads_pure .none) fun _ => ?_
  exact reads_imp (reads_separated one deep) fun xs as items => .some items

end Plc.Parser

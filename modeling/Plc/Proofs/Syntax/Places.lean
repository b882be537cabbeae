import Plc.Parser.Walk
import Plc.Proofs.Cursor
import Plc.Proofs.Syntax.Exact

/-!
The walk over the tokens finds what the parser finds, and its faults, if it is given turns enough.
It never takes a token behind the end, and each loop ends because a turn of it takes a token: what
may be repeated takes at least one, and this is part of the relation `Follows`, which composes.
-/

namespace Plc.Parser.Walk

open Cursor (bind_apply of_drop_eq_cons)

variable {α β : Type} {all ts : List Token} {pos bound least : Nat} {t : Token}

/-- The walk ends as the parser does: with the same answer in front of the same tokens, at a place
inside and not before `least`, or with the same fault, at the offset of the tokens left. -/
inductive Arrives (all : List Token) (least : Nat) :
    Cursor.Outcome (ParseError × Nat) α → Except Fault (α × List Token) → Prop where
  | found {a : α} {next : Nat} (onward : least ≤ next) (inside : next ≤ all.length) :
      Arrives all least (some (.ok (a, next))) (.ok (a, all.drop next))
  | fault {cause : ParseError} {rest : List Token} {offset : Nat}
      (there : offset = faultOffset all rest) :
      Arrives all least (some (.error (.fault (cause, offset)))) (.error ⟨cause, rest⟩)

def Settles (all : List Token) (least : Nat) (outcomes : Nat → Cursor.Outcome (ParseError × Nat) α)
    (answer : Except Fault (α × List Token)) : Prop :=
  ∃ enough, ∀ turns ≥ enough, Arrives all least (outcomes turns) answer

/-- From each place with fewer tokens behind it than `bound` the walk, given its turns, arrives
where the parser does, and takes at least so many tokens. -/
def Follows (all : List Token) (bound least : Nat) (walk : Nat → Walk α) (p : Parser α) : Prop :=
  ∀ pos ≤ all.length, all.length < pos + bound →
    Settles all (pos + least) (fun turns => walk turns all pos) (p (all.drop pos))

section

variable {outcome : Cursor.Outcome (ParseError × Nat) α}
  {outcomes : Nat → Cursor.Outcome (ParseError × Nat) α} {answer : Except Fault (α × List Token)}

theorem Arrives.mono {less : Nat} (arrives : Arrives all least outcome answer)
    (le : less ≤ least) : Arrives all less outcome answer := by
  cases arrives with
  | found onward inside => exact .found (Nat.le_trans le onward) inside
  | fault there => exact .fault there

theorem Arrives.eq_of_error {cause : ParseError} {rest : List Token}
    (arrives : Arrives all least outcome (.error ⟨cause, rest⟩)) :
    outcome = some (.error (.fault (cause, faultOffset all rest))) := by
  cases arrives with
  | fault there => rw [there]

/-- The walk stands where the tokens begin that the parser leaves. -/
theorem Arrives.eq_of_ok {a : α} {rest : List Token}
    (arrives : Arrives all least outcome (.ok (a, rest))) :
    outcome = some (.ok (a, all.length - rest.length)) := by
  cases arrives with
  | found onward inside => rw [List.length_drop, Nat.sub_sub_self inside]

theorem Arrives.place_of_ok {a : α} {rest : List Token}
    (arrives : Arrives all least outcome (.ok (a, rest))) :
    ∃ next, least ≤ next ∧ next ≤ all.length ∧ rest = all.drop next := by
  cases arrives with
  | found onward inside => exact ⟨_, onward, inside, rfl⟩

theorem Settles.mono {less : Nat} (settles : Settles all least outcomes answer)
    (le : less ≤ least) : Settles all less outcomes answer := by
  obtain ⟨enough, arrives⟩ := settles
  exact ⟨enough, fun turns more => (arrives turns more).mono le⟩

/-- Where the turns do not matter. -/
theorem settles_of_arrives (arrives : Arrives all least outcome answer) :
    Settles all least (fun _ => outcome) answer :=
  ⟨0, fun _ _ => arrives⟩

/-- One turn more may be needed first. -/
theorem settles_turn (settles : Settles all least (fun turns => outcomes (turns + 1)) answer) :
    Settles all least outcomes answer := by
  obtain ⟨enough, arrives⟩ := settles
  refine ⟨enough + 1, fun turns more => ?_⟩
  obtain ⟨turns, rfl⟩ := Nat.exists_eq_add_of_le' (Nat.le_trans (Nat.le_add_left 1 enough) more)
  exact arrives turns (Nat.le_of_succ_le_succ more)

end

section

variable {walk body : Nat → Walk α} {p : Parser α} {next : α → Nat → Walk β} {q : α → Parser β}

theorem Follows.near {fewer : Nat} (follows : Follows all bound least walk p)
    (le : fewer ≤ bound) : Follows all fewer least walk p :=
  fun pos inside near => follows pos inside (by omega)

/-- How much is taken may be left open. -/
theorem Follows.any (follows : Follows all bound least walk p) : Follows all bound 0 walk p :=
  fun pos inside near => (follows pos inside near).mono (by omega)

/-- There is no place with fewer than no tokens behind it. -/
theorem follows_zero : Follows all 0 least walk p :=
  fun _ inside near => absurd inside (Nat.not_le.mpr near)

theorem follows_turn (turn : ∀ turns, walk (turns + 1) = body turns)
    (follows : Follows all bound least body p) : Follows all bound least walk p := by
  intro pos inside near
  refine settles_turn ?_
  simp only [turn]
  exact follows pos inside near

theorem follows_pure (a : α) : Follows all bound 0 (fun _ => pure a) (pure a) :=
  fun _ inside _ => settles_of_arrives (.found (Nat.le_refl _) inside)

/-- One walk after another: the other has fewer tokens by those that the first takes. Where the
first arrives does not depend on its turns, and so the other has its own. -/
theorem follows_bind {taken : Nat} (first : Follows all bound taken walk p)
    (others : ∀ a, Follows all (bound - taken) least (next a) (q a)) :
    Follows all bound (taken + least) (fun turns => walk turns >>= (next · turns)) (p >>= q) := by
  intro pos inside near
  obtain ⟨enough, arrives⟩ := first pos inside near
  simp only [bind_apply, bind_eq]
  generalize p (all.drop pos) = answer at arrives
  match answer with
  | .error ⟨cause, rest⟩ =>
    refine ⟨enough, fun turns more => ?_⟩
    have stops : walk turns all pos = _ := (arrives turns more).eq_of_error
    simp only [stops]
    exact .fault rfl
  | .ok (a, rest) =>
    obtain ⟨between, onward, inside', rfl⟩ := (arrives enough (Nat.le_refl _)).place_of_ok
    obtain ⟨enough', arrives'⟩ := others a between inside' (by omega)
    refine ⟨max enough enough', fun turns more => ?_⟩
    have finds : walk turns all pos = _ := (arrives turns (by omega)).eq_of_ok
    simp only [finds, List.length_drop, Nat.sub_sub_self inside']
    exact (arrives' turns (by omega)).mono (by omega)

/-- One walk after another, where the first takes tokens. -/
theorem follows_first (first : Follows all bound least walk p)
    (others : ∀ a, Follows all (bound - least) 0 (next a) (q a)) :
    Follows all bound least (fun turns => walk turns >>= (next · turns)) (p >>= q) :=
  follows_bind first others

theorem follows_then (first : Follows all bound 0 walk p)
    (others : ∀ a, Follows all bound least (next a) (q a)) :
    Follows all bound least (fun turns => walk turns >>= (next · turns)) (p >>= q) := by
  simpa only [Nat.zero_add] using follows_bind first others

theorem follows_ite {c : Bool} {other : Nat → Walk α} {p' : Parser α}
    (yes : Follows all bound least walk p) (no : Follows all bound least other p') :
    Follows all bound least (fun turns => if c then walk turns else other turns)
      (if c then p else p') := by
  cases c with
  | true => exact yes
  | false => exact no

end

theorem peek_apply : (Cursor.peek : Walk (Option Token)) all pos =
    some (.ok ((all.drop pos).head?, pos)) := by
  rw [List.head?_drop]
  rfl

theorem fail_apply (cause : ParseError) : (fail cause : Walk α) all pos =
    some (.error (.fault (cause, faultOffset all (all.drop pos)))) := by
  rw [fail, Cursor.bind_of_ok peek_apply]
  cases all.drop pos with
  | cons t ts => rfl
  | nil =>
    have last : (all.getLast?.map Token.stop).getD 0 = faultOffset all [] := by
      rw [faultOffset]
      cases all.getLast? <;> rfl
    rw [← last]
    rfl

theorem follows_fail (cause : ParseError) :
    Follows all bound least (fun _ => (fail cause : Walk α)) (Parser.fail cause) := by
  intro pos inside near
  refine settles_of_arrives ?_
  rw [fail_apply]
  exact .fault rfl

/-- A token that is there is taken, and the walk goes on behind it. -/
theorem advance_bind {next : Token → Walk α} (rest : all.drop pos = t :: ts) :
    (Cursor.advance >>= next) all pos = next t all (pos + 1) :=
  Cursor.bind_of_ok (Cursor.advance_apply rest) next

theorem nextIs_apply (test : Token → Bool) :
    nextIs test all pos = some (.ok ((all.drop pos).head?.any test, pos)) := by
  rw [nextIs, Cursor.bind_of_ok peek_apply]
  rfl

theorem nextIs_bind {test : Token → Bool} {next : Bool → Walk α} :
    (nextIs test >>= next) all pos = next ((all.drop pos).head?.any test) all pos :=
  Cursor.bind_of_ok (nextIs_apply test) next

theorem follows_nextIs (test : Token → Bool) :
    Follows all bound 0 (fun _ => nextIs test) (Parser.nextIs test) := by
  intro pos inside near
  refine settles_of_arrives ?_
  rw [nextIs_apply]
  exact .found (Nat.le_refl _) inside

section

variable {test : Token → Bool} {yes no : Walk α}

theorem nextIs_nil (rest : all.drop pos = []) :
    (nextIs test >>= fun c => if c then yes else no) all pos = no all pos := by
  rw [nextIs_bind, rest]
  rfl

theorem nextIs_cons (rest : all.drop pos = t :: ts) :
    (nextIs test >>= fun c => if c then yes else no) all pos =
      if test t then yes all pos else no all pos := by
  rw [nextIs_bind, rest, List.head?_cons, Option.any_some]
  cases test t <;> rfl

theorem accept_nil (rest : all.drop pos = []) :
    (accept test >>= fun c => if c then yes else no) all pos = no all pos := by
  have other : accept test all pos = some (.ok (false, pos)) := by
    rw [accept, nextIs_nil rest]
    rfl
  rw [Cursor.bind_of_ok other, if_neg Bool.false_ne_true]

theorem accept_cons (rest : all.drop pos = t :: ts) :
    (accept test >>= fun c => if c then yes else no) all pos =
      if test t then yes all (pos + 1) else no all pos := by
  have answer : accept test all pos = some (.ok (test t, if test t then pos + 1 else pos)) := by
    rw [accept, nextIs_cons rest, advance_bind rest]
    cases test t <;> rfl
  rw [Cursor.bind_of_ok answer]
  cases test t <;> rfl

end

/-- What is found where the walk stands. -/
theorem arrives_here {a : α} {rest : List Token} (here : all.drop pos = rest)
    (inside : pos ≤ all.length) : Arrives all pos (some (.ok (a, pos))) (.ok (a, rest)) :=
  here ▸ .found (Nat.le_refl _) inside

/-- What is found behind the next token. -/
theorem arrives_behind {a : α} (rest : all.drop pos = t :: ts) :
    Arrives all (pos + 1) (some (.ok (a, pos + 1))) (.ok (a, ts)) := by
  obtain ⟨-, behind, inside⟩ := of_drop_eq_cons rest
  exact arrives_here behind inside

theorem arrives_ite {c : Bool} {found other : Cursor.Outcome (ParseError × Nat) α}
    {answer answer' : Except Fault (α × List Token)}
    (yes : c = true → Arrives all least found answer)
    (no : c = false → Arrives all least other answer') :
    Arrives all least (if c then found else other) (if c then answer else answer') := by
  cases c with
  | true => exact yes rfl
  | false => exact no rfl

theorem follows_accept (test : Token → Bool) :
    Follows all bound 0 (fun _ => accept test) (Parser.accept test) := by
  intro pos inside near
  refine settles_of_arrives ?_
  rw [accept]
  rcases rest : all.drop pos with _ | ⟨t, ts⟩
  · rw [nextIs_nil rest]
    exact arrives_here rest inside
  · rw [nextIs_cons rest, advance_bind rest, Parser.accept]
    exact arrives_ite (fun _ => (arrives_behind rest).mono (Nat.le_succ _))
      fun _ => arrives_here rest inside

theorem follows_require (test : Token → Bool) (what : Wanted) :
    Follows all bound 1 (fun _ => require test what) (Parser.require test what) := by
  intro pos inside near
  refine settles_of_arrives ?_
  rw [require]
  rcases rest : all.drop pos with _ | ⟨t, ts⟩
  · rw [nextIs_nil rest, fail_apply, rest]
    exact .fault rfl
  · rw [nextIs_cons rest, advance_bind rest, fail_apply, rest, Parser.require]
    exact arrives_ite (fun _ => arrives_behind rest) fun _ => .fault rfl

/-- The token that ends a construct. -/
theorem follows_last (test : Token → Bool) (what : Wanted) (a : α) :
    Follows all bound 0 (fun _ => do
      require test what
      pure a) (do
      Parser.require test what
      pure a) :=
  follows_then (follows_require test what).any fun _ => follows_pure a

theorem follows_requireName (what : Wanted) :
    Follows all bound 1 (fun _ => requireName what) (Parser.requireName what) := by
  intro pos inside near
  refine settles_of_arrives ?_
  rw [requireName]
  rcases rest : all.drop pos with _ | ⟨t, ts⟩
  · rw [nextIs_nil rest, fail_apply, rest]
    exact .fault rfl
  · rw [nextIs_cons rest, advance_bind rest, fail_apply, rest, Parser.requireName]
    simp only [beq_iff_eq]
    split
    · exact arrives_behind rest
    · exact .fault rfl

theorem follows_operatorOf (table : List Operator) :
    Follows all bound 0 (fun _ => operatorOf table) (Parser.operatorOf table) := by
  intro pos inside near
  refine settles_of_arrives ?_
  rcases rest : all.drop pos with _ | ⟨t, ts⟩
  · have none : operatorOf table all pos = some (.ok (none, pos)) := by
      induction table with
      | nil => rfl
      | cons op others ih => rw [operatorOf, acceptOperator, accept_nil rest, ih]
    rw [none]
    exact arrives_here rest inside
  induction table with
  | nil => exact arrives_here rest inside
  | cons op others ih =>
    rw [operatorOf, acceptOperator, accept_cons rest]
    simp only [Parser.operatorOf, List.find?_cons] at ih ⊢
    cases t.isOperator op.text with
    | true => exact (arrives_behind rest).mono (Nat.le_succ _)
    | false => exact ih

theorem orderingOperator_arrives (strict inclusive : Operator) (rest : all.drop pos = t :: ts) :
    Arrives all pos (orderingOperator strict inclusive all pos)
      (Parser.orderingOperator t strict inclusive ts) := by
  obtain ⟨-, behind, inside⟩ := of_drop_eq_cons rest
  rw [orderingOperator, advance_bind rest]
  rcases ts with _ | ⟨next, ts⟩
  · rw [accept_nil behind]
    exact (arrives_here behind inside).mono (Nat.le_succ _)
  · rw [accept_cons behind, Parser.orderingOperator]
    exact arrives_ite (fun _ => (arrives_behind behind).mono (by omega))
      fun _ => (arrives_here behind inside).mono (Nat.le_succ _)

theorem follows_comparing :
    Follows all bound 0 (fun _ => comparingOperator) Parser.comparingOperator := by
  intro pos inside near
  refine settles_of_arrives ?_
  rw [comparingOperator, acceptOperator, acceptOperator]
  rcases rest : all.drop pos with _ | ⟨t, ts⟩
  · rw [accept_nil rest, accept_nil rest, nextIs_nil rest, nextIs_nil rest]
    exact arrives_here rest inside
  rw [accept_cons rest, accept_cons rest, nextIs_cons rest, nextIs_cons rest]
  have behind (op : Operator) :
      Arrives all pos (some (.ok (some op, pos + 1))) (.ok (some op, ts)) :=
    (arrives_behind rest).mono (Nat.le_succ _)
  refine arrives_ite (fun _ => behind .equal) fun _ => ?_
  refine arrives_ite (fun _ => behind .notEqual) fun _ => ?_
  refine arrives_ite (fun _ => orderingOperator_arrives _ _ rest) fun _ => ?_
  refine arrives_ite (fun _ => orderingOperator_arrives _ _ rest) fun _ => ?_
  exact arrives_here rest inside

/-- Several items. The walk goes one turn further as long as there are commas, and each turn takes
at least the item. -/
theorem follows_separated {walk : Nat → Walk α} {p : Parser α} {several : Nat → Walk (List α)}
    {count : Nat}
    (turn : ∀ turns, several (turns + 1) = do
      let first ← walk turns
      if ← acceptOperator "," then
        let others ← several turns
        pure (first :: others)
      else pure [first])
    (item : Follows all bound 1 walk p) (enough : bound ≤ count) :
    Follows all bound 1 several (separated p count) := by
  induction count generalizing bound with
  | zero =>
    rw [Nat.le_zero.mp enough]
    exact follows_zero
  | succ count ih =>
    refine follows_turn turn (follows_first item fun first => ?_)
    refine follows_then (follows_accept _) fun comma => follows_ite ?_ (follows_pure _)
    have others := ih (item.near (Nat.sub_le bound 1)) (by omega)
    exact follows_then others.any fun others => follows_pure _

section

variable {limit : Nat} {operator : Walk (Option Operator)} {op : Parser (Option Operator)}
  {tighter : List (Walk (Option Operator))} {operand value : Parser Expr}

/-- Operators and operands to the right. Each turn takes at least the operand. -/
theorem follows_chain {count : Nat}
    (between : ∀ fewer, Follows all fewer 0 (fun _ => operator) op)
    (one : Follows all bound 1 (layers tighter) operand) (enough : bound ≤ count) (left : Expr) :
    Follows all bound 0 (chain operator tighter left) (Parser.chain op operand count left) := by
  induction count generalizing bound left with
  | zero =>
    rw [Nat.le_zero.mp enough]
    exact follows_zero
  | succ count ih =>
    refine follows_turn (fun _ => chain.eq_2 ..) (follows_then (between bound) fun found => ?_)
    cases found with
    | none => exact follows_pure left
    | some sign =>
      exact (follows_first one fun right => ih (one.near (Nat.sub_le bound 1)) (by omega) _).any

theorem follows_layer (between : ∀ fewer, Follows all fewer 0 (fun _ => operator) op)
    (one : Follows all bound 1 (layers tighter) operand) :
    Follows all bound 1 (layers (operator :: tighter)) (layer bound op operand) :=
  follows_turn (fun _ => layers.eq_3 ..) (follows_first one fun first =>
    follows_chain between (one.near (Nat.sub_le bound 1)) (Nat.sub_le bound 1) first)

theorem follows_layers (one : Follows all bound 1 primary operand) :
    Follows all bound 1 expression (Parser.layers bound operand) := by
  have innermost : Follows all bound 1 (layers []) operand := follows_turn layers.eq_2 one
  refine follows_layer (fun _ => follows_operatorOf _) ?_
  refine follows_layer (fun _ => follows_comparing) ?_
  refine follows_layer (fun _ => follows_operatorOf _) ?_
  exact follows_layer (fun _ => follows_operatorOf _) innermost

section

variable (nested : Follows all bound 1 expression value)

include nested

theorem follows_expressionsUntil (closing : String) (enough : bound ≤ limit) :
    Follows all bound 0 (expressionsUntil closing) (listUntil closing value limit) := by
  have several : Follows all bound 1 expressions (separated value limit) :=
    follows_separated expressions.eq_2 nested enough
  refine follows_turn (expressionsUntil.eq_2 closing) ?_
  exact follows_then (follows_nextIs _) fun closed => follows_ite (follows_pure []) several.any

theorem follows_named (enough : bound ≤ limit) (name : String) :
    Follows all bound 0 (named name) (Parser.named limit value name) := by
  refine follows_turn (named.eq_2 name) ?_
  refine follows_then (follows_accept _) fun opens => follows_ite ?_ ?_
  · exact follows_then (follows_expressionsUntil nested ")" enough) fun _ => follows_last _ _ _
  refine follows_then (follows_accept _) fun opens => follows_ite ?_ (follows_pure _)
  exact follows_then nested.any fun _ => follows_last _ _ _

theorem follows_group : Follows all bound 0 (fun turns => do
    let inner ← expression turns
    requireOperator ")" .groupClosing
    pure (.group inner none)) (group value) :=
  follows_then nested.any fun _ => follows_last _ _ _

end

theorem literal_arrives (l : Option Literal) (cause : ParseError) (rest : all.drop pos = t :: ts) :
    Arrives all (pos + 1) (literal l cause t all pos) (Parser.literal l cause t ts) := by
  cases l with
  | none =>
    rw [literal, advance_bind rest]
    exact .fault rfl
  | some l =>
    rw [literal, advance_bind rest]
    exact arrives_behind rest

/-- What starts an expression is taken, so that what is inside it has fewer tokens. -/
theorem follows_primary (nested : Follows all limit 1 expression value) :
    Follows all (limit + 1) 1 primary (Parser.primary (limit + 1) value) := by
  refine follows_turn primary.eq_2 fun pos inside near => ?_
  simp only [Cursor.bind_of_ok peek_apply]
  rcases rest : all.drop pos with _ | ⟨t, ts⟩
  · simp only [List.head?_nil, fail_apply, rest]
    exact settles_of_arrives (.fault rfl)
  obtain ⟨-, behind, inside'⟩ := of_drop_eq_cons rest
  have further {walk : Nat → Walk Expr} {p : Parser Expr} (follows : Follows all limit 0 walk p) :
      Settles all (pos + 1) (fun turns => walk turns all (pos + 1)) (p ts) := by
    rw [← behind]
    exact follows (pos + 1) inside' (by omega)
  simp only [List.head?_cons, Parser.primary]
  cases t.kind with
  | identifier =>
    simp only [advance_bind rest]
    cases Literal.ofWord? t.text with
    | some l => exact settles_of_arrives (arrives_behind rest)
    | none => exact further (follows_named nested (Nat.le_succ limit) t.text)
  | integer | decimal | character => exact settles_of_arrives (literal_arrives _ _ rest)
  | string =>
    simp only [advance_bind rest]
    exact settles_of_arrives (arrives_behind rest)
  | operator =>
    by_cases opens : t.text = "("
    · simp only [if_pos opens, advance_bind rest]
      exact further (follows_group nested)
    · simp only [if_neg opens, fail_apply, rest]
      exact settles_of_arrives (.fault rfl)

end

/-- No depth is reached that would not do. -/
theorem follows_expression (all : List Token) (limit : Nat) :
    Follows all limit 1 expression (Parser.expression limit) := by
  induction limit with
  | zero => exact follows_zero
  | succ limit ih => exact follows_layers (follows_primary ih)

end Plc.Parser.Walk

import Plc.Outcome
import Plc.Program.Erase
import Plc.Proofs.Parts

/-!
What the grammar says of programs beyond their shape. List literals stand only as the initial values
of list globals, each by itself, so there is none inside an expression; constants have values.
Analysis changes nothing of this.
-/

namespace Plc

def Expr.IsList : Expr → Prop
  | .list .. => True
  | _ => False

def Expr.Flat (e : Expr) : Prop := ∀ x ∈ e.parts, ¬ x.IsList

def Stmt.Flat (s : Stmt) : Prop := ∀ t ∈ s.parts, ∀ e ∈ t.own, e.Flat

def Stmt.AllFlat (ss : List Stmt) : Prop := ∀ t ∈ Stmt.allParts ss, ∀ e ∈ t.own, e.Flat

def Expr.FlatList (e : Expr) : Prop := ∃ es slot, e = .list es slot ∧ ∀ x ∈ es, x.Flat

def Global.Flat (g : Global) : Prop :=
  ∀ e, g.value = some e → if g.list then e.FlatList else e.Flat

def Global.Valued (g : Global) : Prop := g.mutable = false → g.value ≠ none

structure Program.Grammatical (p : Program) : Prop where
  lists : ∀ g ∈ p.globals, g.Flat
  constants : ∀ g ∈ p.globals, g.Valued
  functions : ∀ f ∈ p.functions, Stmt.AllFlat f.body

section

variable {e : Expr} {es : List Expr} {slot : Option Ty}

theorem flat_access {name : String} {record : Option Variable} :
    (Expr.access name record slot).Flat := by
  simp [Expr.Flat, Expr.parts, Expr.IsList]

theorem flat_literal {l : Literal} : (Expr.literal l slot).Flat := by
  simp [Expr.Flat, Expr.parts, Expr.IsList]

theorem flat_group (inner : e.Flat) : (Expr.group e slot).Flat := by
  simpa [Expr.Flat, Expr.parts, Expr.IsList] using inner

theorem flat_binary {op : Operator} {left right : Expr} (first : left.Flat)
    (second : right.Flat) : (Expr.binary op left right slot).Flat := by
  intro x member
  simp only [Expr.parts, List.mem_cons, List.mem_append] at member
  rcases member with rfl | inside | inside
  · exact id
  · exact first x inside
  · exact second x inside

theorem flat_element {name : String} {index : Expr} {record : Option Variable}
    (inner : index.Flat) : (Expr.element name index record slot).Flat := by
  simpa [Expr.Flat, Expr.parts, Expr.IsList] using inner

theorem flat_call {name : String} {signature : Option Signature} (all : ∀ e ∈ es, e.Flat) :
    (Expr.call name es signature slot).Flat := by
  intro x member
  simp only [Expr.parts, List.mem_cons, Expr.mem_allParts] at member
  rcases member with rfl | ⟨e, arg, inside⟩
  · exact id
  · exact all e arg x inside

theorem allFlat_cons {s : Stmt} {ss : List Stmt} (first : s.Flat) (others : Stmt.AllFlat ss) :
    Stmt.AllFlat (s :: ss) := by
  intro t member
  rcases List.mem_append.mp member with inside | inside
  · exact first t inside
  · exact others t inside

theorem allFlat_nil : Stmt.AllFlat [] := by
  simp [Stmt.AllFlat, Stmt.allParts]

theorem flat_expression (inner : e.Flat) : (Stmt.expression e).Flat := by
  simpa [Stmt.Flat, Stmt.parts, Stmt.own] using inner

theorem flat_return (inner : e.Flat) : (Stmt.return e).Flat := by
  simpa [Stmt.Flat, Stmt.parts, Stmt.own] using inner

theorem flat_declaration {name : String} {typeName : Option String} {value : Option Expr}
    {record : Option Variable} (initial : ∀ e, value = some e → e.Flat) :
    (Stmt.declaration name typeName value record).Flat := by
  simpa [Stmt.Flat, Stmt.parts, Stmt.own] using initial

theorem flat_assignment {receiver : Expr} (first : receiver.Flat) (second : e.Flat) :
    (Stmt.assignment receiver e).Flat := by
  simpa [Stmt.Flat, Stmt.parts, Stmt.own] using ⟨first, second⟩

theorem flat_conditional {whenTrue whenFalse : List Stmt} (condition : e.Flat)
    (first : Stmt.AllFlat whenTrue) (second : Stmt.AllFlat whenFalse) :
    (Stmt.conditional e whenTrue whenFalse).Flat := by
  intro t member
  simp only [Stmt.parts, List.mem_cons, List.mem_append] at member
  rcases member with rfl | inside | inside
  · simpa [Stmt.own] using condition
  · exact first t inside
  · exact second t inside

theorem flat_loop {body : List Stmt} (condition : e.Flat) (inner : Stmt.AllFlat body) :
    (Stmt.loop e body).Flat := by
  intro t member
  simp only [Stmt.parts, List.mem_cons] at member
  rcases member with rfl | inside
  · simpa [Stmt.own] using condition
  · exact inner t inside

def Case.Flat (c : Case) : Prop := (∀ e, c.value = some e → e.Flat) ∧ Stmt.AllFlat c.body

theorem flat_switch {arms : List Case} (condition : e.Flat) (all : ∀ c ∈ arms, c.Flat) :
    (Stmt.switch e arms).Flat := by
  intro t member
  simp only [Stmt.parts, List.mem_cons, Case.mem_allParts] at member
  rcases member with rfl | ⟨c, arm, inside⟩
  · intro x own
    simp only [Stmt.own, List.mem_cons, List.mem_filterMap] at own
    rcases own with rfl | ⟨c, arm, value⟩
    · exact condition
    · exact (all c arm).1 x value
  · exact (all c arm).2 t inside

end

mutual

theorem Expr.parts_erase (e : Expr) : e.erase.parts = e.parts.map Expr.erase := by
  cases e with
  | literal l slot => rfl
  | access name record slot => rfl
  | group inner slot => simp [Expr.erase, Expr.parts, Expr.parts_erase inner]
  | binary op left right slot =>
    simp [Expr.erase, Expr.parts, Expr.parts_erase left, Expr.parts_erase right]
  | element name index record slot => simp [Expr.erase, Expr.parts, Expr.parts_erase index]
  | call name args signature slot => simp [Expr.erase, Expr.parts, Expr.allParts_erase args]
  | list es slot => simp [Expr.erase, Expr.parts, Expr.allParts_erase es]

theorem Expr.allParts_erase (es : List Expr) :
    Expr.allParts (Expr.eraseAll es) = (Expr.allParts es).map Expr.erase := by
  cases es with
  | nil => rfl
  | cons e es => simp [Expr.eraseAll, Expr.allParts, Expr.parts_erase e, Expr.allParts_erase es]

end

theorem Expr.isList_erase {e : Expr} : e.erase.IsList ↔ e.IsList := by
  cases e <;> exact Iff.rfl

theorem Expr.flat_erase {e : Expr} : e.erase.Flat ↔ e.Flat := by
  simp [Expr.Flat, Expr.parts_erase, Expr.isList_erase]

theorem Expr.flatList_erase {e : Expr} : e.erase.FlatList ↔ e.FlatList := by
  constructor
  · rintro ⟨es, slot, is, all⟩
    cases e with
    | list ds slot' =>
      simp only [Expr.erase, Expr.eraseAll_eq, Expr.list.injEq] at is
      obtain ⟨rfl, _⟩ := is
      exact ⟨ds, slot', rfl, fun x member =>
        Expr.flat_erase.mp (all _ (List.mem_map_of_mem member))⟩
    | _ => cases is
  · rintro ⟨es, slot, rfl, all⟩
    refine ⟨_, _, rfl, fun x member => ?_⟩
    rw [Expr.eraseAll_eq, List.mem_map] at member
    obtain ⟨y, inside, rfl⟩ := member
    exact Expr.flat_erase.mpr (all y inside)

theorem Case.value_erase (c : Case) : c.erase.value = c.value.map Expr.erase := by
  cases c
  rfl

theorem Stmt.own_erase (s : Stmt) : s.erase.own = s.own.map Expr.erase := by
  cases s with
  | declaration name typeName value record => cases value <;> rfl
  | switch c arms =>
    have values : (arms.map Case.erase).filterMap Case.value =
        (arms.filterMap Case.value).map Expr.erase := by
      rw [List.filterMap_map, List.map_filterMap]
      exact congrArg (fun f => arms.filterMap f) (funext Case.value_erase)
    rw [Stmt.erase, Stmt.own, Stmt.own, Case.eraseAll_eq, values, List.map_cons]
  | _ => rfl

mutual

theorem Stmt.parts_erase (s : Stmt) : s.erase.parts = s.parts.map Stmt.erase := by
  cases s with
  | conditional c whenTrue whenFalse =>
    simp [Stmt.erase, Stmt.parts, Stmt.allParts_erase whenTrue, Stmt.allParts_erase whenFalse]
  | switch c arms => simp [Stmt.erase, Stmt.parts, Case.allParts_erase arms]
  | loop c body => simp [Stmt.erase, Stmt.parts, Stmt.allParts_erase body]
  | _ => rfl

theorem Stmt.allParts_erase (ss : List Stmt) :
    Stmt.allParts (Stmt.eraseAll ss) = (Stmt.allParts ss).map Stmt.erase := by
  cases ss with
  | nil => rfl
  | cons s ss => simp [Stmt.eraseAll, Stmt.allParts, Stmt.parts_erase s, Stmt.allParts_erase ss]

theorem Case.allParts_erase (cs : List Case) :
    Case.allParts (Case.eraseAll cs) = (Case.allParts cs).map Stmt.erase := by
  cases cs with
  | nil => rfl
  | cons c cs =>
    obtain ⟨value, body⟩ := c
    simp [Case.eraseAll, Case.erase, Case.allParts, Case.parts, Stmt.allParts_erase body,
      Case.allParts_erase cs]

end

theorem Stmt.allFlat_erase {ss : List Stmt} :
    Stmt.AllFlat (Stmt.eraseAll ss) ↔ Stmt.AllFlat ss := by
  simp [Stmt.AllFlat, Stmt.allParts_erase, Stmt.own_erase, Expr.flat_erase]

theorem Global.flat_erase {g : Global} : g.erase.Flat ↔ g.Flat := by
  obtain ⟨name, typeName, mutable, list, value, record⟩ := g
  cases value with
  | none => simp [Global.Flat, Global.erase]
  | some e => cases list <;> simp [Global.Flat, Global.erase, Expr.flat_erase, Expr.flatList_erase]

theorem Global.valued_erase {g : Global} : g.erase.Valued ↔ g.Valued := by
  simp [Global.Valued, Global.erase]

theorem Program.grammatical_erase {p : Program} : p.erase.Grammatical ↔ p.Grammatical := by
  constructor
  · rintro ⟨lists, constants, functions⟩
    refine ⟨fun g member => ?_, fun g member => ?_, fun f member => ?_⟩
    · exact Global.flat_erase.mp (lists _ (List.mem_map_of_mem member))
    · exact Global.valued_erase.mp (constants _ (List.mem_map_of_mem member))
    · exact Stmt.allFlat_erase.mp (functions _ (List.mem_map_of_mem member))
  · rintro ⟨lists, constants, functions⟩
    refine ⟨List.forall_mem_map.mpr fun g member => ?_, List.forall_mem_map.mpr fun g member => ?_,
      List.forall_mem_map.mpr fun f member => ?_⟩
    · exact Global.flat_erase.mpr (lists g member)
    · exact Global.valued_erase.mpr (constants g member)
    · exact Stmt.allFlat_erase.mpr (functions f member)

namespace Parser

variable {α β : Type} {P : α → Prop} {Q : β → Prop}

def Yields (P : α → Prop) (parser : Parser α) : Prop :=
  ∀ ts a rest, parser ts = .ok (a, rest) → P a

theorem yields_pure {a : α} (holds : P a) : Yields P (pure a) := by
  intro ts b rest answer
  cases answer
  exact holds

theorem yields_fail {cause : ParseError} : Yields P (fail cause) := by
  intro ts a rest answer
  cases answer

theorem yields_bind {parser : Parser α} {next : α → Parser β} (first : Yields P parser)
    (others : ∀ a, P a → Yields Q (next a)) : Yields Q (parser >>= next) := by
  intro ts b rest answer
  simp only [bind, StateT.bind, Except.bind] at answer
  cases read : parser ts with
  | error fault => simp [read] at answer
  | ok found =>
    obtain ⟨a, between⟩ := found
    rw [read] at answer
    exact others a (first ts a between read) between b rest answer

/-- Nothing needs to be known of what is read first. -/
theorem yields_after {parser : Parser α} {next : α → Parser β} (others : ∀ a, Yields Q (next a)) :
    Yields Q (parser >>= next) :=
  yields_bind (P := fun _ => True) (fun _ _ _ _ => trivial) fun a _ => others a

theorem yields_ite {condition : Prop} [Decidable condition] {first second : Parser α}
    (yes : Yields P first) (no : Yields P second) :
    Yields P (if condition then first else second) := by
  split
  · exact yes
  · exact no

theorem yields_separated {item : Parser α} (one : Yields P item) (limit : Nat) :
    Yields (fun as => ∀ a ∈ as, P a) (separated item limit) := by
  induction limit with
  | zero => exact yields_pure (by simp)
  | succ limit ih =>
    refine yields_bind one fun a holds => yields_after fun comma => yields_ite ?_ ?_
    · exact yields_bind ih fun as all => yields_pure (List.forall_mem_cons.mpr ⟨holds, all⟩)
    · exact yields_pure (by simpa using holds)

theorem yields_listUntil {closing : String} {item : Parser α} {limit : Nat}
    (one : Yields P item) : Yields (fun as => ∀ a ∈ as, P a) (listUntil closing item limit) :=
  yields_after fun _ => yields_ite (yields_pure (by simp)) (yields_separated one limit)

section Expressions

variable {value : Parser Expr}

theorem chain_flat {operator : Parser (Option Operator)} (operand : Yields Expr.Flat value)
    (limit : Nat) {left : Expr} (flat : left.Flat) :
    Yields Expr.Flat (chain operator value limit left) := by
  induction limit generalizing left with
  | zero => exact yields_pure flat
  | succ limit ih =>
    refine yields_after fun found => ?_
    cases found with
    | none => exact yields_pure flat
    | some op => exact yields_bind operand fun right flatRight => ih (flat_binary flat flatRight)

theorem layer_flat {limit : Nat} {operator : Parser (Option Operator)}
    (operand : Yields Expr.Flat value) : Yields Expr.Flat (layer limit operator value) :=
  yields_bind operand fun _ flat => chain_flat operand limit flat

theorem named_flat {limit : Nat} {name : String} (nested : Yields Expr.Flat value) :
    Yields Expr.Flat (named limit value name) := by
  refine yields_after fun opening => yields_ite ?_ (yields_after fun bracket => yields_ite ?_ ?_)
  · refine yields_bind (yields_listUntil nested) fun args all => yields_after fun _ => ?_
    exact yields_pure (flat_call all)
  · refine yields_bind nested fun index flat => yields_after fun _ => ?_
    exact yields_pure (flat_element flat)
  · exact yields_pure flat_access

theorem literal_flat {l : Option Literal} {cause : ParseError} {t : Token} :
    Yields Expr.Flat (literal l cause t) := by
  intro ts e rest answer
  cases l with
  | none => cases answer
  | some l =>
    cases answer
    exact flat_literal

theorem primary_flat {limit : Nat} (nested : Yields Expr.Flat value) :
    Yields Expr.Flat (primary limit value) := by
  intro ts e rest answer
  cases ts with
  | nil => cases answer
  | cons t ts =>
    simp only [primary] at answer
    split at answer
    · split at answer
      · cases answer
        exact flat_literal
      · exact named_flat nested ts e rest answer
    · exact literal_flat ts e rest answer
    · exact literal_flat ts e rest answer
    · exact literal_flat ts e rest answer
    · cases answer
      exact flat_literal
    · split at answer
      · have inner : Yields Expr.Flat (group value) := yields_bind nested fun _ flat =>
          yields_after fun _ => yields_pure (flat_group flat)
        exact inner ts e rest answer
      · cases answer

theorem expression_flat (limit : Nat) : Yields Expr.Flat (expression limit) := by
  induction limit with
  | zero => exact yields_fail
  | succ limit ih => exact layer_flat (layer_flat (layer_flat (layer_flat (primary_flat ih))))

end Expressions

section Statements

variable {value : Parser Expr} {statement : Parser Stmt} {limit : Nat}

theorem yields_initializer {P : Expr → Prop} (one : Yields P value) :
    Yields (fun found => ∀ e, found = some e → P e) (initializer value) := by
  refine yields_after fun equals => yields_ite ?_ (yields_pure nofun)
  exact yields_bind one fun e holds => yields_pure fun x is => by
    cases is
    exact holds

theorem block_flat {terminators : List String} (one : Yields Stmt.Flat statement) (limit : Nat) :
    Yields Stmt.AllFlat (block terminators statement limit) := by
  induction limit with
  | zero => exact yields_fail
  | succ limit ih =>
    refine yields_after fun _ => yields_ite (yields_pure allFlat_nil) ?_
    refine yields_after fun _ => yields_ite ?_ yields_fail
    refine yields_bind one fun s first => yields_bind ih fun ss others => ?_
    exact yields_pure (allFlat_cons first others)

theorem declaration_flat (nested : Yields Expr.Flat value) :
    Yields Stmt.Flat (declaration value) := by
  refine yields_after fun name => yields_after fun typeName => ?_
  refine yields_bind (yields_initializer nested) fun initial flat => ?_
  have done : Yields Stmt.Flat (do
      requireOperator ";" .localEnd
      pure (.declaration name typeName initial none)) :=
    yields_after fun _ => yields_pure (flat_declaration flat)
  exact yields_ite (yields_after fun _ => done) done

theorem conditional_flat (nested : Yields Expr.Flat value) (one : Yields Stmt.Flat statement) :
    Yields Stmt.Flat (conditional limit value statement) := by
  refine yields_bind nested fun c condition => yields_after fun _ => ?_
  refine yields_bind (block_flat one limit) fun whenTrue first => yields_after fun other => ?_
  have rest : ∀ whenFalse, Stmt.AllFlat whenFalse → Yields Stmt.Flat (do
      requireKeyword "END" .ifClosing
      pure (.conditional c whenTrue whenFalse)) := fun whenFalse second =>
    yields_after fun _ => yields_pure (flat_conditional condition first second)
  exact yields_ite (yields_bind (block_flat one limit) rest)
    (yields_bind (yields_pure allFlat_nil) rest)

theorem valueCases_flat {body : Parser (List Stmt)} (nested : Yields Expr.Flat value)
    (inner : Yields Stmt.AllFlat body) (limit : Nat) :
    Yields (fun cs => ∀ c ∈ cs, c.Flat) (valueCases value body limit) := by
  induction limit with
  | zero => exact yields_pure (by simp)
  | succ limit ih =>
    refine yields_after fun _ => yields_ite ?_ (yields_pure (by simp))
    refine yields_bind nested fun e flat => yields_after fun _ => ?_
    refine yields_bind inner fun ss all => yields_bind ih fun cs others => ?_
    refine yields_pure (List.forall_mem_cons.mpr ⟨⟨fun x is => ?_, all⟩, others⟩)
    cases is
    exact flat

theorem defaultCase_flat {body : Parser (List Stmt)} (inner : Yields Stmt.AllFlat body) :
    Yields (fun cs => ∀ c ∈ cs, c.Flat) (defaultCase body) := by
  refine yields_after fun _ => yields_ite ?_ (yields_pure (by simp))
  refine yields_bind inner fun ss all => yields_after fun _ => yields_ite ?_ yields_fail
  exact yields_pure (List.forall_mem_singleton.mpr ⟨nofun, all⟩)

theorem switch_flat (nested : Yields Expr.Flat value) (one : Yields Stmt.Flat statement) :
    Yields Stmt.Flat (switch limit value statement) := by
  have inner : Yields Stmt.AllFlat (block caseTerminators statement limit) := block_flat one limit
  refine yields_bind nested fun c condition => ?_
  refine yields_bind (valueCases_flat nested inner limit) fun cs first => ?_
  refine yields_bind (defaultCase_flat inner) fun ds last => yields_after fun _ => ?_
  exact yields_pure (flat_switch condition (List.forall_mem_append.mpr ⟨first, last⟩))

theorem loop_flat (nested : Yields Expr.Flat value) (one : Yields Stmt.Flat statement) :
    Yields Stmt.Flat (loop limit value statement) := by
  refine yields_bind nested fun c condition => yields_after fun _ => ?_
  refine yields_bind (block_flat one limit) fun body inner => yields_after fun _ => ?_
  exact yields_pure (flat_loop condition inner)

theorem returned_flat (nested : Yields Expr.Flat value) : Yields Stmt.Flat (returned value) :=
  yields_bind nested fun _ flat => yields_after fun _ => yields_pure (flat_return flat)

theorem assignmentOrExpression_flat (nested : Yields Expr.Flat value) :
    Yields Stmt.Flat (assignmentOrExpression value) := by
  refine yields_bind nested fun e first => yields_after fun _ => yields_ite ?_ ?_
  · refine yields_bind nested fun assigned second => yields_after fun _ => ?_
    exact yields_pure (flat_assignment first second)
  · exact yields_after fun _ => yields_pure (flat_expression first)

theorem statement_flat (limit : Nat) : Yields Stmt.Flat (Parser.statement limit) := by
  induction limit with
  | zero => exact yields_fail
  | succ limit ih =>
    have nested := expression_flat (limit + 1)
    refine yields_after fun _ => yields_ite (declaration_flat nested) ?_
    refine yields_after fun _ => yields_ite (conditional_flat nested ih) ?_
    refine yields_after fun _ => yields_ite (switch_flat nested ih) ?_
    refine yields_after fun _ => yields_ite (loop_flat nested ih) ?_
    exact yields_after fun _ =>
      yields_ite (returned_flat nested) (assignmentOrExpression_flat nested)

end Statements

theorem listLiteral_flat (limit : Nat) : Yields Expr.FlatList (listLiteral limit) := by
  refine yields_after fun _ => ?_
  refine yields_bind (yields_listUntil (expression_flat limit)) fun es all => ?_
  exact yields_after fun _ => yields_pure ⟨es, none, rfl, all⟩

theorem globalOf_grammatical (limit : Nat) (keyword : String) :
    Yields (fun g => g.Flat ∧ g.Valued) (globalOf limit keyword) := by
  have nested := expression_flat limit
  refine yields_after fun name => yields_after fun typeName => ?_
  let made (value : Option Expr) : Global :=
    ⟨name, typeName, keyword != "VAL", keyword == "LIST", value, none⟩
  have rest : ∀ value, (made value).Flat → (made value).Valued →
      Yields (fun g => g.Flat ∧ g.Valued) (do
        requireOperator ";" .globalEnd
        pure (made value)) := fun value flat valued =>
    yields_after fun _ => yields_pure ⟨flat, valued⟩
  by_cases list : keyword = "LIST"
  · have flat : ∀ value, (∀ e, value = some e → e.FlatList) → (made value).Flat := by
      intro value known e is
      simpa [made, list] using known e is
    have valued : ∀ value, (made value).Valued := by simp [made, list, Global.Valued]
    rw [if_pos list]
    exact yields_bind (yields_initializer (listLiteral_flat limit)) fun value known =>
      rest value (flat value known) (valued value)
  · have flat : ∀ value, (∀ e, value = some e → e.Flat) → (made value).Flat := by
      intro value known e is
      simpa [made, list] using known e is
    rw [if_neg list]
    by_cases plain : keyword = "VAR"
    · have valued : ∀ value, (made value).Valued := by simp [made, plain, Global.Valued]
      rw [if_pos plain]
      exact yields_bind (yields_initializer nested) fun value known =>
        rest value (flat value known) (valued value)
    · rw [if_neg plain]
      refine yields_after fun _ => yields_bind nested fun e known => ?_
      refine rest (some e) (flat (some e) fun x is => ?_) (by simp [made, Global.Valued])
      cases is
      exact known

theorem function_flat (limit : Nat) :
    Yields (fun f => Stmt.AllFlat f.body) (Parser.function limit) := by
  refine yields_after fun _ => yields_after fun _ => yields_after fun _ => yields_after fun _ => ?_
  refine yields_after fun _ => yields_after fun _ => ?_
  refine yields_bind (block_flat (statement_flat limit) limit) fun body flat => ?_
  exact yields_after fun _ => yields_pure flat

theorem globals_grammatical (limit count : Nat) :
    Yields (fun gs => ∀ g ∈ gs, g.Flat ∧ g.Valued) (Parser.globals limit count) := by
  induction count with
  | zero => exact yields_pure (by simp)
  | succ count ih =>
    refine yields_after fun keyword => ?_
    cases keyword with
    | none => exact yields_pure (by simp)
    | some keyword =>
      refine yields_bind (globalOf_grammatical limit keyword) fun g first => ?_
      refine yields_bind ih fun gs others => ?_
      exact yields_pure (List.forall_mem_cons.mpr ⟨first, others⟩)

theorem functions_flat (limit count : Nat) :
    Yields (fun fs => ∀ f ∈ fs, Stmt.AllFlat f.body) (Parser.functions limit count) := by
  induction count with
  | zero => exact yields_pure (by simp)
  | succ count ih =>
    refine yields_after fun _ => yields_ite ?_ (yields_after fun _ => yields_ite yields_fail ?_)
    · refine yields_bind (function_flat limit) fun f first => yields_bind ih fun fs others => ?_
      exact yields_pure (List.forall_mem_cons.mpr ⟨first, others⟩)
    · exact yields_after fun _ => yields_ite yields_fail (yields_pure (by simp))

theorem program_grammatical (limit : Nat) :
    Yields Program.Grammatical (Parser.program limit) := by
  refine yields_bind (globals_grammatical limit limit) fun gs globals => ?_
  refine yields_bind (functions_flat limit limit) fun fs functions => ?_
  exact yields_pure ⟨fun g member => (globals g member).1, fun g member => (globals g member).2,
    functions⟩

end Parser

/-- A program that was read is the answer of the parser to the tokens of its text. -/
theorem answer_of_parse {source : String} {p : Program} (read : Source.parse source = .ok p) :
    ∃ ts rest, Token.ofSource source = .ok ts ∧
      Parser.program (ts.length + 1) ts = .ok (p, rest) := by
  cases tokens : Token.ofSource source with
  | error found =>
    simp only [Source.parse, Source.tokens, tokens] at read
    cases read
  | ok ts =>
    rw [Source.parse_of_tokens tokens, Program.ofTokens] at read
    cases answer : Parser.program (ts.length + 1) ts with
    | error fault =>
      rw [answer] at read
      cases read
    | ok found =>
      rw [answer] at read
      obtain ⟨q, rest⟩ := found
      cases read
      exact ⟨ts, rest, rfl, answer⟩

theorem grammatical_of_parse {source : String} {p : Program}
    (read : Source.parse source = .ok p) : p.Grammatical := by
  obtain ⟨ts, rest, -, answer⟩ := answer_of_parse read
  exact Parser.program_grammatical _ ts _ rest answer

/-- An accepted program was read, and analysis has accepted what was read. -/
theorem read_of_check {source : String} {q : Program} (accepted : Source.check source = .ok q) :
    ∃ p, Source.parse source = .ok p ∧ p.check = .ok q := by
  simp only [Source.check, bind, Except.bind] at accepted
  split at accepted
  · cases accepted
  · next p read =>
    refine ⟨p, read, ?_⟩
    cases typed : p.check with
    | error e =>
      rw [typed] at accepted
      cases accepted
    | ok r =>
      rw [typed] at accepted
      cases accepted
      rfl

end Plc

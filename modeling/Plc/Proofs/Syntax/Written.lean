import Plc.Proofs.Grammar
import Plc.Proofs.Syntax.Sound
import Plc.Proofs.Typing.Sound

/-!
Literals of programs that were read: each is what the grammar says that one of the tokens denotes.
-/

namespace Plc

open Grammar

def Expr.Written (xs : List Token) (e : Expr) : Prop :=
  ∀ l slot, .literal l slot ∈ e.parts → ∃ t ∈ xs, LiteralOf t l

def Stmt.Written (xs : List Token) (s : Stmt) : Prop := ∀ t ∈ s.parts, ∀ e ∈ t.own, e.Written xs

def Stmt.AllWritten (xs : List Token) (ss : List Stmt) : Prop :=
  ∀ t ∈ Stmt.allParts ss, ∀ e ∈ t.own, e.Written xs

def Case.Written (xs : List Token) (c : Case) : Prop :=
  (∀ e, c.value = some e → e.Written xs) ∧ Stmt.AllWritten xs c.body

section

variable {xs ys : List Token}

theorem Expr.Written.mono {e : Expr} (written : e.Written xs) (sub : xs ⊆ ys) : e.Written ys := by
  intro l slot member
  obtain ⟨t, among, denotes⟩ := written l slot member
  exact ⟨t, sub among, denotes⟩

theorem Stmt.Written.mono {s : Stmt} (written : s.Written xs) (sub : xs ⊆ ys) : s.Written ys :=
  fun t part e own => (written t part e own).mono sub

theorem Stmt.AllWritten.mono {ss : List Stmt} (written : Stmt.AllWritten xs ss) (sub : xs ⊆ ys) :
    Stmt.AllWritten ys ss := fun t part e own => (written t part e own).mono sub

theorem Case.Written.mono {c : Case} (written : c.Written xs) (sub : xs ⊆ ys) : c.Written ys :=
  ⟨fun e value => (written.1 e value).mono sub, written.2.mono sub⟩

theorem Stmt.written_of_own {s : Stmt} (alone : s.parts = [s])
    (own : ∀ e ∈ s.own, e.Written xs) : s.Written xs := by
  intro t member
  rw [alone, List.mem_singleton] at member
  exact member ▸ own

theorem Stmt.allWritten_cons {s : Stmt} {ss : List Stmt} (first : s.Written xs)
    (others : Stmt.AllWritten xs ss) : Stmt.AllWritten xs (s :: ss) := by
  intro t member
  rcases List.mem_append.mp member with inside | inside
  · exact first t inside
  · exact others t inside

end

namespace Grammar

mutual

theorem written_expr : ∀ {layer : Option Layer} {xs : List Token} {e : Expr},
    ExprOf layer xs e → e.Written xs
  | _, _, _, .literal denotes => by
    intro l slot member
    simp only [Expr.parts, List.mem_singleton, Expr.literal.injEq] at member
    exact ⟨_, List.mem_cons_self, member.1 ▸ denotes⟩
  | _, _, _, .access _ => by simp [Expr.Written, Expr.parts]
  | _, _, _, .element _ _ inner _ => by
    intro l slot member
    simp only [Expr.parts, List.mem_cons, reduceCtorEq, false_or] at member
    exact (written_expr inner).mono (by grind) l slot member
  | _, _, _, .call _ _ .none _ => by simp [Expr.Written, Expr.parts, Expr.allParts]
  | _, _, _, .call _ _ (.some items) _ => by
    intro l slot member
    simp only [Expr.parts, List.mem_cons, reduceCtorEq, false_or, Expr.mem_allParts] at member
    obtain ⟨e, arg, inside⟩ := member
    exact (written_separated items e arg).mono (by grind) l slot inside
  | _, _, _, .group _ inner _ => by
    intro l slot member
    simp only [Expr.parts, List.mem_cons, reduceCtorEq, false_or] at member
    exact (written_expr inner).mono (by grind) l slot member
  | _, _, _, .operand inner => written_expr inner
  | _, _, _, .binary first _ second => by
    intro l slot member
    simp only [Expr.parts, List.mem_cons, reduceCtorEq, false_or, List.mem_append] at member
    exact member.elim ((written_expr first).mono (by grind) l slot)
      ((written_expr second).mono (by grind) l slot)

theorem written_separated : ∀ {xs : List Token} {es : List Expr},
    Separated (ExprOf (some .logical)) xs es → ∀ e ∈ es, e.Written xs
  | _, _, .one item => by simpa using written_expr item
  | _, _, .more item _ others =>
    List.forall_mem_cons.mpr ⟨(written_expr item).mono (by grind), fun e among =>
      (written_separated others e among).mono (by grind)⟩

end

theorem written_initial {Item : List Token → Expr → Prop} {xs : List Token} {value : Option Expr}
    (each : ∀ xs e, Item xs e → e.Written xs) (derived : InitialOf Item xs value) :
    ∀ e, value = some e → e.Written xs := by
  rintro e rfl
  cases derived with
  | present _ value => exact (each _ e value).mono (by grind)

mutual

theorem written_stmt : ∀ {xs : List Token} {s : Stmt}, StmtOf xs s → s.Written xs
  | _, _, .declaration _ _ _ initial _ _ => by
    refine Stmt.written_of_own rfl fun e own => ?_
    have value :=
      written_initial (fun _ _ => written_expr) initial e (by simpa [Stmt.own] using own)
    exact value.mono (by grind)
  | _, _, .conditional _ condition _ first second _ => by
    intro t member
    simp only [Stmt.parts, List.mem_cons, List.mem_append] at member
    rcases member with rfl | inside | inside
    · intro e own
      obtain rfl := List.mem_singleton.mp own
      exact (written_expr condition).mono (by grind)
    · exact (written_block first).mono (by grind) t inside
    · exact (written_else second).mono (by grind) t inside
  | _, _, .switch _ condition cases last _ => by
    intro t member
    simp only [Stmt.parts, List.mem_cons, Case.mem_allParts, List.mem_append] at member
    rcases member with rfl | ⟨c, arm, inside⟩
    · intro x own
      simp only [Stmt.own, List.mem_cons, List.mem_filterMap] at own
      rcases own with rfl | ⟨c, arm, value⟩
      · exact (written_expr condition).mono (by grind)
      · rcases List.mem_append.mp arm with arm | arm
        · exact ((written_arms cases c arm).1 x value).mono (by grind)
        · exact ((written_default last c arm).1 x value).mono (by grind)
    · rcases arm with arm | arm
      · exact (written_arms cases c arm).2.mono (by grind) t inside
      · exact (written_default last c arm).2.mono (by grind) t inside
  | _, _, .loop _ condition _ inner _ => by
    intro t member
    simp only [Stmt.parts, List.mem_cons] at member
    rcases member with rfl | inside
    · intro e own
      obtain rfl := List.mem_singleton.mp own
      exact (written_expr condition).mono (by grind)
    · exact (written_block inner).mono (by grind) t inside
  | _, _, .return _ value _ => by
    refine Stmt.written_of_own rfl fun e own => ?_
    obtain rfl := List.mem_singleton.mp own
    exact (written_expr value).mono (by grind)
  | _, _, .assignment _ target _ value _ => by
    refine Stmt.written_of_own rfl fun e own => ?_
    rcases List.mem_cons.mp own with rfl | own
    · exact (written_expr target).mono (by grind)
    · obtain rfl := List.mem_singleton.mp own
      exact (written_expr value).mono (by grind)
  | _, _, .expression _ value _ => by
    refine Stmt.written_of_own rfl fun e own => ?_
    obtain rfl := List.mem_singleton.mp own
    exact (written_expr value).mono (by grind)

theorem written_block : ∀ {words : List String} {xs : List Token} {ss : List Stmt},
    BlockOf words xs ss → Stmt.AllWritten xs ss
  | _, _, _, .nil => by simp [Stmt.AllWritten, Stmt.allParts]
  | _, _, _, .cons _ first others =>
    Stmt.allWritten_cons ((written_stmt first).mono (by grind))
      ((written_block others).mono (by grind))

theorem written_else : ∀ {xs : List Token} {ss : List Stmt}, ElseOf xs ss → Stmt.AllWritten xs ss
  | _, _, .absent => by simp [Stmt.AllWritten, Stmt.allParts]
  | _, _, .present _ inner => (written_block inner).mono (by grind)

theorem written_arm : ∀ {xs : List Token} {c : Case}, ArmOf xs c → c.Written xs
  | _, _, .arm _ value _ inner => by
    refine ⟨?_, (written_block inner).mono (by grind)⟩
    rintro _ ⟨⟩
    exact (written_expr value).mono (by grind)

theorem written_arms : ∀ {xs : List Token} {cs : List Case}, Many ArmOf xs cs →
    ∀ c ∈ cs, c.Written xs
  | _, _, .nil => nofun
  | _, _, .cons first others =>
    List.forall_mem_cons.mpr ⟨(written_arm first).mono (by grind), fun c among =>
      (written_arms others c among).mono (by grind)⟩

theorem written_default : ∀ {xs : List Token} {cs : List Case}, DefaultOf xs cs →
    ∀ c ∈ cs, c.Written xs
  | _, _, .absent => nofun
  | _, _, .present _ inner => by
    intro c member
    rw [List.mem_singleton] at member
    subst member
    exact ⟨nofun, (written_block inner).mono (by grind)⟩

end

theorem written_list {xs : List Token} {e : Expr} (derived : ListOf xs e) : e.Written xs := by
  obtain ⟨_, inner, _⟩ := derived
  intro l slot member
  simp only [Expr.parts, List.mem_cons, reduceCtorEq, false_or, Expr.mem_allParts] at member
  obtain ⟨e, element, inside⟩ := member
  cases inner with
  | none => exact absurd element List.not_mem_nil
  | some items => exact (written_separated items e element).mono (by grind) l slot inside

theorem written_global {xs : List Token} {g : Global} (derived : GlobalOf xs g) :
    ∀ e, g.value = some e → e.Written xs := by
  cases derived with
  | list _ _ _ initial _ =>
    exact fun e value => (written_initial (fun _ _ => written_list) initial e value).mono (by grind)
  | «variable» _ _ _ initial _ =>
    exact fun e value => (written_initial (fun _ _ => written_expr) initial e value).mono (by grind)
  | constant _ _ _ _ value _ =>
    rintro _ ⟨⟩
    exact (written_expr value).mono (by grind)

theorem written_function {xs : List Token} {f : Function} (derived : FunctionOf xs f) :
    Stmt.AllWritten xs f.body := by
  cases derived with
  | function _ _ _ _ _ _ _ inner _ => exact (written_block inner).mono (by grind)

theorem forall_of_many {α : Type} {Item : List Token → α → Prop} {P : List Token → α → Prop}
    (each : ∀ xs a, Item xs a → P xs a) (mono : ∀ {xs ys a}, P xs a → xs ⊆ ys → P ys a)
    {xs : List Token} {as : List α} (derived : Many Item xs as) : ∀ a ∈ as, P xs a := by
  induction derived with
  | nil => nofun
  | cons first _ ih =>
    exact List.forall_mem_cons.mpr ⟨mono (each _ _ first) (by grind), fun a among =>
      mono (ih a among) (by grind)⟩

theorem written_program {ts : List Token} {p : Program} (derived : ProgramOf ts p) :
    ∀ e ∈ p.expressions, ∀ l slot, e = .literal l slot → ∃ t ∈ ts, LiteralOf t l := by
  obtain @⟨xs, ys, gs, fs, derivedG, derivedF⟩ := derived
  have globals : ∀ g ∈ gs, ∀ e, g.value = some e → e.Written xs :=
    forall_of_many (P := fun xs g => ∀ e, g.value = some e → e.Written xs)
      (fun _ _ => written_global) (fun written sub e value => (written e value).mono sub) derivedG
  have more : ∀ {xs ys : List Token} {f : Function}, Stmt.AllWritten xs f.body → xs ⊆ ys →
      Stmt.AllWritten ys f.body := Stmt.AllWritten.mono
  have functions : ∀ f ∈ fs, Stmt.AllWritten ys f.body :=
    forall_of_many (P := fun ys f => Stmt.AllWritten ys f.body)
      (fun _ _ => written_function) more derivedF
  rintro _ member l slot rfl
  obtain ⟨e, own, inside⟩ := List.mem_flatMap.mp member
  rcases List.mem_append.mp own with value | own
  · obtain ⟨g, among, is⟩ := List.mem_filterMap.mp value
    exact (globals g among e is).mono (by grind) l slot inside
  · obtain ⟨s, part, own⟩ := List.mem_flatMap.mp own
    obtain ⟨f, among, part⟩ := List.mem_flatMap.mp part
    exact (functions f among s part e own).mono (by grind) l slot inside

end Grammar

theorem Program.expressions_erase (p : Program) :
    p.erase.expressions = p.expressions.map Expr.erase := by
  have values : (p.globals.map Global.erase).filterMap Global.value =
      (p.globals.filterMap Global.value).map Expr.erase := by
    rw [List.filterMap_map, List.map_filterMap]
    rfl
  simp only [Program.expressions, Program.statements, Program.erase, Function.erase, values,
    List.flatMap_map, List.map_flatMap, List.flatMap_assoc, List.flatMap_append, List.map_append,
    Stmt.allParts_erase, Stmt.own_erase, Expr.parts_erase]

/-- Analysis leaves literals as they are. -/
theorem literal_of_erase {p q : Program} (same : q.erase = p.erase) {l : Literal} {slot : Option Ty}
    (member : .literal l slot ∈ q.expressions) : ∃ slot', .literal l slot' ∈ p.expressions := by
  have erased : (Expr.literal l slot).erase ∈ p.erase.expressions := by
    rw [← same, Program.expressions_erase]
    exact List.mem_map_of_mem member
  rw [Program.expressions_erase] at erased
  obtain ⟨e, inside, is⟩ := List.mem_map.mp erased
  cases e with
  | literal l' slot' =>
    cases is
    exact ⟨slot', inside⟩
  | _ => cases is

/-- Every literal of an accepted program is the one of a token of its text. -/
theorem written_of_check {source : String} {q : Program} (accepted : Source.check source = .ok q)
    {l : Literal} {slot : Option Ty} (member : .literal l slot ∈ q.expressions) :
    ∃ ts, Token.ofSource source = .ok ts ∧ ∃ t ∈ ts, LiteralOf t l := by
  obtain ⟨p, read, typed⟩ := read_of_check accepted
  obtain ⟨Δ, -, -, same⟩ := check_sound typed
  obtain ⟨slot', inside⟩ := literal_of_erase same member
  obtain ⟨ts, rest, tokens, answer⟩ := answer_of_parse read
  have derived := Parser.reads_program (Nat.lt_succ_self ts.length) ts (Nat.le_refl _)
  rw [answer] at derived
  obtain ⟨xs, split, derived⟩ := derived
  obtain ⟨t, among, denotes⟩ := Grammar.written_program derived _ inside l slot' rfl
  exact ⟨ts, tokens, t, split ▸ List.mem_append_left _ among, denotes⟩

end Plc

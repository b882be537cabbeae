import Plc.Proofs.Typing.Alike
import Plc.Proofs.Typing.InPlace
import Plc.Proofs.Typing.Sound

/-!
What typing in place does to a tree. It fills slots and changes nothing else, also where it stops
half-way, and its answers are those of `Typing`, whatever the slots held before.
-/

namespace Plc

namespace InPlace

variable {σ τ α β : Type} {c : Context}

/-- In `c`, `act` ends as `plain` does, with a value that is `done`, or it leaves a tree behind
that is `left`. -/
def Decorates (left : τ → Prop) (done : α → Prop) (c : Context) (act : InPlace τ α)
    (plain : Typing α) : Prop :=
  match act c with
  | .ok a d => plain c = .ok a d ∧ done a
  | .error (tree, e) d => plain c = .error e d ∧ left tree

section

variable {left : τ → Prop} {done : α → Prop}

theorem decorates_pure {a : α} (value : done a) : Decorates left done c (pure a) (pure a) :=
  ⟨rfl, value⟩

theorem decorates_throw {tree : τ} {e : TypeError} (shape : left tree) :
    Decorates left done c (throw (tree, e)) (throw e) := ⟨rfl, shape⟩

theorem decorates_refused {tree : τ} {e : TypeError} {next : β → InPlace τ α}
    {plainNext : β → Typing α} (shape : left tree) :
    Decorates left done c (throw (tree, e) >>= next) (throw e >>= plainNext) := ⟨rfl, shape⟩

theorem decorates_get {next : Context → InPlace τ α} {plainNext : Context → Typing α}
    (rest : Decorates left done c (next c) (plainNext c)) :
    Decorates left done c (get >>= next) (get >>= plainNext) := rest

theorem decorates_leaving {tree : τ} (act : Typing α) (shape : left tree) :
    Decorates left (fun _ => True) c (leaving tree act) act := by
  unfold Decorates leaving
  cases act c with
  | ok a d => exact ⟨rfl, trivial⟩
  | error e d => exact ⟨rfl, shape⟩

theorem decorates_within {part : σ → Prop} {wrap : σ → τ} {act : InPlace σ α} {plain : Typing α}
    (inner : Decorates part done c act plain) (whole : ∀ t, part t → left (wrap t)) :
    Decorates left done c (within wrap act) plain := by
  unfold Decorates within at *
  cases ended : act c with
  | ok a d =>
    rw [ended] at inner
    exact inner
  | error p d =>
    rw [ended] at inner
    exact ⟨inner.1, whole p.1 inner.2⟩

theorem decorates_bind {result : β → Prop} {act : InPlace τ α} {plain : Typing α}
    {next : α → InPlace τ β} {plainNext : α → Typing β} (first : Decorates left done c act plain)
    (rest : ∀ a d, plain c = .ok a d → done a → Decorates left result d (next a) (plainNext a)) :
    Decorates left result c (act >>= next) (plain >>= plainNext) := by
  show (match EStateM.bind act next c with
    | .ok b d => EStateM.bind plain plainNext c = .ok b d ∧ result b
    | .error (tree, e) d => EStateM.bind plain plainNext c = .error e d ∧ left tree)
  unfold Decorates at first
  unfold EStateM.bind
  cases ended : act c with
  | ok a d =>
    rw [ended] at first
    have second := rest a d first.1 first.2
    rw [first.1]
    exact second
  | error p d =>
    rw [ended] at first
    rw [first.1]
    exact ⟨rfl, first.2⟩

theorem decorates_ite {holds : Prop} [Decidable holds] {yes no : InPlace τ α}
    {plainYes plainNo : Typing α} (first : holds → Decorates left done c yes plainYes)
    (second : ¬ holds → Decorates left done c no plainNo) :
    Decorates left done c (if holds then yes else no) (if holds then plainYes else plainNo) := by
  split
  · next is => exact first is
  · next is => exact second is

theorem decorates_inChild {act : InPlace τ α} {plain : Typing α}
    (inner : Decorates left done c.entered act plain) :
    Decorates left done c (inChild act) (Typing.inChild plain) := by
  unfold Decorates inChild Typing.inChild at *
  unfold Context.entered at inner
  dsimp only
  cases ended : act { c with scopes := c.scopes.addChild c.current, current := c.scopes.next } with
  | ok a d =>
    rw [ended] at inner
    rw [inner.1]
    exact ⟨rfl, inner.2⟩
  | error p d =>
    rw [ended] at inner
    rw [inner.1]
    exact ⟨rfl, inner.2⟩

theorem decorates_returning {ty : Ty} {act : InPlace τ α} {plain : Typing α}
    (inner : Decorates left done { c with returns := some ty } act plain) :
    Decorates left done c (returning ty act) (Typing.returning ty plain) := by
  unfold Decorates returning Typing.returning at *
  cases ended : act { c with returns := some ty } with
  | ok a d =>
    rw [ended] at inner
    rw [inner.1]
    exact ⟨rfl, inner.2⟩
  | error p d =>
    rw [ended] at inner
    rw [inner.1]
    exact ⟨rfl, inner.2⟩

end

theorem requireBinary_alike {f e : Expr} (alike : f.erase = e.erase) :
    Typing.requireBinary f = Typing.requireBinary e := by
  cases e <;> cases f <;> first | rfl | cases alike

abbrev ExprDecorates (c : Context) (e f : Expr) : Prop :=
  Decorates (fun t => t.erase = e.erase) (fun r => r.1.erase = e.erase) c (expr e) (Typing.expr f)

mutual

theorem expr_decorates {c : Context} {f : Expr} (e : Expr) (whole : f.erase = e.erase)
    (formed : c.Formed) : ExprDecorates c e f := by
  cases e with
  | literal value slot =>
    obtain ⟨other, rfl⟩ := erase_literal whole
    exact decorates_bind (decorates_leaving _ rfl) fun ty _ _ _ => decorates_pure rfl
  | group inner slot =>
    obtain ⟨given, other, rfl, alike⟩ := erase_group whole
    unfold ExprDecorates expr Typing.expr
    rw [requireBinary_alike alike]
    refine decorates_bind (decorates_leaving _ rfl) fun _ d checked _ => ?_
    obtain ⟨-, rfl⟩ := Typing.requireBinary_ok.mp checked
    have part := expr_decorates inner alike formed
    refine decorates_bind (decorates_within part fun t shape => ?_) fun r _ _ shape => ?_
    · simp only [Expr.erase, shape]
    · exact decorates_pure (by simp only [Expr.erase, shape])
  | binary op left right slot =>
    obtain ⟨l, r, other, rfl, alikeL, alikeR⟩ := erase_binary whole
    have first := expr_decorates left alikeL formed
    refine decorates_bind (decorates_within first fun t shape => ?_) fun a d typed shapeL => ?_
    · simp only [Expr.erase, shape]
    obtain ⟨-, rfl⟩ := Typing.expr_sound formed typed
    have second := expr_decorates right alikeR formed
    refine decorates_bind (decorates_within second fun t shape => ?_) fun b _ _ shapeR => ?_
    · simp only [Expr.erase, shapeL, shape]
    have shape : ∀ slot,
        (Expr.binary op a.1 b.1 slot).erase = .binary op left.erase right.erase none := by
      simp only [Expr.erase, shapeL, shapeR, implies_true]
    dsimp only
    cases op.resultType? a.2 b.2 with
    | some ty => exact decorates_pure (shape _)
    | none => exact decorates_throw (shape _)
  | access name record slot =>
    obtain ⟨other, others, rfl⟩ := erase_access whole
    exact decorates_bind (decorates_leaving _ rfl) fun v _ _ _ => decorates_pure rfl
  | element name index record slot =>
    obtain ⟨given, other, others, rfl, alike⟩ := erase_element whole
    refine decorates_bind (decorates_leaving _ rfl) fun v d known _ => ?_
    obtain ⟨-, rfl⟩ := Typing.variableNamed_ok.mp known
    refine decorates_ite (fun _ => decorates_refused rfl) fun _ => ?_
    have part := expr_decorates index alike formed
    refine decorates_bind (decorates_within part fun t shape => ?_) fun a _ _ shape => ?_
    · simp only [Expr.erase, shape]
    refine decorates_ite (fun _ => decorates_refused ?_) fun _ => decorates_pure ?_
    · simp only [Expr.erase, shape]
    · simp only [Expr.erase, shape]
  | call name args signature slot =>
    obtain ⟨given, other, others, rfl, alike⟩ := erase_call whole
    unfold ExprDecorates expr Typing.expr
    rw [length_of_eraseAll alike]
    refine decorates_bind (decorates_leaving _ rfl) fun s d known _ => ?_
    obtain ⟨found, rfl⟩ := Typing.functionNamed_ok.mp known
    have part := arguments_decorates s.parameters args alike
      (Context.arity_of_known formed found) formed
    refine decorates_bind (decorates_within part fun t shape => ?_) fun as _ _ shape => ?_
    · simp only [Expr.erase, shape]
    · exact decorates_pure (by simp only [Expr.erase, shape])
  | list elements slot =>
    obtain ⟨given, other, rfl, alike⟩ := erase_list whole
    cases elements with
    | nil =>
      obtain rfl := eraseAll_nil alike
      exact decorates_throw rfl
    | cons e es =>
      obtain ⟨g, gs, rfl, alikeFirst, alikeAll⟩ := eraseAll_cons alike
      have first := expr_decorates e alikeFirst formed
      refine decorates_bind (decorates_within first fun t shape => ?_) fun a d typed shape => ?_
      · simp only [Expr.erase, Expr.eraseAll, shape]
      obtain ⟨-, rfl⟩ := Typing.expr_sound formed typed
      have rest := elementsOf_decorates a.2 es alikeAll formed
      refine decorates_bind (decorates_within rest fun ts shapes => ?_) fun as _ _ shapes => ?_
      · simp only [Expr.erase, Expr.eraseAll, shape, shapes]
      · exact decorates_pure (by simp only [Expr.erase, Expr.eraseAll, shape, shapes])

theorem arguments_decorates {c : Context} {fs : List Expr} (types : List Ty) (es : List Expr)
    (alike : Expr.eraseAll fs = Expr.eraseAll es) (many : types.length = es.length)
    (formed : c.Formed) :
    Decorates (fun ts => Expr.eraseAll ts = Expr.eraseAll es)
      (fun as => Expr.eraseAll as = Expr.eraseAll es) c (arguments types es)
      (Typing.arguments types fs) := by
  cases es with
  | nil =>
    obtain rfl := eraseAll_nil alike
    cases types with
    | nil => exact decorates_pure rfl
    | cons => cases many
  | cons e es =>
    cases types with
    | nil => cases many
    | cons expected types =>
      obtain ⟨g, gs, rfl, alikeFirst, alikeAll⟩ := eraseAll_cons alike
      have first := expr_decorates e alikeFirst formed
      refine decorates_bind (decorates_within first fun t shape => ?_) fun a d typed shape => ?_
      · simp only [Expr.eraseAll, shape]
      obtain ⟨-, rfl⟩ := Typing.expr_sound formed typed
      refine decorates_bind (decorates_leaving _ ?_) fun _ d accepted _ => ?_
      · simp only [Expr.eraseAll, shape]
      obtain ⟨-, rfl⟩ := Typing.requireAccepts_ok.mp accepted
      have rest := arguments_decorates types es alikeAll (Nat.succ.inj many) formed
      refine decorates_bind (decorates_within rest fun ts shapes => ?_) fun as _ _ shapes => ?_
      · simp only [Expr.eraseAll, shape, shapes]
      · exact decorates_pure (by simp only [Expr.eraseAll, shape, shapes])

theorem elementsOf_decorates {c : Context} {fs : List Expr} (T : Ty) (es : List Expr)
    (alike : Expr.eraseAll fs = Expr.eraseAll es) (formed : c.Formed) :
    Decorates (fun ts => Expr.eraseAll ts = Expr.eraseAll es)
      (fun as => Expr.eraseAll as = Expr.eraseAll es) c (elementsOf T es)
      (Typing.elementsOf T fs) := by
  cases es with
  | nil =>
    obtain rfl := eraseAll_nil alike
    exact decorates_pure rfl
  | cons e es =>
    obtain ⟨g, gs, rfl, alikeFirst, alikeAll⟩ := eraseAll_cons alike
    have first := expr_decorates e alikeFirst formed
    refine decorates_bind (decorates_within first fun t shape => ?_) fun a d typed shape => ?_
    · simp only [Expr.eraseAll, shape]
    obtain ⟨-, rfl⟩ := Typing.expr_sound formed typed
    refine decorates_ite (fun _ => decorates_refused ?_) fun _ => ?_
    · simp only [Expr.eraseAll, shape]
    have rest := elementsOf_decorates T es alikeAll formed
    refine decorates_bind (decorates_within rest fun ts shapes => ?_) fun as _ _ shapes => ?_
    · simp only [Expr.eraseAll, shape, shapes]
    · exact decorates_pure (by simp only [Expr.eraseAll, shape, shapes])

end

theorem initializer_decorates (name : String) (declared : Option Ty) {f e : Expr}
    (whole : f.erase = e.erase) (formed : c.Formed) :
    Decorates (fun t => t.erase = e.erase) (fun r => r.1.erase = e.erase) c
      (initializer name declared e) (Typing.initializer name declared f) := by
  have general := expr_decorates e whole formed
  cases e with
  | list elements slot =>
    obtain ⟨given, other, rfl, alike⟩ := erase_list whole
    cases elements with
    | nil =>
      obtain rfl := eraseAll_nil alike
      cases declared with
      | some ty => exact decorates_pure rfl
      | none => exact decorates_throw rfl
    | cons e es =>
      obtain ⟨g, gs, rfl, -, -⟩ := eraseAll_cons alike
      exact general
  | _ =>
    cases f with
    | list => cases whole
    | _ => exact general

theorem declaredType_decorates (name : String) (typeName : Option String)
    {given value : Option Expr} (whole : given.map Expr.erase = value.map Expr.erase)
    (formed : c.Formed) :
    Decorates (fun t => t.map Expr.erase = value.map Expr.erase)
      (fun r => r.1.map Expr.erase = value.map Expr.erase) c (declaredType name typeName value)
      (Typing.declaredType name typeName given) := by
  refine decorates_bind (decorates_leaving _ rfl) fun declared d named _ => ?_
  have same : c = d := by
    cases typeName with
    | none => exact (Typing.pure_ok.mp named).2
    | some typeName =>
      obtain ⟨_, -, -, same⟩ := Typing.mapM_typeNamed_some.mp named
      exact same
  subst same
  cases value with
  | none =>
    obtain rfl := Option.map_eq_none_iff.mp whole
    cases declared with
    | some target => exact decorates_pure rfl
    | none => exact decorates_throw rfl
  | some e =>
    obtain ⟨f, rfl, alike⟩ := Option.map_eq_some_iff.mp whole
    have first := initializer_decorates name declared alike formed
    refine decorates_bind (decorates_within first fun t shape => congrArg some shape)
      fun a _ _ shape => ?_
    cases declared with
    | none => exact decorates_pure (congrArg some shape)
    | some target =>
      exact decorates_bind (decorates_leaving _ (congrArg some shape)) fun _ _ _ _ =>
        decorates_pure (congrArg some shape)

theorem condition_decorates (statement : Conditional) {f e : Expr} (alike : f.erase = e.erase)
    (formed : c.Formed) :
    Decorates (fun t => t.erase = e.erase) (fun r => r.erase = e.erase) c (condition statement e)
      (Typing.condition statement f) := by
  refine decorates_bind (expr_decorates e alike formed) fun a _ _ shape => ?_
  exact decorates_ite (fun _ => decorates_refused shape) fun _ => decorates_pure shape

theorem within_access (wrap : Expr → τ) (name : String) (record : Option Variable)
    (slot : Option Ty) :
    within wrap (expr (.access name record slot)) = (do
      let v ← leaving (wrap (.access name record slot)) (Typing.variableNamed name)
      let ty := if v.list then .any else v.ty
      pure (.access name (some v) (some ty), ty)) := by
  funext c
  show within wrap (EStateM.bind _ _) c = EStateM.bind _ _ c
  unfold within EStateM.bind leaving
  cases Typing.variableNamed name c <;> rfl

theorem assignment_decorates {r v receiver value : Expr} (alikeR : r.erase = receiver.erase)
    (alikeV : v.erase = value.erase) (formed : c.Formed) :
    Decorates (fun t => t.erase = (Stmt.assignment receiver value).erase)
      (fun s => s.erase = (Stmt.assignment receiver value).erase) c (assignment receiver value)
      (Typing.assignment r v) := by
  have first := expr_decorates value alikeV formed
  cases receiver with
  | access name record slot =>
    obtain ⟨other, others, rfl⟩ := erase_access alikeR
    refine decorates_bind (decorates_within first fun t shape => ?_) fun a d typed shape => ?_
    · simp only [Stmt.erase, shape]
    dsimp only
    rw [within_access]
    simp only [bind_assoc, pure_bind]
    refine decorates_bind (decorates_leaving _ ?_) fun w d known _ => ?_
    · simp only [Stmt.erase, shape]
    have done : ∀ slot, (Stmt.assignment (.access name (some w) slot) a.1).erase =
        (Stmt.assignment (.access name record slot) value).erase := by
      simp only [Stmt.erase, Expr.erase, shape, implies_true]
    cases list : w.list with
    | true => exact decorates_refused (done _)
    | false =>
      exact decorates_bind (decorates_leaving _ (done _)) fun _ _ _ _ => decorates_pure (done _)
  | element name index record slot =>
    obtain ⟨given, other, others, rfl, -⟩ := erase_element alikeR
    refine decorates_bind (decorates_within first fun t shape => ?_) fun a d typed shapeV => ?_
    · simp only [Stmt.erase, shape]
    obtain ⟨-, rfl⟩ := Typing.expr_sound formed typed
    have second := expr_decorates (.element name index record slot) alikeR formed
    refine decorates_bind (decorates_within second fun t shape => ?_) fun b d target shapeR => ?_
    · simp only [Stmt.erase, shapeV, shape]
    have done : (Stmt.assignment b.1 a.1).erase =
        (Stmt.assignment (.element name index record slot) value).erase := by
      simp only [Stmt.erase, shapeV, shapeR]
    -- a receiver that was an element is none that is a whole list
    obtain ⟨t, T⟩ := b
    obtain ⟨_, _, _, rfl, -⟩ : ∃ index' record' slot', t = .element name index' record' slot' ∧
      index'.erase = index.erase := erase_element shapeR
    exact decorates_bind (decorates_leaving _ done) fun _ _ _ _ => decorates_pure done
  | _ =>
    cases r with
    | access | element => cases alikeR
    | _ => exact decorates_throw rfl

theorem caseValue_decorates (ty : Ty) {given value : Option Expr}
    (whole : given.map Expr.erase = value.map Expr.erase) (formed : c.Formed) :
    Decorates (fun t => t.map Expr.erase = value.map Expr.erase)
      (fun t => t.map Expr.erase = value.map Expr.erase) c (caseValue ty value)
      (Typing.caseValue ty given) := by
  cases value with
  | none =>
    obtain rfl := Option.map_eq_none_iff.mp whole
    exact decorates_pure rfl
  | some e =>
    obtain ⟨f, rfl, alike⟩ := Option.map_eq_some_iff.mp whole
    have first := expr_decorates e alike formed
    refine decorates_bind (decorates_within first fun t shape => congrArg some shape)
      fun a _ _ shape => ?_
    exact decorates_ite (fun _ => decorates_refused (congrArg some shape))
      fun _ => decorates_pure (congrArg some shape)

theorem caseValue_same {ty : Ty} {value value' : Option Expr} {d : Context} (formed : c.Formed)
    (accepted : Typing.caseValue ty value c = .ok value' d) : c = d := by
  cases value with
  | none => exact (Typing.pure_ok.mp accepted).2
  | some e =>
    obtain ⟨_, -, -, same⟩ := Typing.caseValue_sound formed accepted
    exact same

theorem isEmpty_alike {ss ts : List Stmt} (alike : Stmt.eraseAll ts = Stmt.eraseAll ss) :
    ts.isEmpty = ss.isEmpty := by
  cases ss <;> cases ts <;> first | rfl | cases alike

/-- The default arm stands last in both lists or in none. -/
theorem misplaced_alike {given value : Option Expr} {ds cs : List Case}
    (alike : given.map Expr.erase = value.map Expr.erase)
    (alikeAll : Case.eraseAll ds = Case.eraseAll cs) :
    (given.isNone && !ds.isEmpty) = (value.isNone && !cs.isEmpty) := by
  have first : given.isNone = value.isNone := by
    cases value <;> cases given <;> first | rfl | cases alike
  have second : ds.isEmpty = cs.isEmpty := by
    cases cs <;> cases ds <;> first | rfl | cases alikeAll
  rw [first, second]

abbrev StmtDecorates (c : Context) (s t : Stmt) : Prop :=
  Decorates (fun r => r.erase = s.erase) (fun r => r.erase = s.erase) c (stmt s) (Typing.stmt t)

abbrev BlockDecorates (c : Context) (ss ts : List Stmt) : Prop :=
  Decorates (fun rs => Stmt.eraseAll rs = Stmt.eraseAll ss)
    (fun rs => Stmt.eraseAll rs = Stmt.eraseAll ss) c (block ss) (Typing.block ts)

theorem call_decorates {e : Expr} {t : Stmt} (whole : t.erase = (Stmt.expression e).erase)
    (formed : c.Formed) : StmtDecorates c (.expression e) t := by
  obtain ⟨f, rfl, alike⟩ := erase_expression whole
  have first := expr_decorates e alike formed
  cases e with
  | call name args signature slot =>
    obtain ⟨given, other, others, rfl, -⟩ := erase_call alike
    exact decorates_bind (decorates_within first fun t shape => congrArg Stmt.expression shape)
      fun a _ _ shape => decorates_pure (congrArg Stmt.expression shape)
  | _ =>
    cases f with
    | call => cases alike
    | _ => exact decorates_throw rfl

theorem declaration_decorates {name : String} {typeName : Option String} {value : Option Expr}
    {record : Option Variable} {t : Stmt}
    (whole : t.erase = (Stmt.declaration name typeName value record).erase) (formed : c.Formed) :
    StmtDecorates c (.declaration name typeName value record) t := by
  obtain ⟨given, other, rfl, alike⟩ := erase_declaration whole
  have first := declaredType_decorates name typeName alike formed
  refine decorates_bind (decorates_within first fun t shape => ?_) fun a _ _ shape => ?_
  · simp only [Stmt.erase, shape]
  have done : ∀ slot, (Stmt.declaration name typeName a.1 slot).erase =
      (Stmt.declaration name typeName value record).erase := by
    simp only [Stmt.erase, shape, implies_true]
  exact decorates_bind (decorates_leaving _ (done _)) fun _ _ _ _ => decorates_pure (done _)

theorem return_decorates {value : Expr} {t : Stmt} (whole : t.erase = (Stmt.return value).erase)
    (formed : c.Formed) : StmtDecorates c (.return value) t := by
  obtain ⟨g, rfl, alike⟩ := erase_return whole
  have first := expr_decorates value alike formed
  unfold StmtDecorates stmt Typing.stmt
  refine decorates_get ?_
  cases c.returns with
  | none => exact decorates_throw rfl
  | some expected =>
    refine decorates_bind (decorates_within first fun t shape => congrArg Stmt.return shape)
      fun a _ _ shape => ?_
    exact decorates_bind (decorates_leaving _ (congrArg Stmt.return shape)) fun _ _ _ _ =>
      decorates_pure (congrArg Stmt.return shape)

theorem conditional_decorates {e : Expr} {whenTrue whenFalse : List Stmt} {t : Stmt}
    (first : ∀ {c ts}, Stmt.eraseAll ts = Stmt.eraseAll whenTrue → c.Formed →
      BlockDecorates c whenTrue ts)
    (second : ∀ {c ts}, Stmt.eraseAll ts = Stmt.eraseAll whenFalse → c.Formed →
      BlockDecorates c whenFalse ts)
    (whole : t.erase = (Stmt.conditional e whenTrue whenFalse).erase) (formed : c.Formed) :
    StmtDecorates c (.conditional e whenTrue whenFalse) t := by
  obtain ⟨g, yes, no, rfl, alike, alikeYes, alikeNo⟩ := erase_conditional whole
  unfold StmtDecorates stmt Typing.stmt
  rw [isEmpty_alike alikeYes, isEmpty_alike alikeNo]
  have condition := condition_decorates .if alike formed
  refine decorates_bind (decorates_within condition fun t shape => ?_) fun e' d typed shape => ?_
  · simp only [Stmt.erase, shape]
  obtain ⟨-, rfl⟩ := Typing.condition_sound formed typed
  refine decorates_ite (fun _ => decorates_refused ?_) fun _ => ?_
  · simp only [Stmt.erase, shape]
  have inner := decorates_inChild (first alikeYes (Context.formed_entered formed))
  refine decorates_bind (decorates_within inner fun ss shapes => ?_) fun yes' d typed shapeYes => ?_
  · simp only [Stmt.erase, shape, shapes]
  obtain ⟨sound, -⟩ := Typing.child_sound (Typing.block_sound yes) formed typed
  have inner := decorates_inChild (second alikeNo (Context.formed_entered sound.later.formed))
  refine decorates_ite (fun none => ?_) fun _ => ?_
  · rw [pure_bind, pure_bind]
    refine decorates_pure ?_
    simp only [Stmt.erase, shape, shapeYes, List.isEmpty_iff.mp none]
  · refine decorates_bind (decorates_within inner fun ss shapes => ?_)
      fun no' _ _ shapeNo => decorates_pure ?_
    · simp only [Stmt.erase, shape, shapeYes, shapes]
    · simp only [Stmt.erase, shape, shapeYes, shapeNo]

theorem loop_decorates {e : Expr} {body : List Stmt} {t : Stmt}
    (inner : ∀ {c ts}, Stmt.eraseAll ts = Stmt.eraseAll body → c.Formed → BlockDecorates c body ts)
    (whole : t.erase = (Stmt.loop e body).erase) (formed : c.Formed) :
    StmtDecorates c (.loop e body) t := by
  obtain ⟨g, ss, rfl, alike, alikeBody⟩ := erase_loop whole
  have condition := condition_decorates .while alike formed
  refine decorates_bind (decorates_within condition fun t shape => ?_) fun e' d typed shape => ?_
  · simp only [Stmt.erase, shape]
  obtain ⟨-, rfl⟩ := Typing.condition_sound formed typed
  have rest := decorates_inChild (inner alikeBody (Context.formed_entered formed))
  refine decorates_bind (decorates_within rest fun ss shapes => ?_) fun ss _ _ shapes => ?_
  · simp only [Stmt.erase, shape, shapes]
  · exact decorates_pure (by simp only [Stmt.erase, shape, shapes])

abbrev CasesDecorates (c : Context) (ty : Ty) (cs ds : List Case) : Prop :=
  Decorates (fun rs => Case.eraseAll rs = Case.eraseAll cs)
    (fun rs => Case.eraseAll rs = Case.eraseAll cs) c (cases ty cs) (Typing.cases ty ds)

theorem switch_decorates {e : Expr} {arms : List Case} {t : Stmt}
    (all : ∀ {ty ds}, Case.eraseAll ds = Case.eraseAll arms → CasesDecorates c ty arms ds)
    (whole : t.erase = (Stmt.switch e arms).erase) (formed : c.Formed) :
    StmtDecorates c (.switch e arms) t := by
  obtain ⟨g, cs, rfl, alike, alikeArms⟩ := erase_switch whole
  have first := expr_decorates e alike formed
  refine decorates_bind (decorates_within first fun t shape => ?_) fun a d typed shape => ?_
  · simp only [Stmt.erase, shape]
  obtain ⟨-, rfl⟩ := Typing.expr_sound formed typed
  refine decorates_bind (decorates_within (all alikeArms) fun cs shapes => ?_)
    fun cs _ _ shapes => ?_
  · simp only [Stmt.erase, shape, shapes]
  · exact decorates_pure (by simp only [Stmt.erase, shape, shapes])

mutual

theorem stmt_decorates {c : Context} {t : Stmt} (s : Stmt) (whole : t.erase = s.erase)
    (formed : c.Formed) : StmtDecorates c s t := by
  cases s with
  | expression e => exact call_decorates whole formed
  | declaration name typeName value record => exact declaration_decorates whole formed
  | assignment receiver value =>
    obtain ⟨r, v, rfl, alikeR, alikeV⟩ := erase_assignment whole
    exact assignment_decorates alikeR alikeV formed
  | conditional e whenTrue whenFalse =>
    exact conditional_decorates (block_decorates whenTrue) (block_decorates whenFalse) whole formed
  | switch e arms =>
    exact switch_decorates (fun alike => cases_decorates _ arms alike formed) whole formed
  | loop e body => exact loop_decorates (block_decorates body) whole formed
  | «return» value => exact return_decorates whole formed

theorem block_decorates {c : Context} {ts : List Stmt} (ss : List Stmt)
    (alike : Stmt.eraseAll ts = Stmt.eraseAll ss) (formed : c.Formed) : BlockDecorates c ss ts := by
  cases ss with
  | nil =>
    obtain rfl := eraseBlock_nil alike
    exact decorates_pure rfl
  | cons s ss =>
    obtain ⟨t, ts, rfl, alikeFirst, alikeAll⟩ := eraseBlock_cons alike
    have first := stmt_decorates s alikeFirst formed
    refine decorates_bind (decorates_within first fun t shape => ?_) fun s' d typed shape => ?_
    · simp only [Stmt.eraseAll, shape]
    have rest := block_decorates ss alikeAll (Typing.stmt_sound t formed typed).later.formed
    refine decorates_bind (decorates_within rest fun ts shapes => ?_) fun ss' _ _ shapes => ?_
    · simp only [Stmt.eraseAll, shape, shapes]
    · exact decorates_pure (by simp only [Stmt.eraseAll, shape, shapes])

theorem cases_decorates {c : Context} {ds : List Case} (ty : Ty) (cs : List Case)
    (alike : Case.eraseAll ds = Case.eraseAll cs) (formed : c.Formed) :
    CasesDecorates c ty cs ds := by
  match cs with
  | [] =>
    obtain rfl := eraseArms_nil alike
    exact decorates_pure rfl
  | .arm value body :: others =>
    obtain ⟨given, ss, ds, rfl, alikeValue, alikeBody, alikeAll⟩ := eraseArms_cons alike
    unfold CasesDecorates cases Typing.cases
    rw [misplaced_alike alikeValue alikeAll]
    refine decorates_ite (fun _ => decorates_refused rfl) fun _ => ?_
    have formed₁ := Context.formed_entered formed
    have first := caseValue_decorates ty alikeValue formed₁
    have second := block_decorates body alikeBody formed₁
    have arm : Decorates (fun r => r.erase = (Case.arm value body).erase)
        (fun r => r.erase = (Case.arm value body).erase) c.entered
        (do
          let value ← within (Case.arm · body) (caseValue ty value)
          let body ← within (Case.arm value ·) (block body)
          pure (Case.arm value body))
        (do
          let value ← Typing.caseValue ty given
          let body ← Typing.block ss
          pure (Case.arm value body)) := by
      refine decorates_bind (decorates_within first fun v shape => ?_) fun v d typed shape => ?_
      · simp only [Case.erase, shape]
      obtain rfl := caseValue_same formed₁ typed
      refine decorates_bind (decorates_within second fun ss shapes => ?_) fun ss _ _ shapes => ?_
      · simp only [Case.erase, shape, shapes]
      · exact decorates_pure (by simp only [Case.erase, shape, shapes])
    refine decorates_bind (decorates_within (decorates_inChild arm) fun r shape => ?_)
      fun r d typed shape => ?_
    · simp only [Case.eraseAll, shape]
    obtain ⟨_, inner, -, -, leave⟩ := Typing.inChild_sound formed typed
    simp only [Typing.bind_ok] at inner
    obtain ⟨_, _, valued, _, _, inner, done⟩ := inner
    obtain rfl := caseValue_same formed₁ valued
    obtain ⟨-, rfl⟩ := Typing.pure_ok.mp done
    obtain ⟨-, -, -, later⟩ := Typing.block_sound ss formed₁ inner
    have rest := cases_decorates ty others alikeAll (leave later).1.formed
    refine decorates_bind (decorates_within rest fun rs shapes => ?_) fun rs _ _ shapes => ?_
    · simp only [Case.eraseAll, shape, shapes]
    · exact decorates_pure (by simp only [Case.eraseAll, shape, shapes])

end

/-- Members of a list are decorated one after the other. -/
theorem each_decorates {act : σ → InPlace σ σ} {plain : σ → Typing σ} {erase : σ → σ}
    (member : ∀ {c : Context} {a b}, erase b = erase a → c.Formed →
      Decorates (fun t => erase t = erase a) (fun t => erase t = erase a) c (act a) (plain b))
    (stays : ∀ {c d : Context} {b b'}, c.Formed → plain b c = .ok b' d → d.Formed)
    (as : List σ) {bs : List σ} (alike : bs.map erase = as.map erase) (formed : c.Formed) :
    Decorates (fun ts => ts.map erase = as.map erase) (fun ts => ts.map erase = as.map erase) c
      (each act as) (bs.mapM plain) := by
  induction as generalizing bs c with
  | nil =>
    obtain rfl := List.map_eq_nil_iff.mp alike
    exact decorates_pure rfl
  | cons a as ih =>
    obtain ⟨b, bs, rfl, alikeFirst, alikeAll⟩ := List.map_eq_cons_iff.mp alike
    rw [List.mapM_cons]
    have first := member alikeFirst formed
    refine decorates_bind (decorates_within first fun t shape => ?_) fun a' d typed shape => ?_
    · simp only [List.map_cons, shape]
    have rest := ih alikeAll (stays formed typed)
    refine decorates_bind (decorates_within rest fun ts shapes => ?_) fun as' _ _ shapes => ?_
    · simp only [List.map_cons, shape, shapes]
    · exact decorates_pure (by simp only [List.map_cons, shape, shapes])

theorem global_decorates {g h : Global} (alike : h.erase = g.erase) (formed : c.Formed) :
    Decorates (fun t => t.erase = g.erase) (fun t => t.erase = g.erase) c (global g)
      (Typing.global h) := by
  obtain ⟨_, _, _, _, value, record⟩ := g
  obtain ⟨name, typeName, mutable, list, given, other⟩ := h
  simp only [Global.erase, Global.mk.injEq, and_true] at alike
  obtain ⟨rfl, rfl, rfl, rfl, alike⟩ := alike
  have first := declaredType_decorates name typeName alike formed
  refine decorates_bind (decorates_within first fun t shape => ?_) fun a _ _ shape => ?_
  · simp only [Global.erase, shape]
  refine decorates_bind (decorates_leaving _ ?_) fun _ _ _ _ => decorates_pure ?_
  · simp only [Global.erase, shape]
  · simp only [Global.erase, shape]

theorem global_formed {g g' : Global} {d : Context} (formed : c.Formed)
    (accepted : Typing.global g c = .ok g' d) : d.Formed := by
  simp only [Typing.global, Typing.bind_ok, Typing.pure_ok] at accepted
  obtain ⟨_, _, declared, _, _, defined, -, rfl⟩ := accepted
  obtain ⟨-, -, -, rfl⟩ := Typing.declaredType_sound formed declared
  obtain ⟨-, -, later⟩ := Typing.defineVariable_sound formed defined
  exact later.formed

theorem function_decorates {f g : Function} (alike : g.erase = f.erase) (formed : c.Formed) :
    Decorates (fun t => t.erase = f.erase) (fun t => t.erase = f.erase) c (function f)
      (Typing.function g) := by
  obtain ⟨_, _, _, body, signature⟩ := f
  obtain ⟨name, ps, result, ss, other⟩ := g
  simp only [Function.erase, Function.mk.injEq, and_true] at alike
  obtain ⟨rfl, rfl, rfl, alike⟩ := alike
  rw [Typing.function_eq]
  refine decorates_bind (decorates_leaving _ rfl) fun types d named _ => ?_
  obtain ⟨-, many, rfl⟩ := Typing.mapM_parameters named
  refine decorates_bind (decorates_leaving _ rfl) fun returns d named _ => ?_
  obtain ⟨-, rfl⟩ := Typing.returnNamed_ok.mp named
  refine decorates_bind (decorates_leaving _ rfl) fun _ d defined _ => ?_
  obtain ⟨-, -, formed⟩ := Typing.defineFunction_sound formed defined
  have within : Decorates (fun ts => Stmt.eraseAll ts = Stmt.eraseAll body)
      (fun ts => Stmt.eraseAll ts = Stmt.eraseAll body) d
      (returning returns <| inChild do
        leaving body (Typing.defineParameters ps types)
        block body)
      (Typing.returning returns <| Typing.inChild do
        Typing.defineParameters ps types
        Typing.block ss) := by
    have formed₁ : Context.Formed { d with returns := some returns } :=
      ⟨formed.inside, formed.founded, formed.keyed⟩
    have formed₂ := Context.formed_entered formed₁
    refine decorates_returning (decorates_inChild ?_)
    refine decorates_bind (decorates_leaving _ rfl) fun _ e bound _ => ?_
    obtain ⟨-, later⟩ := Typing.defineParameters_sound ps types formed₂ many.symm bound
    exact block_decorates body alike later.formed
  refine decorates_bind (decorates_within within fun ts shapes => ?_)
    fun ts _ _ shapes => decorates_pure ?_
  · simp only [Function.erase, shapes]
  · simp only [Function.erase, shapes]

theorem program_decorates {p q : Program} (alike : q.erase = p.erase) (formed : c.Formed) :
    Decorates (fun t => t.erase = p.erase) (fun t => t.erase = p.erase) c (program p)
      (Typing.program q) := by
  obtain ⟨gs, fs⟩ := p
  obtain ⟨hs, es⟩ := q
  simp only [Program.erase, Program.mk.injEq] at alike
  have first := each_decorates global_decorates global_formed gs alike.1 formed
  refine decorates_bind (decorates_within first fun t shape => ?_) fun gs' d typed shapeG => ?_
  · simp only [Program.erase, shape]
  obtain ⟨-, -, -, formed⟩ := Typing.globals_sound hs formed typed
  have second := each_decorates function_decorates
    (fun formed typed => (Typing.function_sound formed typed).choose_spec.2.2.2.2.2) fs alike.2
    formed
  refine decorates_bind (decorates_within second fun t shape => ?_) fun fs' d typed shapeF => ?_
  · simp only [Program.erase, shapeG, shape]
  refine decorates_bind (decorates_leaving _ ?_) fun _ _ _ _ => decorates_pure ?_
  · simp only [Program.erase, shapeG, shapeF]
  · simp only [Program.erase, shapeG, shapeF]

end InPlace

/-- Analysis decides the same of a program and of every other that differs from it in its slots
alone. What it leaves of the one, accepted or not, has the shape of the program; and if it is
accepted, it is what is answered for the other. -/
theorem analyze_alike {p q : Program} (alike : q.erase = p.erase) :
    p.analyze.1.erase = p.erase ∧ q.check = p.analyze.2.map fun _ => p.analyze.1 := by
  have decorates := InPlace.program_decorates alike Context.formed_fresh
  unfold InPlace.Decorates at decorates
  unfold Program.analyze Program.check
  cases ended : InPlace.program p Context.fresh with
  | ok r d =>
    rw [ended] at decorates
    rw [decorates.1]
    exact ⟨decorates.2, rfl⟩
  | error t d =>
    rw [ended] at decorates
    rw [decorates.1]
    exact ⟨decorates.2, rfl⟩

theorem check_alike {p q : Program} (alike : q.erase = p.erase) : q.check = p.check := by
  rw [(analyze_alike alike).2, (analyze_alike (p := p) rfl).2]

theorem analyze_of_check {p q : Program} (accepted : p.check = .ok q) :
    p.analyze = (q, .ok ()) := by
  have left := (analyze_alike (p := p) rfl).2
  rcases known : p.analyze with ⟨r, verdict⟩
  rw [accepted, known] at left
  cases verdict with
  | error e => cases left
  | ok u =>
    cases left
    rfl

/-- Analysis only fills slots, what it says does not depend on what they held before, and where it
has been it finds nothing more to do. -/
theorem analysis_decorates (p : Program) :
    p.analyze.1.erase = p.erase ∧ (p.check = p.analyze.2.map fun _ => p.analyze.1) ∧
      (∀ q : Program, q.erase = p.erase → q.check = p.check) ∧
      ∀ q, p.check = .ok q → q.analyze = (q, .ok ()) := by
  obtain ⟨shape, verdict⟩ := analyze_alike (p := p) rfl
  refine ⟨shape, verdict, fun q alike => check_alike alike, fun q accepted => ?_⟩
  have filled : q.erase = p.erase := by
    rw [← shape, analyze_of_check accepted]
  have again : q.check = .ok q := by
    rw [check_alike filled, accepted]
  exact analyze_of_check again

/-- A variable that is refused after its value has passed. -/
def halfway : Program where
  globals := [⟨"a", none, true, false, some (.literal (.integer 1) none), none⟩,
    ⟨"b", some "String", true, false, some (.access "a" none none), none⟩]
  functions := []

/-- The value of `b` is decorated and `b` is not, and the program has kept its shape. -/
theorem analysis_decorates_halfway :
    halfway.analyze.2 = .error (.notAssignable .string .integer) ∧
      halfway.analyze.1.globals.map (fun g => (g.record.isSome, g.value.bind Expr.ty)) =
        [(true, some .integer), (false, some .integer)] ∧
      halfway.analyze.1.erase = halfway.erase :=
  ⟨by rfl, by decide +kernel, (analysis_decorates halfway).1⟩

end Plc

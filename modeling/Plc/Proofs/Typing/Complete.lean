import Plc.Proofs.Typing.Alike
import Plc.Proofs.Typing.Sound

/-!
What is derivable, analysis accepts. It reads no slots, so it does so for every tree that differs in
its slots only from the one of the derivation; and where the derivation tells of the slots, it
answers the tree of the derivation.
-/

namespace Plc

namespace Typing

variable {α β : Type} {c d : Context}

theorem defineVariable_complete {v : Variable} (free : c.env.own? v.name = none) :
    ∃ d, defineVariable v c = .ok () d := by
  rw [Context.own?_env] at free
  unfold defineVariable Scopes.defineVariable Scopes.variableClash?
  simp only [free, Option.isSome_none, Bool.false_eq_true, if_false]
  exact ⟨_, rfl⟩

theorem defineFunction_complete {s : Signature}
    (free : c.env.ownFunction? s.name s.arity = none) : ∃ d, defineFunction s c = .ok () d := by
  rw [Context.ownFunction?_env] at free
  unfold defineFunction Scopes.defineFunction Scopes.functionClash?
  simp only [free, Option.isSome_none, Bool.false_eq_true, if_false]
  exact ⟨_, rfl⟩

/-- For `f` analysis answers this type, and if the slots of `e` were noted, the tree `e`. -/
def ExprDone (noted : Prop) (c : Context) (f e : Expr) (T : Ty) : Prop :=
  ∃ e', expr f c = .ok (e', T) c ∧ (noted → e' = e)

variable {noted : Prop}

mutual

theorem expr_complete {c : Context} {T : Ty} {f : Expr} (e : Expr) (whole : f.erase = e.erase)
    (typed : HasTy noted c.env e T) : ExprDone noted c f e T := by
  cases e with
  | literal value slot =>
    cases typed with
    | literal range ty =>
      obtain ⟨other, rfl⟩ := erase_literal whole
      refine ⟨.literal value (some value.ty), ?_, fun slots => by rw [ty slots]⟩
      simp only [expr, bind_ok, literal_ok, pure_ok]
      exact ⟨_, _, ⟨range, rfl, rfl⟩, rfl, rfl⟩
  | group inner slot =>
    cases typed with
    | group operator typed ty =>
      obtain ⟨given, other, rfl, alike⟩ := erase_group whole
      obtain ⟨inner', done, same⟩ := expr_complete inner alike typed
      have operator' : given.IsBinary := by
        rw [← isBinary_erase, alike, isBinary_erase]
        exact operator
      refine ⟨.group inner' (some T), ?_, fun slots => by rw [ty slots, same slots]⟩
      simp only [expr, bind_ok, requireBinary_ok, pure_ok]
      exact ⟨(), c, ⟨operator', rfl⟩, _, _, done, rfl, rfl⟩
  | binary op left right slot =>
    cases typed with
    | binary first second result ty =>
      obtain ⟨l, r, other, rfl, alikeL, alikeR⟩ := erase_binary whole
      obtain ⟨left', doneL, sameL⟩ := expr_complete left alikeL first
      obtain ⟨right', doneR, sameR⟩ := expr_complete right alikeR second
      refine ⟨.binary op left' right' (some T), ?_,
        fun slots => by rw [ty slots, sameL slots, sameR slots]⟩
      simp only [expr, bind_ok]
      refine ⟨_, _, doneL, _, _, doneR, ?_⟩
      simp only [result, pure_ok, true_and]
  | access name record slot =>
    cases typed with
    | @access _ v _ _ known recorded ty =>
      obtain ⟨other, others, rfl⟩ := erase_access whole
      refine ⟨.access name (some v) (some v.whole), ?_,
        fun slots => by rw [ty slots, recorded slots]⟩
      simp only [expr, bind_ok, variableNamed_ok, pure_ok]
      exact ⟨v, c, ⟨known, rfl⟩, rfl, rfl⟩
  | element name index record slot =>
    cases typed with
    | @element _ _ v _ _ known list position recorded ty =>
      obtain ⟨given, other, others, rfl, alike⟩ := erase_element whole
      obtain ⟨index', done, same⟩ := expr_complete index alike position
      refine ⟨.element name index' (some v) (some v.ty), ?_,
        fun slots => by rw [ty slots, recorded slots, same slots]⟩
      simp only [expr, bind_ok, variableNamed_ok]
      refine ⟨v, c, ⟨known, rfl⟩, ?_⟩
      simp only [list, Bool.not_true, Bool.false_eq_true, if_false, bind_ok]
      exact ⟨_, _, done, by simp only [ne_eq, not_true, if_false, pure_ok, true_and]⟩
  | call name args signature slot =>
    cases typed with
    | @call _ _ s _ _ known passed sig ty =>
      obtain ⟨given, other, others, rfl, alike⟩ := erase_call whole
      obtain ⟨args', done, same⟩ := arguments_complete s.parameters args alike passed
      refine ⟨.call name args' (some s) (some s.returns), ?_,
        fun slots => by rw [ty slots, sig slots, same slots]⟩
      simp only [expr, bind_ok, functionNamed_ok, pure_ok]
      exact ⟨s, c, ⟨length_of_eraseAll alike ▸ known, rfl⟩, args', c, done, rfl, rfl⟩
  | list elements slot =>
    cases typed with
    | @list first others _ _ head tail ty =>
      obtain ⟨given, other, rfl, alike⟩ := erase_list whole
      obtain ⟨g, gs, rfl, alikeFirst, alikeAll⟩ := eraseAll_cons alike
      obtain ⟨first', done, same⟩ := expr_complete first alikeFirst head
      obtain ⟨others', doneAll, sameAll⟩ := elementsOf_complete T others alikeAll tail
      refine ⟨.list (first' :: others') (some T), ?_,
        fun slots => by rw [ty slots, same slots, sameAll slots]⟩
      simp only [expr, bind_ok, pure_ok]
      exact ⟨_, _, done, _, _, doneAll, rfl, rfl⟩

theorem arguments_complete {c : Context} {fs : List Expr} (types : List Ty) (es : List Expr)
    (alike : Expr.eraseAll fs = Expr.eraseAll es) (passed : ArgumentsOk noted c.env types es) :
    ∃ es', arguments types fs c = .ok es' c ∧ (noted → es' = es) := by
  cases es with
  | nil =>
    obtain rfl := eraseAll_nil alike
    cases passed with
    | nil => exact ⟨[], rfl, fun _ => rfl⟩
  | cons e es =>
    cases passed with
    | @cons expected T types _ _ typed accepts others =>
      obtain ⟨g, gs, rfl, alikeFirst, alikeAll⟩ := eraseAll_cons alike
      obtain ⟨e', done, same⟩ := expr_complete e alikeFirst typed
      obtain ⟨es', doneAll, sameAll⟩ := arguments_complete types es alikeAll others
      refine ⟨e' :: es', ?_, fun slots => by rw [same slots, sameAll slots]⟩
      simp only [arguments, bind_ok, requireAccepts_ok, pure_ok]
      exact ⟨_, _, done, (), c, ⟨accepts, rfl⟩, es', c, doneAll, rfl, rfl⟩

theorem elementsOf_complete {c : Context} {fs : List Expr} (T : Ty) (es : List Expr)
    (alike : Expr.eraseAll fs = Expr.eraseAll es) (all : ElementsOk noted c.env T es) :
    ∃ es', elementsOf T fs c = .ok es' c ∧ (noted → es' = es) := by
  cases es with
  | nil =>
    obtain rfl := eraseAll_nil alike
    exact ⟨[], rfl, fun _ => rfl⟩
  | cons e es =>
    cases all with
    | cons typed others =>
      obtain ⟨g, gs, rfl, alikeFirst, alikeAll⟩ := eraseAll_cons alike
      obtain ⟨e', done, same⟩ := expr_complete e alikeFirst typed
      obtain ⟨es', doneAll, sameAll⟩ := elementsOf_complete T es alikeAll others
      refine ⟨e' :: es', ?_, fun slots => by rw [same slots, sameAll slots]⟩
      simp only [elementsOf, bind_ok]
      refine ⟨_, _, done, ?_⟩
      simp only [ne_eq, not_true, if_false, bind_ok, pure_ok]
      exact ⟨es', c, doneAll, rfl, rfl⟩

end

/-- An initial value that is no empty list is typed as any expression. -/
theorem initializer_value {name : String} {declared : Option Ty} {f e : Expr} {T : Ty}
    (alike : f.erase = e.erase) (typed : HasTy noted c.env e T) :
    initializer name declared f = expr f := by
  unfold initializer
  split
  · cases typed <;> simp [Expr.erase, Expr.eraseAll] at alike
  · rfl

theorem initializer_complete {name : String} {declared : Option Ty} {f e : Expr} {T : Ty}
    (whole : f.erase = e.erase) (initial : InitialOk noted c.env declared e T) :
    ∃ e', initializer name declared f c = .ok (e', T) c ∧ (noted → e' = e) := by
  cases initial with
  | empty noting =>
    obtain ⟨given, slot, rfl, alike⟩ := erase_list whole
    obtain rfl := eraseAll_nil alike
    exact ⟨.list [] (some T), rfl, fun slots => by rw [noting slots]⟩
  | value typed =>
    rw [initializer_value whole typed]
    exact expr_complete e whole typed

theorem declaredType_complete (name : String) {typeName : Option String}
    {given value : Option Expr} {T : Ty} (whole : given.map Expr.erase = value.map Expr.erase)
    (declared : DeclaredOk noted c.env typeName value T) :
    ∃ value', declaredType name typeName given c = .ok (value', T) c ∧
      (noted → value' = value) := by
  cases declared with
  | both known initial accepts =>
    obtain ⟨f, rfl, alike⟩ := Option.map_eq_some_iff.mp whole
    obtain ⟨e', done, same⟩ := initializer_complete alike initial
    refine ⟨some e', ?_, fun slots => by rw [same slots]⟩
    simp only [declaredType, bind_ok, mapM_typeNamed_some]
    refine ⟨_, c, ⟨T, known, rfl, rfl⟩, _, _, done, ?_⟩
    simp only [bind_ok, requireAccepts_ok, pure_ok]
    exact ⟨(), c, ⟨accepts, rfl⟩, trivial, rfl⟩
  | typeOnly known =>
    obtain rfl := Option.map_eq_none_iff.mp whole
    refine ⟨none, ?_, fun _ => rfl⟩
    simp only [declaredType, bind_ok, mapM_typeNamed_some]
    exact ⟨_, c, ⟨T, known, rfl, rfl⟩, rfl⟩
  | valueOnly initial =>
    obtain ⟨f, rfl, alike⟩ := Option.map_eq_some_iff.mp whole
    obtain ⟨e', done, same⟩ := initializer_complete alike initial
    refine ⟨some e', ?_, fun slots => by rw [same slots]⟩
    simp only [declaredType, Option.mapM_none, pure_bind, bind_ok, pure_ok]
    exact ⟨_, _, done, rfl, rfl⟩

theorem condition_complete (statement : Conditional) {f e : Expr} (alike : f.erase = e.erase)
    (typed : HasTy noted c.env e .boolean) :
    ∃ e', condition statement f c = .ok e' c ∧ (noted → e' = e) := by
  obtain ⟨e', done, same⟩ := expr_complete e alike typed
  refine ⟨e', ?_, same⟩
  simp only [condition, bind_ok]
  exact ⟨_, _, done, by simp only [ne_eq, not_true, if_false, pure_ok, true_and]⟩

/-- Analysis of `f` leads to this environment, and if the slots of `s` were noted, it gives `s`. -/
def StmtDone (noted : Prop) (c : Context) (f s : Stmt) (Δ : Env) : Prop :=
  ∃ s' d, stmt f c = .ok s' d ∧ d.env = Δ ∧ (noted → s' = s)

/-- A block by itself leaves everything as it was. -/
theorem inChild_complete {act : Typing α} {a : α} {e : Context} (formed : c.Formed)
    (done : act c.entered = .ok a e) (later : c.entered.Later e) :
    ∃ d, inChild act c = .ok a d ∧ d.env = c.env ∧ d.Formed := by
  have leave := Context.later_of_entered formed later
  exact ⟨_, inChild_ok.mpr ⟨e, done, rfl⟩, leave.2, leave.1.formed⟩

theorem call_complete {f : Stmt} {e : Expr} {Δ : Env} (whole : f.erase = (Stmt.expression e).erase)
    (derived : StmtOk noted c.env (.expression e) Δ) : StmtDone noted c f (.expression e) Δ := by
  cases derived with
  | call typed =>
    obtain ⟨g, rfl, alike⟩ := erase_expression whole
    obtain ⟨e', done, same⟩ := expr_complete _ alike typed
    obtain ⟨args, sig, slot, rfl, -⟩ := erase_call alike
    refine ⟨.expression e', c, ?_, rfl, fun slots => by rw [same slots]⟩
    simp only [stmt, bind_ok, pure_ok]
    exact ⟨_, _, done, rfl, rfl⟩

theorem declaration_complete {f : Stmt} {name : String} {typeName : Option String}
    {value : Option Expr} {record : Option Variable} {Δ : Env} (formed : c.Formed)
    (whole : f.erase = (Stmt.declaration name typeName value record).erase)
    (derived : StmtOk noted c.env (.declaration name typeName value record) Δ) :
    StmtDone noted c f (.declaration name typeName value record) Δ := by
  cases derived with
  | @declaration _ _ _ _ _ T declared free noting =>
    obtain ⟨given, other, rfl, alike⟩ := erase_declaration whole
    obtain ⟨value', done, same⟩ := declaredType_complete _ alike declared
    obtain ⟨d, defined⟩ := defineVariable_complete (v := .single name T true) free
    have env := (defineVariable_sound formed defined).2.1
    refine ⟨.declaration name typeName value' (some (.single name T true)), d, ?_, env,
      fun slots => by rw [noting slots, same slots]⟩
    simp only [stmt, bind_ok, pure_ok]
    exact ⟨_, _, done, (), d, defined, rfl, rfl⟩

theorem assignment_complete {f : Stmt} {receiver value : Expr} {Δ : Env}
    (whole : f.erase = (Stmt.assignment receiver value).erase)
    (derived : StmtOk noted c.env (.assignment receiver value) Δ) :
    StmtDone noted c f (.assignment receiver value) Δ := by
  cases derived with
  | @assignment _ name _ _ _ v T typed known single accepts noting ty =>
    obtain ⟨target, given, rfl, alikeR, alike⟩ := erase_assignment whole
    obtain ⟨other, others, rfl⟩ := erase_access alikeR
    obtain ⟨value', done, same⟩ := expr_complete value alike typed
    refine ⟨.assignment (.access name (some v) (some v.ty)) value', c, ?_, rfl,
      fun slots => by rw [noting slots, ty slots, same slots]⟩
    simp only [stmt, assignment, bind_ok, variableNamed_ok]
    refine ⟨_, _, done, v, c, ⟨known, rfl⟩, ?_⟩
    simp only [single, Bool.false_eq_true, if_false, bind_ok, requireAccepts_ok, pure_ok]
    exact ⟨(), c, ⟨accepts, rfl⟩, trivial, rfl⟩
  | store typed target accepts =>
    obtain ⟨g, given, rfl, alikeR, alike⟩ := erase_assignment whole
    obtain ⟨value', done, same⟩ := expr_complete value alike typed
    obtain ⟨receiver', doneR, sameR⟩ := expr_complete _ alikeR target
    obtain ⟨index, other, others, rfl, -⟩ := erase_element alikeR
    refine ⟨.assignment receiver' value', c, ?_, rfl,
      fun slots => by rw [same slots, sameR slots]⟩
    simp only [stmt, assignment, bind_ok, requireAccepts_ok, pure_ok]
    exact ⟨_, _, done, _, _, doneR, (), c, ⟨accepts, rfl⟩, rfl, rfl⟩

theorem return_complete {f : Stmt} {value : Expr} {Δ : Env}
    (whole : f.erase = (Stmt.return value).erase) (derived : StmtOk noted c.env (.return value) Δ) :
    StmtDone noted c f (.return value) Δ := by
  cases derived with
  | @«return» _ _ expected T inside typed accepts =>
    obtain ⟨g, rfl, alike⟩ := erase_return whole
    obtain ⟨value', done, same⟩ := expr_complete value alike typed
    refine ⟨.return value', c, ?_, rfl, fun slots => by rw [same slots]⟩
    have returns : c.returns = some expected := inside
    simp only [stmt, bind_ok, get_ok]
    refine ⟨c, c, ⟨rfl, rfl⟩, ?_⟩
    simp only [returns, bind_ok, requireAccepts_ok, pure_ok]
    exact ⟨_, _, done, (), c, ⟨accepts, rfl⟩, rfl, rfl⟩

def BlockDone (noted : Prop) (c : Context) (fs ss : List Stmt) : Prop :=
  ∃ ss' d, block fs c = .ok ss' d ∧ c.Later d ∧ (noted → ss' = ss)

theorem child_complete {fs ss : List Stmt}
    (complete : ∀ {c}, c.Formed → BlockOk noted c.env ss → BlockDone noted c fs ss)
    (formed : c.Formed) (derived : BlockOk noted c.env.child ss) :
    ∃ ss' d, inChild (block fs) c = .ok ss' d ∧ d.env = c.env ∧ d.Formed ∧ (noted → ss' = ss) := by
  rw [← Context.env_entered formed] at derived
  obtain ⟨ss', e, inner, later, same⟩ := complete (Context.formed_entered formed) derived
  obtain ⟨d, entered, env, formed'⟩ := inChild_complete formed inner later
  exact ⟨ss', d, entered, env, formed', same⟩

theorem conditional_complete {f : Stmt} {e : Expr} {whenTrue whenFalse : List Stmt} {Δ : Env}
    (yes : ∀ {c fs}, Stmt.eraseAll fs = Stmt.eraseAll whenTrue → c.Formed →
      BlockOk noted c.env whenTrue → BlockDone noted c fs whenTrue)
    (no : ∀ {c fs}, Stmt.eraseAll fs = Stmt.eraseAll whenFalse → c.Formed →
      BlockOk noted c.env whenFalse → BlockDone noted c fs whenFalse)
    (formed : c.Formed) (whole : f.erase = (Stmt.conditional e whenTrue whenFalse).erase)
    (derived : StmtOk noted c.env (.conditional e whenTrue whenFalse) Δ) :
    StmtDone noted c f (.conditional e whenTrue whenFalse) Δ := by
  cases derived with
  | conditional condition body first second =>
    obtain ⟨g, gs, hs, rfl, alike, alikeT, alikeF⟩ := erase_conditional whole
    obtain ⟨e', done, same⟩ := condition_complete .if alike condition
    obtain ⟨ss, d, entered, env, formed', sameT⟩ := child_complete (yes alikeT) formed first
    rw [← env] at second
    obtain ⟨ts, d', entered', env', -, sameF⟩ := child_complete (no alikeF) formed' second
    have some : gs.isEmpty = false := by
      rw [List.isEmpty_eq_false_iff]
      rintro rfl
      exact body (eraseBlock_nil alikeT.symm)
    cases whenFalse with
    | nil =>
      obtain rfl := eraseBlock_nil alikeF
      refine ⟨.conditional e' ss [], d, ?_, env, fun slots => by rw [same slots, sameT slots]⟩
      simp only [stmt, bind_ok]
      refine ⟨_, _, done, ?_⟩
      simp only [some, Bool.false_eq_true, if_false, bind_ok]
      refine ⟨ss, d, entered, ?_⟩
      simp only [List.isEmpty_nil, if_true, pure_bind, pure_ok, true_and]
    | cons t others =>
      obtain ⟨h, hs, rfl, -⟩ := eraseBlock_cons alikeF
      refine ⟨.conditional e' ss ts, d', ?_, env'.trans env,
        fun slots => by rw [same slots, sameT slots, sameF slots]⟩
      simp only [stmt, bind_ok]
      refine ⟨_, _, done, ?_⟩
      simp only [some, Bool.false_eq_true, if_false, bind_ok]
      refine ⟨ss, d, entered, ?_⟩
      simp only [List.isEmpty_cons, Bool.false_eq_true, if_false, bind_ok, pure_ok]
      exact ⟨ts, d', entered', rfl, rfl⟩

theorem loop_complete {f : Stmt} {e : Expr} {body : List Stmt} {Δ : Env}
    (complete : ∀ {c fs}, Stmt.eraseAll fs = Stmt.eraseAll body → c.Formed →
      BlockOk noted c.env body → BlockDone noted c fs body)
    (formed : c.Formed) (whole : f.erase = (Stmt.loop e body).erase)
    (derived : StmtOk noted c.env (.loop e body) Δ) : StmtDone noted c f (.loop e body) Δ := by
  cases derived with
  | loop condition inner =>
    obtain ⟨g, gs, rfl, alike, alikeB⟩ := erase_loop whole
    obtain ⟨e', done, same⟩ := condition_complete .while alike condition
    obtain ⟨body', d, entered, env, -, sameB⟩ := child_complete (complete alikeB) formed inner
    refine ⟨.loop e' body', d, ?_, env, fun slots => by rw [same slots, sameB slots]⟩
    simp only [stmt, bind_ok, pure_ok]
    exact ⟨_, _, done, body', d, entered, rfl, rfl⟩

theorem switch_complete {f : Stmt} {e : Expr} {arms : List Case} {Δ : Env}
    (complete : ∀ {T fs}, Case.eraseAll fs = Case.eraseAll arms → CasesOk noted c.env T arms →
      ∃ arms' d, cases T fs c = .ok arms' d ∧ d.env = c.env ∧ (noted → arms' = arms))
    (whole : f.erase = (Stmt.switch e arms).erase)
    (derived : StmtOk noted c.env (.switch e arms) Δ) : StmtDone noted c f (.switch e arms) Δ := by
  cases derived with
  | @switch _ _ _ T condition all =>
    obtain ⟨g, gs, rfl, alike, alikeAll⟩ := erase_switch whole
    obtain ⟨e', done, same⟩ := expr_complete e alike condition
    obtain ⟨arms', d, doneAll, env, sameAll⟩ := complete alikeAll all
    refine ⟨.switch e' arms', d, ?_, env, fun slots => by rw [same slots, sameAll slots]⟩
    simp only [stmt, bind_ok, pure_ok]
    exact ⟨_, _, done, arms', d, doneAll, rfl, rfl⟩

mutual

theorem stmt_complete {c : Context} {Δ : Env} {f : Stmt} (s : Stmt) (whole : f.erase = s.erase)
    (formed : c.Formed) (derived : StmtOk noted c.env s Δ) : StmtDone noted c f s Δ := by
  cases s with
  | expression e => exact call_complete whole derived
  | declaration name typeName value record => exact declaration_complete formed whole derived
  | assignment receiver value => exact assignment_complete whole derived
  | conditional e whenTrue whenFalse =>
    exact conditional_complete (block_complete whenTrue) (block_complete whenFalse) formed whole
      derived
  | switch e arms =>
    exact switch_complete (fun alike => cases_complete _ arms alike formed) whole derived
  | loop e body => exact loop_complete (block_complete body) formed whole derived
  | «return» value => exact return_complete whole derived

theorem block_complete {c : Context} {fs : List Stmt} (ss : List Stmt)
    (alike : Stmt.eraseAll fs = Stmt.eraseAll ss) (formed : c.Formed)
    (derived : BlockOk noted c.env ss) : BlockDone noted c fs ss := by
  cases ss with
  | nil =>
    obtain rfl := eraseBlock_nil alike
    exact ⟨[], c, rfl, Context.later_refl formed, fun _ => rfl⟩
  | cons s ss =>
    cases derived with
    | cons first others =>
      obtain ⟨g, gs, rfl, alikeFirst, alikeAll⟩ := eraseBlock_cons alike
      obtain ⟨s', d, done, rfl, same⟩ := stmt_complete s alikeFirst formed first
      have later := (stmt_sound g formed done).later
      obtain ⟨ss', e, doneAll, laterAll, sameAll⟩ := block_complete ss alikeAll later.formed others
      refine ⟨s' :: ss', e, ?_, Context.later_trans later laterAll,
        fun slots => by rw [same slots, sameAll slots]⟩
      simp only [block, bind_ok, pure_ok]
      exact ⟨s', d, done, ss', e, doneAll, rfl, rfl⟩

theorem cases_complete {c : Context} {fs : List Case} (T : Ty) (arms : List Case)
    (whole : Case.eraseAll fs = Case.eraseAll arms) (formed : c.Formed)
    (derived : CasesOk noted c.env T arms) :
    ∃ arms' d, cases T fs c = .ok arms' d ∧ d.env = c.env ∧ (noted → arms' = arms) := by
  match arms with
  | [] =>
    obtain rfl := eraseArms_nil whole
    exact ⟨[], c, rfl, rfl, fun _ => rfl⟩
  | .arm none body :: others =>
    cases derived with
    | default inner =>
      obtain ⟨key, gs, rest, rfl, keys, alike, alikeAll⟩ := eraseArms_cons whole
      obtain rfl := Option.map_eq_none_iff.mp keys
      obtain rfl := eraseArms_nil alikeAll
      rw [← Context.env_entered formed] at inner
      obtain ⟨body', e, inner, later, same⟩ :=
        block_complete body alike (Context.formed_entered formed) inner
      have arm : (do
          let value ← caseValue T none
          let body ← block gs
          pure (Case.arm value body)) c.entered = .ok (Case.arm none body') e := by
        simp only [caseValue, pure_bind, bind_ok, pure_ok]
        exact ⟨body', e, inner, rfl, rfl⟩
      obtain ⟨d, entered, env, -⟩ := inChild_complete formed arm later
      refine ⟨[.arm none body'], d, ?_, env, fun slots => by rw [same slots]⟩
      simp only [cases, Option.isNone_none, List.isEmpty_nil, Bool.not_true, Bool.and_false,
        Bool.false_eq_true, if_false, bind_ok, pure_ok]
      exact ⟨_, d, entered, [], d, ⟨rfl, rfl⟩, rfl, rfl⟩
  | .arm (some e) body :: others =>
    cases derived with
    | arm value inner rest =>
      obtain ⟨key, gs, hs, rfl, keys, alike, alikeAll⟩ := eraseArms_cons whole
      obtain ⟨g, rfl, alikeKey⟩ := Option.map_eq_some_iff.mp keys
      rw [← Context.env_entered formed] at value inner
      obtain ⟨e', done, sameE⟩ := expr_complete e alikeKey value
      obtain ⟨body', e₁, inner, later, same⟩ :=
        block_complete body alike (Context.formed_entered formed) inner
      have arm : (do
          let value ← caseValue T (some g)
          let body ← block gs
          pure (Case.arm value body)) c.entered = .ok (Case.arm (some e') body') e₁ := by
        have key : caseValue T (some g) c.entered = .ok (some e') c.entered := by
          simp only [caseValue, bind_ok]
          exact ⟨_, _, done, by simp only [ne_eq, not_true, if_false, pure_ok, true_and]⟩
        simp only [bind_ok, pure_ok]
        exact ⟨_, _, key, body', e₁, inner, rfl, rfl⟩
      obtain ⟨d, entered, env, formed'⟩ := inChild_complete formed arm later
      rw [← env] at rest
      obtain ⟨others', d', doneAll, env', sameAll⟩ := cases_complete T others alikeAll formed' rest
      refine ⟨.arm (some e') body' :: others', d', ?_, env'.trans env,
        fun slots => by rw [sameE slots, same slots, sameAll slots]⟩
      simp only [cases, Option.isNone_some, Bool.false_and, Bool.false_eq_true, if_false, bind_ok,
        pure_ok]
      exact ⟨_, d, entered, others', d', doneAll, rfl, rfl⟩

end

theorem parameters_complete {ps : List Parameter} {types : List Ty}
    (known : ps.mapM (fun p => Ty.ofName? p.typeName) = some types) :
    ps.mapM (fun p => typeNamed p.typeName) c = .ok types c := by
  induction ps generalizing types with
  | nil =>
    cases known
    rfl
  | cons p ps ih =>
    simp only [List.mapM_cons, Option.bind_eq_bind, Option.bind_eq_some_iff] at known
    obtain ⟨ty, first, others, rest, same⟩ := known
    cases same
    simp only [List.mapM_cons, bind_ok, typeNamed_ok, pure_ok]
    exact ⟨ty, c, ⟨first, rfl⟩, others, c, ih rest, rfl, rfl⟩

theorem global_complete {h g : Global} {T : Ty} (whole : h.erase = g.erase) (formed : c.Formed)
    (declared : DeclaredOk noted c.env g.typeName g.value T) (free : c.env.own? g.name = none)
    (noting : Slot noted g.record (g.variable T)) :
    ∃ g' d, global h c = .ok g' d ∧ d.env = c.env.bind (g.variable T) ∧ d.Formed ∧
      (noted → g' = g) := by
  obtain ⟨_, _, _, _, given, other⟩ := h
  simp only [Global.erase, Global.mk.injEq, and_true] at whole
  obtain ⟨rfl, rfl, rfl, rfl, alike⟩ := whole
  obtain ⟨value', done, same⟩ := declaredType_complete g.name alike declared
  rw [← Global.variable_name g T] at free
  obtain ⟨d, defined⟩ := defineVariable_complete free
  obtain ⟨-, env, later⟩ := defineVariable_sound formed defined
  refine ⟨{ g with value := value', record := some (g.variable T) }, d, ?_, env, later.formed,
    fun slots => by rw [← noting slots, same slots]⟩
  simp only [global, bind_ok, pure_ok]
  exact ⟨_, _, done, (), d, defined, rfl, rfl⟩

theorem globals_complete {c : Context} {Δ : Env} {hs gs : List Global}
    (whole : hs.map Global.erase = gs.map Global.erase) (formed : c.Formed)
    (derived : GlobalsOk noted c.env gs Δ) :
    ∃ gs' d, hs.mapM global c = .ok gs' d ∧ d.env = Δ ∧ d.Formed ∧ (noted → gs' = gs) := by
  induction gs generalizing c hs with
  | nil =>
    obtain rfl := List.map_eq_nil_iff.mp whole
    cases derived with
    | nil => exact ⟨[], c, rfl, rfl, formed, fun _ => rfl⟩
  | cons g gs ih =>
    cases derived with
    | cons declared free noting others =>
      obtain ⟨h, hs, rfl, alike, alikeAll⟩ := List.map_eq_cons_iff.mp whole
      obtain ⟨g', d, done, env, formed', same⟩ := global_complete alike formed declared free noting
      rw [← env] at others
      obtain ⟨gs', e, doneAll, envAll, formedAll, sameAll⟩ := ih alikeAll formed' others
      refine ⟨g' :: gs', e, ?_, envAll, formedAll, fun slots => by rw [same slots, sameAll slots]⟩
      simp only [List.mapM_cons, bind_ok, pure_ok]
      exact ⟨g', d, done, gs', e, doneAll, rfl, rfl⟩

theorem defineParameters_complete {c : Context} {Δ : Env} {ps : List Parameter} {types : List Ty}
    (formed : c.Formed) (derived : ParametersOk c.env ps types Δ) :
    ∃ d, defineParameters ps types c = .ok () d ∧ d.env = Δ ∧ c.Later d := by
  induction ps generalizing c types with
  | nil =>
    cases derived with
    | nil => exact ⟨c, rfl, rfl, Context.later_refl formed⟩
  | cons p ps ih =>
    cases derived with
    | @cons _ _ _ _ ty types free others =>
      obtain ⟨d, defined⟩ := defineVariable_complete (v := .single p.name ty true) free
      obtain ⟨-, env, later⟩ := defineVariable_sound formed defined
      rw [← env] at others
      obtain ⟨e, rest, envAll, laterAll⟩ := ih later.formed others
      refine ⟨e, ?_, envAll, Context.later_trans later laterAll⟩
      simp only [defineParameters, bind_ok]
      exact ⟨(), d, defined, rest⟩

theorem body_complete {s : Signature} {ps : List Parameter} {fs ss : List Stmt} {Δ : Env}
    (alike : Stmt.eraseAll fs = Stmt.eraseAll ss) (formed : c.Formed)
    (bound : ParametersOk (c.env.returning s.returns).child ps s.parameters Δ)
    (derived : BlockOk noted Δ ss) :
    ∃ ss' d, (returning s.returns <| inChild do
      defineParameters ps s.parameters
      block fs) c = .ok ss' d ∧ (noted → ss' = ss) := by
  have formed' : Context.Formed { c with returns := some s.returns } :=
    ⟨formed.inside, formed.founded, formed.keyed⟩
  have env : (Context.entered { c with returns := some s.returns }).env =
      (c.env.returning s.returns).child := Context.env_entered formed'
  rw [← env] at bound
  obtain ⟨d, defined, rfl, later⟩ :=
    defineParameters_complete (Context.formed_entered formed') bound
  obtain ⟨ss', e, done, laterAll, same⟩ := block_complete ss alike later.formed derived
  have inner : (do
      defineParameters ps s.parameters
      block fs) (Context.entered { c with returns := some s.returns }) = .ok ss' e :=
    bind_ok.mpr ⟨(), d, defined, done⟩
  obtain ⟨f, entered, -, -⟩ :=
    inChild_complete formed' inner (Context.later_trans later laterAll)
  exact ⟨ss', _, returning_ok.mpr ⟨f, entered, rfl⟩, same⟩

theorem function_complete {g f : Function} {s : Signature} (whole : g.erase = f.erase)
    (formed : c.Formed) (free : c.env.ownFunction? s.name s.arity = none)
    (derived : BodyOk noted (c.env.bindFunction s) f s) :
    ∃ f' d, function g c = .ok f' d ∧ d.env = c.env.bindFunction s ∧ d.Formed ∧
      (noted → f' = f) := by
  obtain ⟨named, types, returns, noting, Δ, bound, body⟩ := derived
  obtain ⟨_, _, _, given, other⟩ := g
  simp only [Function.erase, Function.mk.injEq, and_true] at whole
  obtain ⟨rfl, rfl, rfl, alike⟩ := whole
  obtain ⟨d, defined⟩ := defineFunction_complete free
  obtain ⟨-, env, formed'⟩ := defineFunction_sound formed defined
  rw [← env] at bound
  obtain ⟨body', e, done, same⟩ := body_complete alike formed' bound body
  have resolved := parameters_complete (c := c) types
  obtain ⟨-, length, -⟩ := mapM_parameters resolved
  obtain ⟨-, -, -, -, -, sameEnv, formed''⟩ := body_sound formed' length.symm done
  obtain ⟨_, parameters, result⟩ := s
  obtain rfl := named
  refine ⟨{ f with body := body', signature := some ⟨f.name, parameters, result⟩ }, e, ?_,
    sameEnv.trans env, formed'', fun slots => by rw [same slots, ← noting slots]⟩
  simp only [function_eq, bind_ok, returnNamed_ok, pure_ok]
  exact ⟨_, c, resolved, _, c, ⟨returns, rfl⟩, (), d, defined, body', e, done, rfl, rfl⟩

theorem functions_complete {c : Context} {Δ : Env} {gs fs : List Function}
    (whole : gs.map Function.erase = fs.map Function.erase) (formed : c.Formed)
    (derived : FunctionsOk noted c.env fs Δ) :
    ∃ fs' d, gs.mapM function c = .ok fs' d ∧ d.env = Δ ∧ (noted → fs' = fs) := by
  induction fs generalizing c gs with
  | nil =>
    obtain rfl := List.map_eq_nil_iff.mp whole
    cases derived with
    | nil => exact ⟨[], c, rfl, rfl, fun _ => rfl⟩
  | cons f fs ih =>
    cases derived with
    | cons free body others =>
      obtain ⟨g, gs, rfl, alike, alikeAll⟩ := List.map_eq_cons_iff.mp whole
      obtain ⟨f', d, done, env, formed', same⟩ := function_complete alike formed free body
      rw [← env] at others
      obtain ⟨fs', e, doneAll, envAll, sameAll⟩ := ih alikeAll formed' others
      refine ⟨f' :: fs', e, ?_, envAll, fun slots => by rw [same slots, sameAll slots]⟩
      simp only [List.mapM_cons, bind_ok, pure_ok]
      exact ⟨f', d, done, fs', e, doneAll, rfl, rfl⟩

theorem program_complete {r p : Program} {Δ : Env} (whole : r.erase = p.erase) (formed : c.Formed)
    (derived : ProgramOk noted c.env p Δ) :
    ∃ q d, program r c = .ok q d ∧ (noted → q = p) := by
  simp only [Program.erase, Program.mk.injEq] at whole
  obtain ⟨⟨Θ, globals, functions⟩, s, known, -, integer⟩ := derived
  obtain ⟨gs, d, doneG, rfl, formed', sameG⟩ := globals_complete whole.1 formed globals
  obtain ⟨fs, e, doneF, rfl, sameF⟩ := functions_complete whole.2 formed' functions
  refine ⟨⟨gs, fs⟩, e, ?_, fun slots => by rw [sameG slots, sameF slots]⟩
  have main : requireMain e = .ok () e := by
    rw [Context.findFunction?_env] at known
    simp only [requireMain, bind_ok, get_ok]
    exact ⟨e, e, ⟨rfl, rfl⟩, by simp only [known, integer, if_true, pure_ok, true_and]⟩
  simp only [program, bind_ok, pure_ok]
  exact ⟨gs, d, doneG, fs, e, doneF, (), e, main, rfl, rfl⟩

end Typing

end Plc

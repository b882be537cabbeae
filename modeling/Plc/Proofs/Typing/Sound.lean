import Plc.Program.Erase
import Plc.Proofs.Typing.Environment

/-!
What analysis accepts is derivable, in the environment that its scopes amount to. The tree that it
answers is the tree it was given with the slots filled as the judgement says, and the scopes that
there were before are left as they were, but for the definitions made in the current one.
-/

namespace Plc

namespace Typing

variable {α β : Type} {c d : Context}

theorem isBinary_erase (e : Expr) : e.erase.IsBinary ↔ e.IsBinary := by
  cases e <;> simp [Expr.erase, Expr.IsBinary]

/-- The answer has this type with its slots noted, and so has what it was made of without. -/
structure ExprSound (c : Context) (e e' : Expr) (T : Ty) : Prop where
  noted : HasTy True c.env e' T
  plain : HasTy False c.env e T
  erase : e'.erase = e.erase

mutual

theorem expr_sound {c d : Context} {e e' : Expr} {T : Ty} (formed : c.Formed)
    (accepted : expr e c = .ok (e', T) d) :
    ExprSound c e e' T ∧ c = d := by
  cases e with
  | literal value slot =>
    simp only [expr, bind_ok, literal_ok, pure_ok, Prod.mk.injEq] at accepted
    obtain ⟨_, _, ⟨range, rfl, rfl⟩, ⟨rfl, rfl⟩, rfl⟩ := accepted
    exact ⟨⟨.literal range fun _ => rfl, .literal range nofun, rfl⟩, rfl⟩
  | group inner slot =>
    simp only [expr, bind_ok, requireBinary_ok, pure_ok, Prod.mk.injEq] at accepted
    obtain ⟨_, _, ⟨binary, rfl⟩, ⟨inner', S⟩, _, typed, ⟨rfl, rfl⟩, rfl⟩ := accepted
    obtain ⟨sound, rfl⟩ := expr_sound formed typed
    -- filling slots changes no shape
    have binary' : inner'.IsBinary := by
      rw [← isBinary_erase, sound.erase, isBinary_erase]
      exact binary
    exact ⟨⟨.group binary' sound.noted fun _ => rfl, .group binary sound.plain nofun,
      by simp only [Expr.erase, sound.erase]⟩, rfl⟩
  | binary op left right slot =>
    simp only [expr, bind_ok] at accepted
    obtain ⟨⟨left', L⟩, _, first, ⟨right', R⟩, _, second, result⟩ := accepted
    obtain ⟨soundL, rfl⟩ := expr_sound formed first
    obtain ⟨soundR, rfl⟩ := expr_sound formed second
    cases known : op.resultType? L R with
    | none => simp [known, throw_ok] at result
    | some S =>
      simp only [known, pure_ok, Prod.mk.injEq] at result
      obtain ⟨⟨rfl, rfl⟩, rfl⟩ := result
      exact ⟨⟨.binary soundL.noted soundR.noted known fun _ => rfl,
        .binary soundL.plain soundR.plain known nofun,
        by simp only [Expr.erase, soundL.erase, soundR.erase]⟩, rfl⟩
  | access name record slot =>
    simp only [expr, bind_ok, variableNamed_ok, pure_ok, Prod.mk.injEq] at accepted
    obtain ⟨v, _, ⟨known, rfl⟩, ⟨rfl, rfl⟩, rfl⟩ := accepted
    exact ⟨⟨.access known (fun _ => rfl) fun _ => rfl, .access known nofun nofun, rfl⟩, rfl⟩
  | element name index record slot =>
    simp only [expr, bind_ok, variableNamed_ok] at accepted
    obtain ⟨v, _, ⟨known, rfl⟩, rest⟩ := accepted
    cases list : v.list with
    | false => simp [list, bind_ok, throw_ok] at rest
    | true =>
      simp only [list, Bool.not_true, Bool.false_eq_true, if_false, bind_ok] at rest
      obtain ⟨⟨index', S⟩, _, typed, rest⟩ := rest
      obtain ⟨sound, rfl⟩ := expr_sound formed typed
      by_cases integer : S = .integer
      · subst integer
        simp only [ne_eq, not_true, if_false, pure_ok, Prod.mk.injEq] at rest
        obtain ⟨⟨rfl, rfl⟩, rfl⟩ := rest
        exact ⟨⟨.element known list sound.noted (fun _ => rfl) fun _ => rfl,
          .element known list sound.plain nofun nofun, by simp only [Expr.erase, sound.erase]⟩, rfl⟩
      · simp only [ne_eq, integer, not_false_eq_true, if_true, bind_ok, throw_ok, false_and,
          exists_false] at rest
  | call name args signature slot =>
    simp only [expr, bind_ok, functionNamed_ok, pure_ok, Prod.mk.injEq] at accepted
    obtain ⟨s, _, ⟨known, rfl⟩, args', _, passed, ⟨rfl, rfl⟩, rfl⟩ := accepted
    obtain ⟨noted, plain, erase, length, rfl⟩ := arguments_sound s.parameters args formed
      (Context.arity_of_known formed known) passed
    exact ⟨⟨.call (length ▸ known) noted (fun _ => rfl) fun _ => rfl,
      .call known plain nofun nofun, by simp only [Expr.erase, erase]⟩, rfl⟩
  | list elements slot =>
    cases elements with
    | nil => simp [expr, throw_ok] at accepted
    | cons first others =>
      simp only [expr, bind_ok, pure_ok, Prod.mk.injEq] at accepted
      obtain ⟨⟨first', S⟩, _, typed, others', _, rest, ⟨rfl, rfl⟩, rfl⟩ := accepted
      obtain ⟨sound, rfl⟩ := expr_sound formed typed
      obtain ⟨noted, plain, erase, rfl⟩ := elementsOf_sound S others formed rest
      exact ⟨⟨.list sound.noted noted fun _ => rfl, .list sound.plain plain nofun,
        by simp only [Expr.erase, Expr.eraseAll, sound.erase, erase]⟩, rfl⟩

theorem arguments_sound {c d : Context} {es' : List Expr} (types : List Ty) (es : List Expr)
    (formed : c.Formed) (many : types.length = es.length)
    (accepted : arguments types es c = .ok es' d) :
    ArgumentsOk True c.env types es' ∧ ArgumentsOk False c.env types es ∧
      Expr.eraseAll es' = Expr.eraseAll es ∧ es.length = es'.length ∧ c = d := by
  cases es with
  | nil =>
    cases types with
    | nil =>
      simp only [arguments, pure_ok] at accepted
      obtain ⟨rfl, rfl⟩ := accepted
      exact ⟨.nil, .nil, rfl, rfl, rfl⟩
    | cons expected types => simp at many
  | cons e es =>
    cases types with
    | nil => simp at many
    | cons expected types =>
      simp only [arguments, bind_ok, requireAccepts_ok, pure_ok] at accepted
      obtain ⟨⟨e', S⟩, _, typed, _, _, ⟨accepts, rfl⟩, es', _, rest, rfl, rfl⟩ := accepted
      obtain ⟨sound, rfl⟩ := expr_sound formed typed
      obtain ⟨noted, plain, erase, length, rfl⟩ := arguments_sound types es formed
        (by simpa using many) rest
      exact ⟨.cons sound.noted accepts noted, .cons sound.plain accepts plain,
        by simp only [Expr.eraseAll, sound.erase, erase], by simp [length], rfl⟩

theorem elementsOf_sound {c d : Context} {es' : List Expr} (T : Ty) (es : List Expr)
    (formed : c.Formed) (accepted : elementsOf T es c = .ok es' d) :
    ElementsOk True c.env T es' ∧ ElementsOk False c.env T es ∧
      Expr.eraseAll es' = Expr.eraseAll es ∧ c = d := by
  cases es with
  | nil =>
    simp only [elementsOf, pure_ok] at accepted
    obtain ⟨rfl, rfl⟩ := accepted
    exact ⟨.nil, .nil, rfl, rfl⟩
  | cons e es =>
    simp only [elementsOf, bind_ok] at accepted
    obtain ⟨⟨e', S⟩, _, typed, rest⟩ := accepted
    obtain ⟨sound, rfl⟩ := expr_sound formed typed
    by_cases same : S = T
    · subst same
      simp only [ne_eq, not_true, if_false, bind_ok, pure_ok] at rest
      obtain ⟨es', _, others, rfl, rfl⟩ := rest
      obtain ⟨noted, plain, erase, rfl⟩ := elementsOf_sound S es formed others
      exact ⟨.cons sound.noted noted, .cons sound.plain plain,
        by simp only [Expr.eraseAll, sound.erase, erase], rfl⟩
    · simp only [ne_eq, same, not_false_eq_true, if_true, bind_ok, throw_ok, false_and,
        exists_false] at rest

end

theorem initializer_sound {name : String} {declared : Option Ty} {e e' : Expr} {T : Ty}
    (formed : c.Formed) (accepted : initializer name declared e c = .ok (e', T) d) :
    InitialOk True c.env declared e' T ∧ InitialOk False c.env declared e T ∧
      e'.erase = e.erase ∧ c = d := by
  have general (accepted : expr e c = .ok (e', T) d) :
      InitialOk True c.env declared e' T ∧ InitialOk False c.env declared e T ∧
        e'.erase = e.erase ∧ c = d := by
    obtain ⟨sound, rfl⟩ := expr_sound formed accepted
    exact ⟨.value sound.noted, .value sound.plain, sound.erase, rfl⟩
  cases e with
  | list elements slot =>
    cases elements with
    | cons => exact general accepted
    | nil =>
      cases declared with
      | none => simp [initializer, throw_ok] at accepted
      | some ty =>
        simp only [initializer, pure_ok, Prod.mk.injEq] at accepted
        obtain ⟨⟨rfl, rfl⟩, rfl⟩ := accepted
        exact ⟨.empty fun _ => rfl, .empty nofun, rfl, rfl⟩
  | _ => exact general accepted

theorem declaredType_sound {name : String} {typeName : Option String} {value value' : Option Expr}
    {T : Ty} (formed : c.Formed)
    (accepted : declaredType name typeName value c = .ok (value', T) d) :
    DeclaredOk True c.env typeName value' T ∧ DeclaredOk False c.env typeName value T ∧
      value'.map Expr.erase = value.map Expr.erase ∧ c = d := by
  cases typeName with
  | none =>
    cases value with
    | none => simp [declaredType, throw_ok] at accepted
    | some e =>
      simp only [declaredType, Option.mapM_none, pure_bind, bind_ok, pure_ok,
        Prod.mk.injEq] at accepted
      obtain ⟨⟨e', S⟩, _, typed, ⟨rfl, rfl⟩, rfl⟩ := accepted
      obtain ⟨noted, plain, erase, rfl⟩ := initializer_sound formed typed
      exact ⟨.valueOnly noted, .valueOnly plain, congrArg some erase, rfl⟩
  | some typeName =>
    simp only [declaredType, bind_ok, mapM_typeNamed_some] at accepted
    obtain ⟨_, _, ⟨target, known, rfl, rfl⟩, rest⟩ := accepted
    cases value with
    | none =>
      simp only [pure_ok, Prod.mk.injEq] at rest
      obtain ⟨⟨rfl, rfl⟩, rfl⟩ := rest
      exact ⟨.typeOnly known, .typeOnly known, rfl, rfl⟩
    | some e =>
      simp only [bind_ok, requireAccepts_ok, pure_ok, Prod.mk.injEq] at rest
      obtain ⟨⟨e', S⟩, _, typed, _, _, ⟨accepts, rfl⟩, ⟨rfl, rfl⟩, rfl⟩ := rest
      obtain ⟨noted, plain, erase, rfl⟩ := initializer_sound formed typed
      exact ⟨.both known noted accepts, .both known plain accepts, congrArg some erase, rfl⟩

theorem condition_sound {statement : Conditional} {e e' : Expr} (formed : c.Formed)
    (accepted : condition statement e c = .ok e' d) : ExprSound c e e' .boolean ∧ c = d := by
  simp only [condition, bind_ok] at accepted
  obtain ⟨⟨f, S⟩, _, typed, rest⟩ := accepted
  obtain ⟨sound, rfl⟩ := expr_sound formed typed
  by_cases boolean : S = .boolean
  · subst boolean
    simp only [ne_eq, not_true, if_false, pure_ok] at rest
    obtain ⟨rfl, rfl⟩ := rest
    exact ⟨sound, rfl⟩
  · simp only [ne_eq, boolean, not_false_eq_true, if_true, bind_ok, throw_ok, false_and,
      exists_false] at rest

/-- The answer for a statement is derivable with slots noted, and what it was made of without. -/
structure StmtSound (c d : Context) (s s' : Stmt) : Prop where
  noted : StmtOk True c.env s' d.env
  plain : StmtOk False c.env s d.env
  erase : s'.erase = s.erase
  later : c.Later d

theorem assignment_sound {receiver value : Expr} {s' : Stmt} (formed : c.Formed)
    (accepted : assignment receiver value c = .ok s' d) :
    StmtSound c d (.assignment receiver value) s' := by
  cases receiver with
  | access name record slot =>
    simp only [assignment, bind_ok, variableNamed_ok] at accepted
    obtain ⟨⟨value', T⟩, _, typed, v, _, ⟨known, rfl⟩, rest⟩ := accepted
    obtain ⟨sound, rfl⟩ := expr_sound formed typed
    cases list : v.list with
    | true => simp only [list, if_true, bind_ok, throw_ok, false_and, exists_false] at rest
    | false =>
      simp only [list, Bool.false_eq_true, if_false, bind_ok, requireAccepts_ok, pure_ok] at rest
      obtain ⟨_, _, ⟨accepts, rfl⟩, rfl, rfl⟩ := rest
      exact ⟨.assignment sound.noted known list accepts (fun _ => rfl) fun _ => rfl,
        .assignment sound.plain known list accepts nofun nofun,
        by simp only [Stmt.erase, Expr.erase, sound.erase], Context.later_refl formed⟩
  | element name index record slot =>
    simp only [assignment, bind_ok, requireAccepts_ok, pure_ok] at accepted
    obtain ⟨⟨value', T⟩, _, typed, ⟨receiver', S⟩, _, target, _, _, ⟨accepts, rfl⟩, rfl, rfl⟩ :=
      accepted
    obtain ⟨sound, rfl⟩ := expr_sound formed typed
    obtain ⟨soundR, rfl⟩ := expr_sound formed target
    have erase := soundR.erase
    cases receiver' with
    | element =>
      refine ⟨?_, .store sound.plain soundR.plain accepts,
        by simp only [Stmt.erase, sound.erase, soundR.erase], Context.later_refl formed⟩
      exact .store sound.noted soundR.noted accepts
    | _ => simp [Expr.erase] at erase
  | _ => simp [assignment, throw_ok] at accepted

theorem caseValue_sound {ty : Ty} {e : Expr} {value' : Option Expr} (formed : c.Formed)
    (accepted : caseValue ty (some e) c = .ok value' d) :
    ∃ e', value' = some e' ∧ ExprSound c e e' ty ∧ c = d := by
  simp only [caseValue, bind_ok] at accepted
  obtain ⟨⟨e', S⟩, _, typed, rest⟩ := accepted
  obtain ⟨sound, rfl⟩ := expr_sound formed typed
  by_cases same : S = ty
  · subst same
    simp only [ne_eq, not_true, if_false, pure_ok] at rest
    obtain ⟨rfl, rfl⟩ := rest
    exact ⟨e', rfl, sound, rfl⟩
  · simp only [ne_eq, same, not_false_eq_true, if_true, bind_ok, throw_ok, false_and,
      exists_false] at rest

theorem call_sound {e : Expr} {s' : Stmt} (formed : c.Formed)
    (accepted : stmt (.expression e) c = .ok s' d) : StmtSound c d (.expression e) s' := by
  cases e with
  | call name args signature slot =>
    simp only [stmt, bind_ok, pure_ok] at accepted
    obtain ⟨⟨e', T⟩, _, typed, rfl, rfl⟩ := accepted
    obtain ⟨sound, rfl⟩ := expr_sound formed typed
    have erase := sound.erase
    cases e' with
    | call =>
      exact ⟨.call sound.noted, .call sound.plain, by simp only [Stmt.erase, erase],
        Context.later_refl formed⟩
    | _ => simp [Expr.erase] at erase
  | _ => simp [stmt, throw_ok] at accepted

theorem declaration_sound {name : String} {typeName : Option String} {value : Option Expr}
    {record : Option Variable} {s' : Stmt} (formed : c.Formed)
    (accepted : stmt (.declaration name typeName value record) c = .ok s' d) :
    StmtSound c d (.declaration name typeName value record) s' := by
  simp only [stmt, bind_ok, pure_ok] at accepted
  obtain ⟨⟨value', T⟩, _, declared, _, _, defined, rfl, rfl⟩ := accepted
  obtain ⟨noted, plain, erase, rfl⟩ := declaredType_sound formed declared
  obtain ⟨free, env, later⟩ := defineVariable_sound formed defined
  refine ⟨?_, ?_, by simp only [Stmt.erase, erase], later⟩
  · rw [env]
    exact .declaration noted free fun _ => rfl
  · rw [env]
    exact .declaration plain free nofun

theorem return_sound {value : Expr} {s' : Stmt} (formed : c.Formed)
    (accepted : stmt (.return value) c = .ok s' d) : StmtSound c d (.return value) s' := by
  simp only [stmt, bind_ok, get_ok] at accepted
  obtain ⟨_, _, ⟨rfl, rfl⟩, rest⟩ := accepted
  cases inside : c.returns with
  | none => simp [inside, throw_ok] at rest
  | some expected =>
    simp only [inside, bind_ok, requireAccepts_ok, pure_ok] at rest
    obtain ⟨⟨value', T⟩, _, typed, _, _, ⟨accepts, rfl⟩, rfl, rfl⟩ := rest
    obtain ⟨sound, rfl⟩ := expr_sound formed typed
    exact ⟨.return inside sound.noted accepts, .return inside sound.plain accepts,
      by simp only [Stmt.erase, sound.erase], Context.later_refl formed⟩

structure BlockSound (c d : Context) (Γ : Env) (ss ss' : List Stmt) : Prop where
  noted : BlockOk True Γ ss'
  plain : BlockOk False Γ ss
  erase : Stmt.eraseAll ss' = Stmt.eraseAll ss
  later : c.Later d

theorem child_sound {ss ss' : List Stmt}
    (sound : ∀ {c d ss'}, c.Formed → block ss c = .ok ss' d → BlockSound c d c.env ss ss')
    (formed : c.Formed) (entered : inChild (block ss) c = .ok ss' d) :
    BlockSound c d c.env.child ss ss' ∧ d.env = c.env := by
  obtain ⟨_, inner, formed', env, leave⟩ := inChild_sound formed entered
  obtain ⟨noted, plain, erase, later⟩ := sound formed' inner
  obtain ⟨later, same⟩ := leave later
  rw [env] at noted plain
  exact ⟨⟨noted, plain, erase, later⟩, same⟩

theorem conditional_sound {e : Expr} {whenTrue whenFalse : List Stmt} {s' : Stmt}
    (yes : ∀ {c d ss'}, c.Formed → block whenTrue c = .ok ss' d →
      BlockSound c d c.env whenTrue ss')
    (no : ∀ {c d ss'}, c.Formed → block whenFalse c = .ok ss' d →
      BlockSound c d c.env whenFalse ss')
    (formed : c.Formed) (accepted : stmt (.conditional e whenTrue whenFalse) c = .ok s' d) :
    StmtSound c d (.conditional e whenTrue whenFalse) s' := by
  simp only [stmt, bind_ok] at accepted
  obtain ⟨e', _, typed, rest⟩ := accepted
  obtain ⟨sound, rfl⟩ := condition_sound formed typed
  cases whenTrue with
  | nil => simp only [List.isEmpty_nil, if_true, bind_ok, throw_ok, false_and, exists_false] at rest
  | cons s ss =>
    simp only [List.isEmpty_cons, Bool.false_eq_true, if_false, bind_ok] at rest
    obtain ⟨whenTrue', d₁, first, rest⟩ := rest
    obtain ⟨first, same⟩ := child_sound yes formed first
    have erase := first.erase
    -- a branch that was not empty has not become so
    have body : whenTrue' ≠ [] := by
      rintro rfl
      simp [Stmt.eraseAll] at erase
    cases whenFalse with
    | nil =>
      simp only [List.isEmpty_nil, if_true, pure_bind, pure_ok] at rest
      obtain ⟨rfl, rfl⟩ := rest
      refine ⟨?_, ?_, by simp only [Stmt.erase, sound.erase, erase], first.later⟩
      · rw [same]
        exact .conditional sound.noted body first.noted .nil
      · rw [same]
        exact .conditional sound.plain (by simp) first.plain .nil
    | cons t ts =>
      simp only [List.isEmpty_cons, Bool.false_eq_true, if_false, bind_ok, pure_ok] at rest
      obtain ⟨whenFalse', d₂, second, rfl, rfl⟩ := rest
      obtain ⟨⟨noted, plain, erase', later⟩, same'⟩ := child_sound no first.later.formed second
      rw [same] at noted plain
      refine ⟨?_, ?_, by simp only [Stmt.erase, sound.erase, erase, erase'],
        Context.later_trans first.later later⟩
      · rw [same', same]
        exact .conditional sound.noted body first.noted noted
      · rw [same', same]
        exact .conditional sound.plain (by simp) first.plain plain

theorem loop_sound {e : Expr} {body : List Stmt} {s' : Stmt}
    (inner : ∀ {c d ss'}, c.Formed → block body c = .ok ss' d → BlockSound c d c.env body ss')
    (formed : c.Formed) (accepted : stmt (.loop e body) c = .ok s' d) :
    StmtSound c d (.loop e body) s' := by
  simp only [stmt, bind_ok, pure_ok] at accepted
  obtain ⟨e', _, typed, body', _, entered, rfl, rfl⟩ := accepted
  obtain ⟨sound, rfl⟩ := condition_sound formed typed
  obtain ⟨⟨noted, plain, erase, later⟩, same⟩ := child_sound inner formed entered
  refine ⟨?_, ?_, by simp only [Stmt.erase, sound.erase, erase], later⟩
  · rw [same]
    exact .loop sound.noted noted
  · rw [same]
    exact .loop sound.plain plain

structure CasesSound (c d : Context) (ty : Ty) (arms arms' : List Case) : Prop where
  noted : CasesOk True c.env ty arms'
  plain : CasesOk False c.env ty arms
  erase : Case.eraseAll arms' = Case.eraseAll arms
  same : d.env = c.env
  later : c.Later d

theorem switch_sound {e : Expr} {arms : List Case} {s' : Stmt}
    (all : ∀ {ty d arms'}, cases ty arms c = .ok arms' d → CasesSound c d ty arms arms')
    (formed : c.Formed) (accepted : stmt (.switch e arms) c = .ok s' d) :
    StmtSound c d (.switch e arms) s' := by
  simp only [stmt, bind_ok, pure_ok] at accepted
  obtain ⟨⟨e', T⟩, _, typed, arms', _, answered, rfl, rfl⟩ := accepted
  obtain ⟨sound, rfl⟩ := expr_sound formed typed
  obtain ⟨noted, plain, erase, same, later⟩ := all answered
  refine ⟨?_, ?_, by simp only [Stmt.erase, sound.erase, erase], later⟩
  · rw [same]
    exact .switch sound.noted noted
  · rw [same]
    exact .switch sound.plain plain

mutual

theorem stmt_sound {c d : Context} {s' : Stmt} (s : Stmt) (formed : c.Formed)
    (accepted : stmt s c = .ok s' d) : StmtSound c d s s' := by
  cases s with
  | expression e => exact call_sound formed accepted
  | declaration name typeName value record => exact declaration_sound formed accepted
  | assignment receiver value => exact assignment_sound formed accepted
  | conditional e whenTrue whenFalse =>
    exact conditional_sound (block_sound whenTrue) (block_sound whenFalse) formed accepted
  | switch e arms => exact switch_sound (cases_sound _ arms formed) formed accepted
  | loop e body => exact loop_sound (block_sound body) formed accepted
  | «return» value => exact return_sound formed accepted

theorem block_sound {c d : Context} {ss' : List Stmt} (ss : List Stmt) (formed : c.Formed)
    (accepted : block ss c = .ok ss' d) : BlockSound c d c.env ss ss' := by
  cases ss with
  | nil =>
    simp only [block, pure_ok] at accepted
    obtain ⟨rfl, rfl⟩ := accepted
    exact ⟨.nil, .nil, rfl, Context.later_refl formed⟩
  | cons s ss =>
    simp only [block, bind_ok, pure_ok] at accepted
    obtain ⟨s', _, first, ss', _, rest, rfl, rfl⟩ := accepted
    have sound := stmt_sound s formed first
    obtain ⟨noted, plain, erase, later⟩ := block_sound ss sound.later.formed rest
    exact ⟨.cons sound.noted noted, .cons sound.plain plain,
      by simp only [Stmt.eraseAll, sound.erase, erase], Context.later_trans sound.later later⟩

theorem cases_sound {c d : Context} {arms' : List Case} (ty : Ty) (arms : List Case)
    (formed : c.Formed) (accepted : cases ty arms c = .ok arms' d) :
    CasesSound c d ty arms arms' := by
  match arms with
  | [] =>
    simp only [cases, pure_ok] at accepted
    obtain ⟨rfl, rfl⟩ := accepted
    exact ⟨.nil, .nil, rfl, rfl, Context.later_refl formed⟩
  | .arm none body :: [] =>
    simp only [cases, Option.isNone_none, List.isEmpty_nil, Bool.not_true, Bool.and_false,
      Bool.false_eq_true, if_false, bind_ok, pure_ok] at accepted
    obtain ⟨arm', _, entered, _, _, ⟨rfl, rfl⟩, rfl, rfl⟩ := accepted
    obtain ⟨_, inner, formed', env, leave⟩ := inChild_sound formed entered
    simp only [caseValue, pure_bind, bind_ok, pure_ok] at inner
    obtain ⟨body', _, inner, rfl, rfl⟩ := inner
    obtain ⟨noted, plain, erase, later⟩ := block_sound body formed' inner
    obtain ⟨later, same⟩ := leave later
    rw [env] at noted plain
    exact ⟨.default noted, .default plain, by simp only [Case.eraseAll, Case.erase, erase,
      Option.map_none], same, later⟩
  | .arm none body :: arm :: others =>
    simp only [cases, Option.isNone_none, List.isEmpty_cons, Bool.not_false, Bool.and_self,
      if_true, bind_ok, throw_ok, false_and, exists_false] at accepted
  | .arm (some e) body :: others =>
    simp only [cases, Option.isNone_some, Bool.false_and, Bool.false_eq_true, if_false, bind_ok,
      pure_ok] at accepted
    obtain ⟨arm', _, entered, others', _, rest, rfl, rfl⟩ := accepted
    obtain ⟨_, inner, formed', env, leave⟩ := inChild_sound formed entered
    simp only [bind_ok, pure_ok] at inner
    obtain ⟨value', _, typed, body', _, inner, rfl, rfl⟩ := inner
    obtain ⟨e', rfl, sound, rfl⟩ := caseValue_sound formed' typed
    obtain ⟨noted, plain, erase, later⟩ := block_sound body formed' inner
    obtain ⟨later, same⟩ := leave later
    have valueNoted := sound.noted
    have valuePlain := sound.plain
    rw [env] at noted plain valueNoted valuePlain
    obtain ⟨noted', plain', erase', same', later'⟩ := cases_sound ty others later.formed rest
    rw [same] at noted' plain'
    exact ⟨.arm valueNoted noted noted', .arm valuePlain plain plain',
      by simp only [Case.eraseAll, Case.erase, Option.map_some, sound.erase, erase, erase'],
      same'.trans same, Context.later_trans later later'⟩

end

theorem globals_sound {c d : Context} {gs' : List Global} (gs : List Global) (formed : c.Formed)
    (accepted : gs.mapM global c = .ok gs' d) :
    GlobalsOk True c.env gs' d.env ∧ GlobalsOk False c.env gs d.env ∧
      gs'.map Global.erase = gs.map Global.erase ∧ d.Formed := by
  induction gs generalizing c gs' with
  | nil =>
    simp only [List.mapM_nil, pure_ok] at accepted
    obtain ⟨rfl, rfl⟩ := accepted
    exact ⟨.nil, .nil, rfl, formed⟩
  | cons g gs ih =>
    simp only [List.mapM_cons, global, bind_assoc, bind_ok, pure_bind, pure_ok] at accepted
    obtain ⟨⟨value', T⟩, _, declared, _, _, defined, gs', _, rest, rfl, rfl⟩ := accepted
    obtain ⟨noted, plain, erase, rfl⟩ := declaredType_sound formed declared
    obtain ⟨free, env, later⟩ := defineVariable_sound (v := g.variable T) formed defined
    obtain ⟨notedRest, plainRest, eraseRest, formed'⟩ := ih later.formed rest
    rw [env] at notedRest plainRest
    rw [Global.variable_name] at free
    refine ⟨.cons noted free (fun _ => rfl) notedRest, .cons plain free nofun plainRest, ?_,
      formed'⟩
    simp only [List.map_cons, eraseRest, Global.erase, erase]

theorem defineParameters_sound {c d : Context} {u : Unit} (ps : List Parameter) (types : List Ty)
    (formed : c.Formed) (many : ps.length = types.length)
    (accepted : defineParameters ps types c = .ok u d) :
    ParametersOk c.env ps types d.env ∧ c.Later d := by
  induction ps generalizing types c with
  | nil =>
    cases types with
    | cons => simp at many
    | nil =>
      simp only [defineParameters, pure_ok, true_and] at accepted
      subst accepted
      exact ⟨.nil, Context.later_refl formed⟩
  | cons p ps ih =>
    cases types with
    | nil => simp at many
    | cons ty types =>
      simp only [defineParameters, bind_ok] at accepted
      obtain ⟨_, e, defined, rest⟩ := accepted
      obtain ⟨free, env, later⟩ := defineVariable_sound formed defined
      obtain ⟨others, later'⟩ := ih types later.formed (by simpa using many) rest
      rw [env] at others
      exact ⟨.cons free others, Context.later_trans later later'⟩

def returnNamed (f : Function) : Typing Ty :=
  match f.returns with
  | some name => typeNamed name
  | none => pure .nil

theorem returnNamed_ok {f : Function} {ty : Ty} :
    returnNamed f c = .ok ty d ↔ f.returnTy? = some ty ∧ c = d := by
  unfold returnNamed Function.returnTy?
  cases f.returns with
  | none => simp [pure_ok]
  | some name => exact typeNamed_ok

theorem function_eq (f : Function) : function f = (do
    let types ← f.parameters.mapM fun p => typeNamed p.typeName
    let returns ← returnNamed f
    defineFunction ⟨f.name, types, returns⟩
    let body ← returning returns <| inChild do
      defineParameters f.parameters types
      block f.body
    pure { f with body, signature := some ⟨f.name, types, returns⟩ }) := by
  obtain ⟨name, ps, returns, body, signature⟩ := f
  cases returns <;> rfl

/-- The body of a function, typed where its name is known already. -/
theorem body_sound {s : Signature} {ps : List Parameter} {ss ss' : List Stmt} (formed : c.Formed)
    (many : ps.length = s.parameters.length)
    (accepted : (returning s.returns <| inChild do
      defineParameters ps s.parameters
      block ss) c = .ok ss' d) :
    ∃ Δ, ParametersOk (c.env.returning s.returns).child ps s.parameters Δ ∧ BlockOk True Δ ss' ∧
      BlockOk False Δ ss ∧ Stmt.eraseAll ss' = Stmt.eraseAll ss ∧ d.env = c.env ∧ d.Formed := by
  obtain ⟨e, inner, rfl⟩ := returning_ok.mp accepted
  have formed' : Context.Formed { c with returns := some s.returns } :=
    ⟨formed.inside, formed.founded, formed.keyed⟩
  obtain ⟨_, inner, formedIn, env, leave⟩ := inChild_sound formed' inner
  simp only [bind_ok] at inner
  obtain ⟨_, _, parameters, body⟩ := inner
  obtain ⟨bound, later⟩ := defineParameters_sound ps s.parameters formedIn many parameters
  obtain ⟨noted, plain, erase, later'⟩ := block_sound ss later.formed body
  obtain ⟨left, same⟩ := leave (Context.later_trans later later')
  rw [env] at bound
  refine ⟨_, bound, noted, plain, erase, ?_, ⟨left.formed.inside, left.formed.founded,
    left.formed.keyed⟩⟩
  simp only [Context.env, Env.mk.injEq] at same ⊢
  exact ⟨same.1, same.2.1, trivial⟩

theorem function_sound {f f' : Function} (formed : c.Formed) (accepted : function f c = .ok f' d) :
    ∃ s : Signature, c.env.ownFunction? s.name s.arity = none ∧ d.env = c.env.bindFunction s ∧
      BodyOk True (c.env.bindFunction s) f' s ∧ BodyOk False (c.env.bindFunction s) f s ∧
      f'.erase = f.erase ∧ d.Formed := by
  simp only [function_eq, bind_ok, returnNamed_ok] at accepted
  obtain ⟨types, _, resolved, returns, _, ⟨known, rfl⟩, _, e, defined, body', _, typed, rest⟩ :=
    accepted
  simp only [pure_ok] at rest
  obtain ⟨rfl, rfl⟩ := rest
  obtain ⟨parameters, length, rfl⟩ := mapM_parameters resolved
  obtain ⟨free, env, formed'⟩ := defineFunction_sound formed defined
  obtain ⟨Δ, bound, noted, plain, erase, same, formed''⟩ :=
    body_sound (s := ⟨f.name, types, returns⟩) formed' length.symm typed
  rw [env] at bound same
  refine ⟨⟨f.name, types, returns⟩, free, same,
    ⟨rfl, parameters, known, fun _ => rfl, Δ, bound, noted⟩,
    ⟨rfl, parameters, known, nofun, Δ, bound, plain⟩, ?_, formed''⟩
  simp only [Function.erase, erase]

theorem functions_sound {c d : Context} {fs' : List Function} (fs : List Function)
    (formed : c.Formed) (accepted : fs.mapM function c = .ok fs' d) :
    FunctionsOk True c.env fs' d.env ∧ FunctionsOk False c.env fs d.env ∧
      fs'.map Function.erase = fs.map Function.erase ∧ d.Formed := by
  induction fs generalizing c fs' with
  | nil =>
    simp only [List.mapM_nil, pure_ok] at accepted
    obtain ⟨rfl, rfl⟩ := accepted
    exact ⟨.nil, .nil, rfl, formed⟩
  | cons f fs ih =>
    simp only [List.mapM_cons, bind_ok, pure_ok] at accepted
    obtain ⟨f', _, first, fs', _, rest, rfl, rfl⟩ := accepted
    obtain ⟨s, free, env, noted, plain, erase, formed'⟩ := function_sound formed first
    obtain ⟨notedRest, plainRest, eraseRest, formed''⟩ := ih formed' rest
    rw [env] at notedRest plainRest
    exact ⟨.cons free noted notedRest, .cons free plain plainRest,
      by simp only [List.map_cons, erase, eraseRest], formed''⟩

/-- An accepted program is derivable, before and after its slots are filled. -/
theorem program_sound {p q : Program} (formed : c.Formed) (accepted : program p c = .ok q d) :
    ProgramOk True c.env q d.env ∧ ProgramOk False c.env p d.env ∧ q.erase = p.erase := by
  simp only [program, bind_ok, pure_ok] at accepted
  obtain ⟨gs, _, globals, fs, e, functions, _, _, main, rfl, rfl⟩ := accepted
  obtain ⟨notedG, plainG, eraseG, formedG⟩ := globals_sound p.globals formed globals
  obtain ⟨notedF, plainF, eraseF, formedF⟩ := functions_sound p.functions formedG functions
  simp only [requireMain, bind_ok, get_ok] at main
  obtain ⟨_, _, ⟨rfl, rfl⟩, rest⟩ := main
  rw [← Context.findFunction?_env] at rest
  cases known : e.env.findFunction? "main" 0 with
  | none => simp [known, throw_ok] at rest
  | some s =>
    by_cases integer : s.returns = .integer
    · simp only [known, integer, if_true, pure_ok, true_and] at rest
      subst rest
      have alone := List.eq_nil_of_length_eq_zero (Context.arity_of_known formedF known)
      exact ⟨⟨⟨_, notedG, notedF⟩, s, known, alone, integer⟩,
        ⟨⟨_, plainG, plainF⟩, s, known, alone, integer⟩,
        by simp only [Program.erase, eraseG, eraseF]⟩
    · simp [known, integer, throw_ok] at rest

end Typing

theorem exists_ok {ε α : Type} {result : Except ε α} {holds : α → Prop}
    (known : ∃ a ∈ result.toOption, holds a) : ∃ a, result = .ok a ∧ holds a := by
  obtain ⟨a, there, is⟩ := known
  cases result with
  | error e => cases there
  | ok b =>
    cases there
    exact ⟨a, rfl, is⟩

/-- What analysis accepts is derivable where only `print` is known. -/
theorem check_sound {p q : Program} (accepted : p.check = .ok q) :
    ∃ Δ, ProgramOk True Context.fresh.env q Δ ∧ ProgramOk False Context.fresh.env p Δ ∧
      q.erase = p.erase := by
  unfold Program.check at accepted
  cases typed : Typing.program p Context.fresh with
  | error e d => simp [typed] at accepted
  | ok r d =>
    simp only [typed, Except.ok.injEq] at accepted
    subst accepted
    exact ⟨d.env, Typing.program_sound Context.formed_fresh typed⟩

end Plc

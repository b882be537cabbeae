import Plc.Proofs.Scopes
import Plc.Proofs.Typing.Judgement

/-!
The environment that the scopes of a context amount to, and what the single steps of analysis say of
it: what they find, and what they leave behind.
-/

namespace Plc

namespace Scopes

def frame (t : Scopes Variable Signature) (i : Nat) : Frame :=
  ⟨((t.scope? i).map Scope.bindings).getD [], ((t.scope? i).map Scope.functions).getD []⟩

variable {t : Scopes Variable Signature}

theorem ownVariable?_frame (i : Nat) (name : String) :
    t.ownVariable? i name = (t.frame i).bindings.lookup name := by
  simp only [ownVariable?, frame]
  cases t.scope? i <;> rfl

theorem ownFunction?_frame (i : Nat) (name : String) (arity : Nat) :
    t.ownFunction? i name arity = (t.frame i).functions.lookup (name, arity) := by
  simp only [ownFunction?, frame]
  cases t.scope? i <;> rfl

end Scopes

namespace Context

def env (c : Context) : Env :=
  ⟨c.scopes.frame c.current, (c.scopes.path c.current).tail.map c.scopes.frame, c.returns⟩

theorem findVariable?_env (c : Context) (name : String) :
    c.env.findVariable? name = c.scopes.findVariable? c.current name := by
  simp only [Env.findVariable?, env, ← List.map_cons, List.findSome?_map, Scopes.findVariable?]
  exact Scopes.findSome?_congr fun i _ => (Scopes.ownVariable?_frame i name).symm

theorem findFunction?_env (c : Context) (name : String) (arity : Nat) :
    c.env.findFunction? name arity = c.scopes.findFunction? c.current name arity := by
  simp only [Env.findFunction?, env, ← List.map_cons, List.findSome?_map, Scopes.findFunction?]
  exact Scopes.findSome?_congr fun i _ => (Scopes.ownFunction?_frame i name arity).symm

theorem own?_env (c : Context) (name : String) :
    c.env.own? name = c.scopes.ownVariable? c.current name :=
  (Scopes.ownVariable?_frame c.current name).symm

theorem ownFunction?_env (c : Context) (name : String) (arity : Nat) :
    c.env.ownFunction? name arity = c.scopes.ownFunction? c.current name arity :=
  (Scopes.ownFunction?_frame c.current name arity).symm

/-- The current scope is one of a well-founded table, and functions are known by their arity. -/
structure Formed (c : Context) : Prop where
  inside : c.current < c.scopes.next
  founded : c.scopes.Founded
  keyed : ∀ i name arity s, c.scopes.ownFunction? i name arity = some s → s.arity = arity

theorem arity_of_known {c : Context} (formed : c.Formed) {name : String} {arity : Nat}
    {s : Signature} (known : c.env.findFunction? name arity = some s) : s.arity = arity := by
  rw [findFunction?_env] at known
  obtain ⟨i, _, found⟩ := List.exists_of_findSome?_eq_some known
  exact formed.keyed i name arity s found

def entered (c : Context) : Context :=
  { c with scopes := c.scopes.addChild c.current, current := c.scopes.next }

/-- The same place later on: nothing is gone, and what is new is in the current scope. -/
structure Later (c d : Context) : Prop where
  current : d.current = c.current
  returns : d.returns = c.returns
  scopes : c.scopes.Later c.current d.scopes
  formed : d.Formed

variable {c d e : Context}

theorem later_refl (formed : c.Formed) : c.Later c :=
  ⟨rfl, rfl, Scopes.later_of_extends (Scopes.extends_refl _) formed.inside, formed⟩

theorem later_trans (first : c.Later d) (second : d.Later e) : c.Later e :=
  ⟨second.current.trans first.current, second.returns.trans first.returns,
    Scopes.later_trans first.scopes (first.current ▸ second.scopes), second.formed⟩

theorem formed_entered (formed : c.Formed) : c.entered.Formed := by
  refine ⟨by simp [entered], Scopes.founded_addChild formed.founded formed.inside, ?_⟩
  intro i name arity s found
  simp only [entered, Scopes.ownFunction?, Scopes.scope?_addChild] at found
  split at found
  · simp at found
  · exact formed.keyed i name arity s found

theorem frame_of_extends {t u : Scopes Variable Signature} (same : t.Extends u) {i : Nat}
    (inside : i < t.next) : u.frame i = t.frame i := by
  simp only [Scopes.frame, same.same i inside]

theorem env_of_extends (formed : c.Formed) (same : c.scopes.Extends d.scopes)
    (current : d.current = c.current) (returns : d.returns = c.returns) : d.env = c.env := by
  have path := Scopes.path_of_later (Scopes.later_of_extends same formed.inside) formed.inside
  have around : (c.scopes.path c.current).tail.map d.scopes.frame =
      (c.scopes.path c.current).tail.map c.scopes.frame :=
    List.map_congr_left fun i member => frame_of_extends same
      (Scopes.path_lt formed.founded formed.inside (List.mem_of_mem_tail member))
  simp only [env, current, returns, path, around, frame_of_extends same formed.inside]

theorem env_entered (formed : c.Formed) : c.entered.env = c.env.child := by
  have before := env_of_extends (d := { c with scopes := c.scopes.addChild c.current }) formed
    (Scopes.extends_addChild _ _) rfl rfl
  simp only [env, Env.mk.injEq] at before
  obtain ⟨top, around, -⟩ := before
  rw [Scopes.path_addChild c.current formed.inside] at around
  have new : (c.scopes.addChild c.current).frame c.scopes.next = ⟨[], []⟩ := by
    simp [Scopes.frame, Scopes.scope?_addChild]
  have path : c.scopes.path c.current = c.current :: (c.scopes.path c.current).tail := rfl
  simp only [env, entered, Env.child, Scopes.path_addChild_new, List.tail_cons, new]
  rw [path, List.map_cons, top, around]
  rfl

/-- Back from a new scope everything is as it was. -/
theorem later_of_entered (formed : c.Formed) (later : c.entered.Later d) :
    c.Later { d with current := c.current } ∧ { d with current := c.current }.env = c.env := by
  have same : c.scopes.Extends d.scopes := Scopes.extends_of_child later.scopes
  refine ⟨⟨rfl, later.returns, Scopes.later_of_extends same formed.inside, ?_⟩, ?_⟩
  · exact ⟨Nat.lt_of_lt_of_le formed.inside same.next, later.formed.founded, later.formed.keyed⟩
  · exact env_of_extends formed same rfl later.returns

theorem formed_inside {t : Scopes Variable Signature} {i : Nat} (within : i < t.next)
    (founded : t.Founded)
    (keyed : ∀ j name arity s, t.ownFunction? j name arity = some s → s.arity = arity) :
    (inside t i).Formed := by
  refine ⟨by simp [inside], ?_, fun j name arity s known => ?_⟩
  · exact Scopes.founded_bindFunction (Scopes.founded_addChild founded within) _ _ _ _
  · simp only [inside, Scopes.ownFunction?_bindFunction, Scopes.ownFunction?_addChild] at known
    split at known
    · next here =>
      cases known
      exact here.2.2.2.symm
    · exact keyed j name arity s known

theorem formed_fresh : fresh.Formed :=
  formed_inside (by decide) Scopes.founded_single fun j name arity s known => by
    rw [Scopes.ownFunction?_single] at known
    cases known

end Context

namespace Typing

variable {α β : Type} {c d : Context}

theorem bind_ok {act : Typing α} {next : α → Typing β} {b : β} :
    (act >>= next) c = .ok b d ↔ ∃ a e, act c = .ok a e ∧ next a e = .ok b d := by
  show EStateM.bind act next c = .ok b d ↔ _
  unfold EStateM.bind
  cases act c with
  | ok a e =>
    constructor
    · intro rest
      exact ⟨a, e, rfl, rest⟩
    · rintro ⟨_, _, ⟨⟩, rest⟩
      exact rest
  | error e f => simp

theorem pure_ok {a b : α} : (pure a : Typing α) c = .ok b d ↔ a = b ∧ c = d := by
  show EStateM.Result.ok a c = .ok b d ↔ _
  simp

theorem throw_ok {e : TypeError} {b : α} : ((throw e : Typing α) c = .ok b d) ↔ False := by
  show EStateM.Result.error e c = .ok b d ↔ _
  simp

theorem get_ok {a : Context} : (get : Typing Context) c = .ok a d ↔ c = a ∧ c = d := by
  show EStateM.Result.ok c c = .ok a d ↔ _
  simp

theorem variableNamed_ok {name : String} {v : Variable} :
    variableNamed name c = .ok v d ↔ c.env.findVariable? name = some v ∧ c = d := by
  simp only [variableNamed, bind_ok, get_ok, Context.findVariable?_env]
  constructor
  · rintro ⟨_, _, ⟨rfl, rfl⟩, found⟩
    cases known : c.scopes.findVariable? c.current name with
    | none => simp [known, throw_ok] at found
    | some w => simpa [known, pure_ok] using found
  · rintro ⟨known, rfl⟩
    exact ⟨c, c, ⟨rfl, rfl⟩, by simp [known, pure_ok]⟩

theorem functionNamed_ok {name : String} {arity : Nat} {s : Signature} :
    functionNamed name arity c = .ok s d ↔ c.env.findFunction? name arity = some s ∧ c = d := by
  simp only [functionNamed, bind_ok, get_ok, Context.findFunction?_env]
  constructor
  · rintro ⟨_, _, ⟨rfl, rfl⟩, found⟩
    cases known : c.scopes.findFunction? c.current name arity with
    | none => simp [known, throw_ok] at found
    | some w => simpa [known, pure_ok] using found
  · rintro ⟨known, rfl⟩
    exact ⟨c, c, ⟨rfl, rfl⟩, by simp [known, pure_ok]⟩

theorem typeNamed_ok {name : String} {ty : Ty} :
    typeNamed name c = .ok ty d ↔ Ty.ofName? name = some ty ∧ c = d := by
  unfold typeNamed
  cases Ty.ofName? name with
  | none => simp [throw_ok]
  | some known => simp [pure_ok]

theorem requireAccepts_ok {target actual : Ty} {u : Unit} :
    requireAccepts target actual c = .ok u d ↔ target.accepts actual = true ∧ c = d := by
  unfold requireAccepts
  split <;> simp [*, pure_ok, throw_ok]

theorem literal_ok {l : Literal} {ty : Ty} :
    literal l c = .ok ty d ↔ l.InRange ∧ l.ty = ty ∧ c = d := by
  cases l <;> simp only [literal, Literal.InRange, Literal.ty, pure_ok, true_and]
  all_goals split <;> simp [*, pure_ok, throw_ok]

theorem requireBinary_ok {e : Expr} {u : Unit} :
    requireBinary e c = .ok u d ↔ e.IsBinary ∧ c = d := by
  cases e <;> simp [requireBinary, Expr.IsBinary, pure_ok, throw_ok]

theorem inChild_ok {act : Typing α} {a : α} :
    inChild act c = .ok a d ↔
      ∃ e, act c.entered = .ok a e ∧ d = { e with current := c.current } := by
  unfold inChild
  cases inner : act c.entered with
  | error r e => simp [show act { c with scopes := _, current := _ } = _ from inner]
  | ok b e =>
    simp only [show act { c with scopes := _, current := _ } = _ from inner,
      EStateM.Result.ok.injEq]
    constructor
    · rintro ⟨rfl, rfl⟩
      exact ⟨e, ⟨rfl, rfl⟩, rfl⟩
    · rintro ⟨_, ⟨rfl, rfl⟩, rfl⟩
      exact ⟨rfl, rfl⟩

theorem mapM_typeNamed_some {name : String} {declared : Option Ty} :
    (some name).mapM typeNamed c = .ok declared d ↔
      ∃ ty, Ty.ofName? name = some ty ∧ declared = some ty ∧ c = d := by
  show (some <$> typeNamed name) c = _ ↔ _
  rw [← bind_pure_comp, bind_ok]
  simp only [typeNamed_ok, pure_ok]
  constructor
  · rintro ⟨ty, _, ⟨known, rfl⟩, rfl, rfl⟩
    exact ⟨ty, known, rfl, rfl⟩
  · rintro ⟨ty, known, rfl, rfl⟩
    exact ⟨ty, _, ⟨known, rfl⟩, rfl, rfl⟩

theorem mapM_parameters {ps : List Parameter} {types : List Ty}
    (accepted : ps.mapM (fun p => typeNamed p.typeName) c = .ok types d) :
    ps.mapM (fun p => Ty.ofName? p.typeName) = some types ∧ types.length = ps.length ∧ c = d := by
  induction ps generalizing types with
  | nil =>
    simp only [List.mapM_nil, pure_ok] at accepted
    obtain ⟨rfl, rfl⟩ := accepted
    exact ⟨rfl, rfl, rfl⟩
  | cons p ps ih =>
    simp only [List.mapM_cons, bind_ok, typeNamed_ok, pure_ok] at accepted
    obtain ⟨ty, _, ⟨known, rfl⟩, types, _, rest, rfl, rfl⟩ := accepted
    obtain ⟨others, length, rfl⟩ := ih rest
    exact ⟨by simp [List.mapM_cons, known, others], by simp [length], rfl⟩

theorem returning_ok {ty : Ty} {act : Typing α} {a : α} :
    returning ty act c = .ok a d ↔
      ∃ e, act { c with returns := some ty } = .ok a e ∧ d = { e with returns := c.returns } := by
  unfold returning
  cases act { c with returns := some ty } with
  | error r e => simp
  | ok b e =>
    simp only [EStateM.Result.ok.injEq]
    constructor
    · rintro ⟨rfl, rfl⟩
      exact ⟨e, ⟨rfl, rfl⟩, rfl⟩
    · rintro ⟨_, ⟨rfl, rfl⟩, rfl⟩
      exact ⟨rfl, rfl⟩

theorem inChild_sound {act : Typing α} {a : α} (formed : c.Formed)
    (accepted : inChild act c = .ok a d) :
    ∃ e, act c.entered = .ok a e ∧ c.entered.Formed ∧ c.entered.env = c.env.child ∧
      (c.entered.Later e → c.Later d ∧ d.env = c.env) := by
  obtain ⟨e, inner, rfl⟩ := inChild_ok.mp accepted
  exact ⟨e, inner, Context.formed_entered formed, Context.env_entered formed,
    Context.later_of_entered formed⟩

theorem defineVariable_sound {v : Variable} {u : Unit} (formed : c.Formed)
    (accepted : defineVariable v c = .ok u d) :
    c.env.own? v.name = none ∧ d.env = c.env.bind v ∧ c.Later d := by
  unfold defineVariable Scopes.defineVariable Scopes.variableClash? at accepted
  rw [Context.own?_env]
  cases own : c.scopes.ownVariable? c.current v.name with
  | some w => simp [own] at accepted
  | none =>
    simp only [own, Option.isSome_none, Bool.false_eq_true, if_false, EStateM.Result.ok.injEq,
      true_and] at accepted
    subst accepted
    obtain ⟨s, found⟩ := Scopes.scope?_of_lt formed.inside
    refine ⟨rfl, ?_, ⟨rfl, rfl, Scopes.later_bindVariable _ _ _ _, ⟨by simpa using formed.inside,
      Scopes.founded_bindVariable formed.founded _ _ _, ?_⟩⟩⟩
    · have around : (c.scopes.path c.current).tail.map
          (c.scopes.bindVariable c.current v.name v).frame =
          (c.scopes.path c.current).tail.map c.scopes.frame := by
        apply List.map_congr_left
        intro i member
        rw [Scopes.path_of_scope? found, List.tail_cons] at member
        have older := formed.founded _ s found i member
        simp only [Scopes.frame, Scopes.scope?_bindVariable, if_neg (Nat.ne_of_gt older)]
      simp only [Context.env, Scopes.path_bindVariable, around, Env.bind, Scopes.frame,
        Scopes.scope?_bindVariable, if_true, found, Option.map_some, Option.getD_some]
    · intro i name arity s known
      refine formed.keyed i name arity s ?_
      rw [← known]
      simp only [Scopes.ownFunction?, Scopes.scope?_bindVariable]
      split
      · cases c.scopes.scope? i <;> rfl
      · rfl

theorem defineFunction_sound {s : Signature} {u : Unit} (formed : c.Formed)
    (accepted : defineFunction s c = .ok u d) :
    c.env.ownFunction? s.name s.arity = none ∧ d.env = c.env.bindFunction s ∧ d.Formed := by
  unfold defineFunction Scopes.defineFunction Scopes.functionClash? at accepted
  rw [Context.ownFunction?_env]
  cases own : c.scopes.ownFunction? c.current s.name s.arity with
  | some w => simp [own] at accepted
  | none =>
    simp only [own, Option.isSome_none, Bool.false_eq_true, if_false, EStateM.Result.ok.injEq,
      true_and] at accepted
    subst accepted
    obtain ⟨here, found⟩ := Scopes.scope?_of_lt formed.inside
    refine ⟨rfl, ?_, by simpa using formed.inside,
      Scopes.founded_bindFunction formed.founded _ _ _ _, ?_⟩
    · have around : (c.scopes.path c.current).tail.map
          (c.scopes.bindFunction c.current s.name s.arity s).frame =
          (c.scopes.path c.current).tail.map c.scopes.frame := by
        apply List.map_congr_left
        intro i member
        rw [Scopes.path_of_scope? found, List.tail_cons] at member
        have older := formed.founded _ here found i member
        simp only [Scopes.frame, Scopes.scope?_bindFunction, if_neg (Nat.ne_of_gt older)]
      simp only [Context.env, Scopes.path_bindFunction, around, Env.bindFunction, Scopes.frame,
        Scopes.scope?_bindFunction, if_true, found, Option.map_some, Option.getD_some]
    · intro i name arity f known
      simp only [Scopes.ownFunction?_bindFunction] at known
      split at known
      · next here =>
        cases known
        exact here.2.2.2.symm
      · exact formed.keyed i name arity f known

end Typing

end Plc

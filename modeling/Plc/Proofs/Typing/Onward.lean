import Mathlib.Order.Defs.Unbundled
import Plc.Proofs.Typing.Sound

/-!
What the checks of a block leave of the context, passed or refused. A check may fail at any depth,
but every way out of a scope leads back into the scope around it. So an expression leaves all scopes
as they were, and a statement may add variables to the scope in which it stands and do no more.
-/

namespace Plc

def Scope.gaining (s : Scope Variable Signature) (vs : List Variable) (fs : List Signature) :
    Scope Variable Signature :=
  ⟨s.enclosing, (vs.map fun v => (v.name, v)).reverse ++ s.bindings,
    (fs.map fun f => ((f.name, f.arity), f)).reverse ++ s.functions⟩

namespace Context

/-- The same place later on. Of the scopes that there were, only the current one differs, by these
variables and functions, which it did not have. -/
structure Gains (vs : List Variable) (fs : List Signature) (c d : Context) : Prop where
  current : d.current = c.current
  returns : d.returns = c.returns
  next : c.scopes.next ≤ d.scopes.next
  others : ∀ i < c.scopes.next, i ≠ c.current → d.scopes.scope? i = c.scopes.scope? i
  here : ∀ s, c.scopes.scope? c.current = some s →
    d.scopes.scope? c.current = some (s.gaining vs fs) ∧
      (∀ v ∈ vs, s.bindings.lookup v.name = none) ∧
      ∀ f ∈ fs, s.functions.lookup (f.name, f.arity) = none

def Onward (c d : Context) : Prop := ∃ vs, c.Gains vs [] d

variable {vs ws : List Variable} {fs gs : List Signature} {c d e : Context}

/-- All scopes that there were are as they were. -/
theorem gains_same (current : d.current = c.current) (returns : d.returns = c.returns)
    (next : c.scopes.next ≤ d.scopes.next)
    (same : ∀ i < c.scopes.next, d.scopes.scope? i = c.scopes.scope? i) : c.Gains [] [] d where
  current := current
  returns := returns
  next := next
  others i inside _ := same i inside
  here s found := by
    rw [same c.current (Scopes.lt_next found), found]
    simp [Scope.gaining]

theorem gains_refl (c : Context) : c.Gains [] [] c :=
  gains_same rfl rfl (Nat.le_refl _) fun _ _ => rfl

theorem gains_trans (first : c.Gains vs fs d) (second : d.Gains ws gs e) :
    c.Gains (vs ++ ws) (fs ++ gs) e where
  current := second.current.trans first.current
  returns := second.returns.trans first.returns
  next := Nat.le_trans first.next second.next
  others i inside other := by
    have between := first.others i inside other
    rw [← first.current] at other
    rw [second.others i (Nat.lt_of_lt_of_le inside first.next) other, between]
  here s found := by
    obtain ⟨between, newV, newF⟩ := first.here s found
    rw [← first.current] at between ⊢
    obtain ⟨after, newW, newG⟩ := second.here _ between
    constructor
    · rw [after]
      simp only [Scope.gaining, List.map_append, List.reverse_append, List.append_assoc]
    constructor
    · intro v member
      rcases List.mem_append.mp member with early | late
      · exact newV v early
      · exact Scope.lookup_of_append (newW v late)
    · intro f member
      rcases List.mem_append.mp member with early | late
      · exact newF f early
      · exact Scope.lookup_of_append (newG f late)

instance : IsPreorder Context (Gains [] []) where
  refl := gains_refl
  trans _ _ _ := gains_trans

instance : IsPreorder Context Onward where
  refl c := ⟨[], gains_refl c⟩
  trans _ _ _ := fun ⟨vs, first⟩ ⟨ws, second⟩ => ⟨vs ++ ws, gains_trans first second⟩

/-- No variable of the current scope is hidden by those that are new. -/
theorem variable_of_gains (gains : c.Gains vs fs d) {name : String} {v : Variable}
    (own : c.scopes.ownVariable? c.current name = some v) :
    d.scopes.ownVariable? c.current name = some v := by
  obtain ⟨s, found, own⟩ := Option.bind_eq_some_iff.mp own
  obtain ⟨after, new, -⟩ := gains.here s found
  rw [Scopes.ownVariable?, after, Option.bind_some]
  refine Scope.lookup_behind (fun p member => ?_) own
  obtain ⟨w, among, rfl⟩ := List.mem_map.mp (List.mem_reverse.mp member)
  exact new w among

theorem function_of_gains (gains : c.Gains vs fs d) {name : String} {arity : Nat} {f : Signature}
    (own : c.scopes.ownFunction? c.current name arity = some f) :
    d.scopes.ownFunction? c.current name arity = some f := by
  obtain ⟨s, found, own⟩ := Option.bind_eq_some_iff.mp own
  obtain ⟨after, -, new⟩ := gains.here s found
  rw [Scopes.ownFunction?, after, Option.bind_some]
  refine Scope.lookup_behind (fun p member => ?_) own
  obtain ⟨g, among, rfl⟩ := List.mem_map.mp (List.mem_reverse.mp member)
  exact new g among

/-- Back from a new scope, all scopes that there were are as they were. -/
theorem gains_of_entered (inner : c.entered.Onward d) :
    c.Gains [] [] { d with current := c.current } := by
  obtain ⟨vs, inner⟩ := inner
  have more : c.scopes.next + 1 ≤ d.scopes.next := by
    have grown := inner.next
    rwa [entered, Scopes.next_addChild] at grown
  refine gains_same rfl inner.returns (Nat.le_of_succ_le more) fun i inside => ?_
  have older : i < c.entered.scopes.next := by
    rw [entered, Scopes.next_addChild]
    exact Nat.lt_succ_of_lt inside
  rw [inner.others i older (Nat.ne_of_lt inside), entered, Scopes.scope?_addChild,
    if_neg (Nat.ne_of_lt inside)]

theorem gains_bindVariable {v : Variable}
    (free : c.scopes.variableClash? c.current v.name = none) :
    c.Gains [v] [] { c with scopes := c.scopes.bindVariable c.current v.name v } where
  current := rfl
  returns := rfl
  next := Nat.le_of_eq (Scopes.next_bindVariable ..).symm
  others i _ other := by rw [Scopes.scope?_bindVariable, if_neg (Ne.symm other)]
  here s found := by
    have new := Scopes.lookup_of_variableClash? found free
    exact ⟨by simp [Scopes.scope?_bindVariable, Scope.gaining, found],
      List.forall_mem_singleton.mpr new, nofun⟩

theorem gains_bindFunction {f : Signature}
    (free : c.scopes.functionClash? c.current f.name f.arity = none) :
    c.Gains [] [f] { c with scopes := c.scopes.bindFunction c.current f.name f.arity f } where
  current := rfl
  returns := rfl
  next := Nat.le_of_eq (Scopes.next_bindFunction ..).symm
  others i _ other := by rw [Scopes.scope?_bindFunction, if_neg (Ne.symm other)]
  here s found := by
    have new := Scopes.lookup_of_functionClash? found free
    exact ⟨by simp [Scopes.scope?_bindFunction, Scope.gaining, found], nofun,
      List.forall_mem_singleton.mpr new⟩

end Context

namespace Typing

open Context

variable {α β : Type} {R : Context → Context → Prop} {act : Typing α} {next : α → Typing β}
  {c : Context} {bad : Context → Prop}

/-- How `act` ends from `c`: accepted with an answer and a context that are `good`, or refused with
a context that is `bad`. -/
def Ends (act : Typing α) (c : Context) (good : α → Context → Prop) (bad : Context → Prop) :
    Prop :=
  match act c with
  | .ok a d => good a d
  | .error _ d => bad d

/-- However `act` ends, its context has gone on by `R`. -/
def Keeps (R : Context → Context → Prop) (act : Typing α) : Prop :=
  ∀ c, act.Ends c (fun _ => R c) (R c)

theorem ends_bind {mid : α → Context → Prop} {good : β → Context → Prop}
    (first : act.Ends c mid bad)
    (rest : ∀ a d, act c = .ok a d → mid a d → (next a).Ends d good bad) :
    (act >>= next).Ends c good bad := by
  unfold Ends at first
  show match EStateM.bind act next c with | .ok b d => good b d | .error _ d => bad d
  unfold EStateM.bind
  cases ended : act c with
  | ok a d =>
    rw [ended] at first
    exact rest a d ended first
  | error r d =>
    rw [ended] at first
    exact first

theorem ends_imp {good better : α → Context → Prop} {worse : Context → Prop}
    (ends : act.Ends c good bad) (accepted : ∀ a d, act c = .ok a d → good a d → better a d)
    (refused : ∀ d, bad d → worse d) : act.Ends c better worse := by
  unfold Ends at ends ⊢
  cases ended : act c with
  | ok a d =>
    rw [ended] at ends
    exact accepted a d ended ends
  | error r d =>
    rw [ended] at ends
    exact refused d ends

theorem keeps_ite {p : Prop} [Decidable p] {other : Typing α} (yes : Keeps R act)
    (no : Keeps R other) : Keeps R (if p then act else other) := by
  split
  · exact yes
  · exact no

section

variable [IsPreorder Context R]

theorem keeps_pure (a : α) : Keeps R (pure a) := refl_of R

theorem keeps_throw (r : TypeError) : Keeps R (throw r : Typing α) := refl_of R

theorem keeps_get : Keeps R (get : Typing Context) := refl_of R

theorem keeps_bind (first : Keeps R act) (rest : ∀ a, Keeps R (next a)) :
    Keeps R (act >>= next) := fun c =>
  ends_bind (first c) fun a d _ here =>
    ends_imp (rest a d) (fun _ _ _ there => trans_of R here there) fun _ there =>
      trans_of R here there

theorem keeps_mapM {each : α → Typing β} (as : List α) (one : ∀ a, Keeps R (each a)) :
    Keeps R (as.mapM each) := by
  induction as with
  | nil => exact keeps_pure []
  | cons a as ih =>
    rw [List.mapM_cons]
    exact keeps_bind (one a) fun b => keeps_bind ih fun bs => keeps_pure (b :: bs)

/-- A check that is made before the rest. -/
theorem keeps_unless {p : Prop} [Decidable p] {rest : Unit → Typing α} (r : TypeError)
    (passed : Keeps R (rest ())) : Keeps R (if p then throw r >>= rest else rest ()) :=
  keeps_ite (keeps_bind (keeps_throw r) fun () => passed) passed

theorem variableNamed_keeps (name : String) : Keeps R (variableNamed name) := by
  refine keeps_bind keeps_get fun c => ?_
  cases c.scopes.findVariable? c.current name with
  | some v => exact keeps_pure v
  | none => exact keeps_throw _

theorem functionNamed_keeps (name : String) (arity : Nat) : Keeps R (functionNamed name arity) := by
  refine keeps_bind keeps_get fun c => ?_
  cases c.scopes.findFunction? c.current name arity with
  | some s => exact keeps_pure s
  | none => exact keeps_throw _

theorem typeNamed_keeps (name : String) : Keeps R (typeNamed name) := by
  unfold typeNamed
  cases Ty.ofName? name with
  | some ty => exact keeps_pure ty
  | none => exact keeps_throw _

theorem requireAccepts_keeps (target actual : Ty) : Keeps R (requireAccepts target actual) := by
  unfold requireAccepts
  exact keeps_ite (keeps_pure ()) (keeps_throw _)

theorem literal_keeps (l : Literal) : Keeps R (literal l) := by
  cases l with
  | integer n => exact keeps_ite (keeps_pure _) (keeps_throw _)
  | decimal d => exact keeps_ite (keeps_pure _) (keeps_throw _)
  | _ => exact keeps_pure _

theorem requireBinary_keeps (e : Expr) : Keeps R (requireBinary e) := by
  cases e with
  | binary => exact keeps_pure ()
  | _ => exact keeps_throw _

mutual

theorem expr_keeps (e : Expr) : Keeps R (expr e) := by
  cases e with
  | literal value slot =>
    unfold expr
    exact keeps_bind (literal_keeps value) fun _ => keeps_pure _
  | group inner slot =>
    unfold expr
    exact keeps_bind (requireBinary_keeps inner) fun _ =>
      keeps_bind (expr_keeps inner) fun _ => keeps_pure _
  | binary op left right slot =>
    unfold expr
    refine keeps_bind (expr_keeps left) fun (_, L) => keeps_bind (expr_keeps right) fun (_, S) => ?_
    dsimp only
    cases op.resultType? L S with
    | some ty => exact keeps_pure _
    | none => exact keeps_throw _
  | access name record slot =>
    unfold expr
    exact keeps_bind (variableNamed_keeps name) fun _ => keeps_pure _
  | element name index record slot =>
    unfold expr
    exact keeps_bind (variableNamed_keeps name) fun _ => keeps_unless _ <|
      keeps_bind (expr_keeps index) fun _ => keeps_unless _ <| keeps_pure _
  | call name args signature slot =>
    unfold expr
    exact keeps_bind (functionNamed_keeps name args.length) fun s =>
      keeps_bind (arguments_keeps s.parameters args) fun _ => keeps_pure _
  | list elements slot =>
    cases elements with
    | nil =>
      unfold expr
      exact keeps_throw _
    | cons first others =>
      unfold expr
      exact keeps_bind (expr_keeps first) fun (_, ty) =>
        keeps_bind (elementsOf_keeps ty others) fun _ => keeps_pure _

theorem arguments_keeps (types : List Ty) (es : List Expr) : Keeps R (arguments types es) := by
  cases es with
  | nil =>
    cases types <;> exact keeps_pure []
  | cons e es =>
    cases types with
    | nil => exact keeps_pure _
    | cons expected types =>
      unfold arguments
      exact keeps_bind (expr_keeps e) fun (_, ty) =>
        keeps_bind (requireAccepts_keeps expected ty) fun _ =>
          keeps_bind (arguments_keeps types es) fun _ => keeps_pure _

theorem elementsOf_keeps (ty : Ty) (es : List Expr) : Keeps R (elementsOf ty es) := by
  cases es with
  | nil => exact keeps_pure []
  | cons e es =>
    unfold elementsOf
    exact keeps_bind (expr_keeps e) fun _ => keeps_unless _ <|
      keeps_bind (elementsOf_keeps ty es) fun _ => keeps_pure _

end

theorem initializer_keeps (name : String) (declared : Option Ty) (e : Expr) :
    Keeps R (initializer name declared e) := by
  cases e with
  | list elements slot =>
    cases elements with
    | cons => exact expr_keeps _
    | nil =>
      cases declared with
      | some ty => exact keeps_pure _
      | none => exact keeps_throw _
  | _ => exact expr_keeps _

theorem typeName_keeps (typeName : Option String) : Keeps R (typeName.mapM typeNamed) := by
  cases typeName with
  | none => exact keeps_pure none
  | some name =>
    show Keeps R (some <$> typeNamed name)
    rw [← bind_pure_comp]
    exact keeps_bind (typeNamed_keeps name) fun _ => keeps_pure _

theorem declaredType_keeps (name : String) (typeName : Option String) (value : Option Expr) :
    Keeps R (declaredType name typeName value) := by
  refine keeps_bind (typeName_keeps typeName) fun declared => ?_
  cases value with
  | none =>
    cases declared with
    | some target => exact keeps_pure _
    | none => exact keeps_throw _
  | some e =>
    refine keeps_bind (initializer_keeps name declared e) fun (_, actual) => ?_
    cases declared with
    | some target => exact keeps_bind (requireAccepts_keeps target actual) fun _ => keeps_pure _
    | none => exact keeps_pure _

theorem condition_keeps (statement : Conditional) (e : Expr) : Keeps R (condition statement e) :=
  keeps_bind (expr_keeps e) fun _ => keeps_unless _ (keeps_pure _)

theorem assignment_keeps (receiver value : Expr) : Keeps R (assignment receiver value) := by
  cases receiver with
  | access name record slot =>
    exact keeps_bind (expr_keeps value) fun (_, T) => keeps_bind (variableNamed_keeps name) fun v =>
      keeps_unless _ <| keeps_bind (requireAccepts_keeps v.ty T) fun _ => keeps_pure _
  | element name index record slot =>
    exact keeps_bind (expr_keeps value) fun (_, T) => keeps_bind (expr_keeps _) fun (_, S) =>
      keeps_bind (requireAccepts_keeps S T) fun _ => keeps_pure _
  | _ => exact keeps_throw _

theorem caseValue_keeps (ty : Ty) (value : Option Expr) : Keeps R (caseValue ty value) := by
  cases value with
  | none => exact keeps_pure none
  | some e => exact keeps_bind (expr_keeps e) fun _ => keeps_unless _ (keeps_pure _)

end

theorem ends_inChild {good : α → Context → Prop} : (inChild act).Ends c good bad ↔
    act.Ends c.entered (fun a d => good a { d with current := c.current })
      fun d => bad { d with current := c.current } := by
  unfold Ends inChild entered
  dsimp only
  cases act { c with scopes := c.scopes.addChild c.current, current := c.scopes.next } <;> rfl

/-- Whatever a scope gains, it is left for the one around it. -/
theorem keeps_inChild (inner : Keeps Onward act) : Keeps (Gains [] []) (inChild act) := fun c =>
  ends_inChild.mpr <| ends_imp (inner c.entered) (fun _ _ _ => gains_of_entered) fun _ =>
    gains_of_entered

theorem keeps_onward (stays : Keeps (Gains [] []) act) : Keeps Onward act := fun c =>
  ends_imp (stays c) (fun _ _ _ gains => ⟨[], gains⟩) fun _ gains => ⟨[], gains⟩

theorem defineVariable_ends (v : Variable) (c : Context) :
    (defineVariable v).Ends c (fun _ => c.Gains [v] []) (c.Gains [] []) := by
  unfold Ends defineVariable Scopes.defineVariable
  cases free : c.scopes.variableClash? c.current v.name with
  | some r => exact gains_refl c
  | none => exact gains_bindVariable free

theorem defineFunction_ends (s : Signature) (c : Context) :
    (defineFunction s).Ends c (fun _ => c.Gains [] [s]) (c.Gains [] []) := by
  unfold Ends defineFunction Scopes.defineFunction
  cases free : c.scopes.functionClash? c.current s.name s.arity with
  | some r => exact gains_refl c
  | none => exact gains_bindFunction free

theorem defineVariable_keeps (v : Variable) : Keeps Onward (defineVariable v) := fun c =>
  ends_imp (defineVariable_ends v c) (fun _ _ _ gains => ⟨[v], gains⟩) fun _ gains => ⟨[], gains⟩

mutual

theorem stmt_keeps (s : Stmt) : Keeps Onward (stmt s) := by
  cases s with
  | expression e =>
    cases e with
    | call =>
      unfold stmt
      exact keeps_bind (expr_keeps _) fun _ => keeps_pure _
    | _ =>
      unfold stmt
      exact keeps_throw _
  | declaration name typeName value record =>
    unfold stmt
    exact keeps_bind (declaredType_keeps name typeName value) fun _ =>
      keeps_bind (defineVariable_keeps _) fun _ => keeps_pure _
  | assignment receiver value =>
    unfold stmt
    exact assignment_keeps receiver value
  | conditional e whenTrue whenFalse =>
    have first := keeps_onward (keeps_inChild (block_keeps whenTrue))
    have second := keeps_onward (keeps_inChild (block_keeps whenFalse))
    unfold stmt
    exact keeps_bind (condition_keeps .if e) fun _ => keeps_unless _ <| keeps_bind first fun _ =>
      keeps_ite (keeps_bind (keeps_pure []) fun _ => keeps_pure _)
        (keeps_bind second fun _ => keeps_pure _)
  | switch e arms =>
    unfold stmt
    exact keeps_bind (expr_keeps e) fun (_, ty) => keeps_bind (cases_keeps ty arms) fun _ =>
      keeps_pure _
  | loop e body =>
    have inner := keeps_onward (keeps_inChild (block_keeps body))
    unfold stmt
    exact keeps_bind (condition_keeps .while e) fun _ => keeps_bind inner fun _ => keeps_pure _
  | «return» value =>
    unfold stmt
    refine keeps_bind keeps_get fun c => ?_
    cases c.returns with
    | none => exact keeps_throw _
    | some expected =>
      exact keeps_bind (expr_keeps value) fun (_, actual) =>
        keeps_bind (requireAccepts_keeps expected actual) fun _ => keeps_pure _

theorem block_keeps (ss : List Stmt) : Keeps Onward (block ss) := by
  cases ss with
  | nil =>
    unfold block
    exact keeps_pure []
  | cons s ss =>
    unfold block
    exact keeps_bind (stmt_keeps s) fun _ => keeps_bind (block_keeps ss) fun _ => keeps_pure _

theorem cases_keeps (ty : Ty) (arms : List Case) : Keeps Onward (cases ty arms) := by
  match arms with
  | [] =>
    unfold cases
    exact keeps_pure []
  | .arm value body :: others =>
    have inner : Keeps Onward (do
        let value ← caseValue ty value
        let body ← block body
        pure (Case.arm value body)) :=
      keeps_bind (caseValue_keeps ty value) fun _ => keeps_bind (block_keeps body) fun _ =>
        keeps_pure _
    unfold cases
    exact keeps_unless _ <| keeps_bind (keeps_onward (keeps_inChild inner)) fun _ =>
      keeps_bind (cases_keeps ty others) fun _ => keeps_pure _

end

end Typing

end Plc

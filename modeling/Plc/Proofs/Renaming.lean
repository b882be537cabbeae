import Plc.Program.Rename
import Plc.Proofs.Recoding

/-!
Renamed tables and renamed actions. A look-up under a new name in a renamed table finds what the old
name finds in the table itself, since no two names become one. An action carries over to another one
when on every renamed state that one does what the action does, renamed. It is proved of a sequence
of actions from one for each of them.
-/

namespace Plc

namespace Scopes

variable {V F : Type} {t : Scopes V F}

def rename (r : Renaming) (g : V → V) (h : F → F) (t : Scopes V F) : Scopes V F :=
  ⟨t.table.map fun s => ⟨s.enclosing, s.bindings.map fun b => (r.ofVariable b.1, g b.2),
    s.functions.map fun f => ((r.ofFunction f.1.1, f.1.2), h f.2)⟩⟩

variable (r : Renaming) (g : V → V) (h : F → F)

theorem rename_single : (single : Scopes V F).rename r g h = single := by
  simp [rename, single]

@[simp] theorem next_rename : (t.rename r g h).next = t.next := by
  simp [rename, next]

theorem scope?_rename (i : Nat) : (t.rename r g h).scope? i = (t.scope? i).map fun s =>
    ⟨s.enclosing, s.bindings.map fun b => (r.ofVariable b.1, g b.2),
      s.functions.map fun f => ((r.ofFunction f.1.1, f.1.2), h f.2)⟩ := by
  simp [rename, scope?]

@[simp] theorem path_rename (i : Nat) : (t.rename r g h).path i = t.path i := by
  simp only [path, scope?_rename, Option.map_map]
  rfl

theorem ownVariable?_rename (i : Nat) (name : String) :
    (t.rename r g h).ownVariable? i (r.ofVariable name) = (t.ownVariable? i name).map g := by
  simp only [ownVariable?, scope?_rename]
  cases t.scope? i with
  | none => rfl
  | some s => exact lookup_map_of_injective r.variableInjective g name s.bindings

theorem ownFunction?_rename (i : Nat) (name : String) (arity : Nat) :
    (t.rename r g h).ownFunction? i (r.ofFunction name) arity =
      (t.ownFunction? i name arity).map h := by
  have injective : ∀ x y : String × Nat,
      (r.ofFunction x.1, x.2) = (r.ofFunction y.1, y.2) → x = y := by
    rintro ⟨name, arity⟩ ⟨name', arity'⟩ same
    obtain ⟨names, rfl⟩ := Prod.mk.inj same
    rw [r.functionInjective name name' names]
  simp only [ownFunction?, scope?_rename]
  cases t.scope? i with
  | none => rfl
  | some s => exact lookup_map_of_injective injective h (name, arity) s.functions

theorem findVariable?_rename (i : Nat) (name : String) :
    (t.rename r g h).findVariable? i (r.ofVariable name) = (t.findVariable? i name).map g := by
  rw [findVariable?, findVariable?, path_rename, List.map_findSome?]
  exact congrArg (List.findSome? · _) (funext fun j => ownVariable?_rename r g h j name)

theorem findFunction?_rename (i : Nat) (name : String) (arity : Nat) :
    (t.rename r g h).findFunction? i (r.ofFunction name) arity =
      (t.findFunction? i name arity).map h := by
  rw [findFunction?, findFunction?, path_rename, List.map_findSome?]
  exact congrArg (List.findSome? · _) (funext fun j => ownFunction?_rename r g h j name arity)

theorem variableClash?_rename (i : Nat) (name : String) :
    (t.rename r g h).variableClash? i (r.ofVariable name) =
      (t.variableClash? i name).map (Redefinition.rename r) := by
  simp only [variableClash?, ownVariable?_rename, Option.isSome_map]
  cases (t.ownVariable? i name).isSome <;> rfl

theorem functionClash?_rename (i : Nat) (name : String) (arity : Nat) :
    (t.rename r g h).functionClash? i (r.ofFunction name) arity =
      (t.functionClash? i name arity).map (Redefinition.rename r) := by
  simp only [functionClash?, ownFunction?_rename, Option.isSome_map]
  cases (t.ownFunction? i name arity).isSome <;> rfl

theorem rename_addChild (parent : Nat) :
    (t.addChild parent).rename r g h = (t.rename r g h).addChild parent := by
  simp only [addChild, path_rename]
  simp [rename]

theorem rename_bindVariable (i : Nat) (name : String) (v : V) :
    (t.bindVariable i name v).rename r g h =
      (t.rename r g h).bindVariable i (r.ofVariable name) (g v) := by
  simp only [bindVariable, rename, Scopes.mk.injEq]
  apply map_modify
  intro s
  rfl

theorem rename_bindFunction (i : Nat) (name : String) (arity : Nat) (f : F) :
    (t.bindFunction i name arity f).rename r g h =
      (t.rename r g h).bindFunction i (r.ofFunction name) arity (h f) := by
  simp only [bindFunction, rename, Scopes.mk.injEq]
  apply map_modify
  intro s
  rfl

theorem defineVariable_rename (i : Nat) (name : String) (v : V) :
    (t.rename r g h).defineVariable i (r.ofVariable name) (g v) =
      ((t.defineVariable i name v).map (rename r g h)).mapError (Redefinition.rename r) := by
  rw [defineVariable, defineVariable, variableClash?_rename]
  cases t.variableClash? i name with
  | some d => rfl
  | none => exact congrArg Except.ok (rename_bindVariable r g h i name v).symm

theorem defineFunction_rename (i : Nat) (name : String) (arity : Nat) (f : F) :
    (t.rename r g h).defineFunction i (r.ofFunction name) arity (h f) =
      ((t.defineFunction i name arity f).map (rename r g h)).mapError (Redefinition.rename r) := by
  rw [defineFunction, defineFunction, functionClash?_rename]
  cases t.functionClash? i name arity with
  | some d => rfl
  | none => exact congrArg Except.ok (rename_bindFunction r g h i name arity f).symm

end Scopes

/-- How states and errors are carried over, and what is known of the states that are met. -/
structure Carry (ε σ : Type) where
  error : ε → ε
  state : σ → σ
  fine : σ → Prop

section

variable {ε σ α β α' β' γ δ : Type} {κ : Carry ε σ}

inductive Carry.Results (κ : Carry ε σ) (value : α → β) :
    EStateM.Result ε σ α → EStateM.Result ε σ β → Prop where
  | ok {a : α} {s : σ} (fine : κ.fine s) : Results κ value (.ok a s) (.ok (value a) (κ.state s))
  | error {e : ε} {s : σ} (fine : κ.fine s) :
    Results κ value (.error e s) (.error (κ.error e) (κ.state s))

theorem Carry.results_ok {value : α → β} {a : α} {s t : σ} (fine : κ.fine s)
    (same : t = κ.state s) : κ.Results value (.ok a s) (.ok (value a) t) :=
  same ▸ .ok fine

theorem Carry.results_error {value : α → β} {e e' : ε} {s : σ} (fine : κ.fine s)
    (same : e' = κ.error e) : κ.Results value (.error e s) (.error e' (κ.state s)) :=
  same ▸ .error fine

/-- What `act` does in a state, `image` does in the state that is carried over. -/
def Carries (κ : Carry ε σ) (value : α → β) (act : EStateM ε σ α) (image : EStateM ε σ β) : Prop :=
  ∀ s, κ.fine s → κ.Results value (act s) (image (κ.state s))

theorem carries_pure {value : α → β} {a : α} {b : β} (same : b = value a) :
    Carries κ value (pure a) (pure b) := by
  intro s fine
  rw [same]
  exact .ok fine

theorem carries_throw {value : α → β} {e e' : ε} (same : e' = κ.error e) :
    Carries κ value (throw e) (throw e') := by
  intro s fine
  rw [same]
  exact .error fine

theorem carries_bind {value : α → α'} {result : β → β'} {act : EStateM ε σ α}
    {image : EStateM ε σ α'} {next : α → EStateM ε σ β} {next' : α' → EStateM ε σ β'}
    (first : Carries κ value act image) (rest : ∀ a, Carries κ result (next a) (next' (value a))) :
    Carries κ result (act >>= next) (image >>= next') := by
  intro s fine
  show κ.Results result (EStateM.bind act next s) (EStateM.bind image next' (κ.state s))
  have start := first s fine
  unfold EStateM.bind
  generalize act s = found at start
  generalize image (κ.state s) = found' at start
  cases start with
  | @ok a s fine => exact rest a s fine
  | error fine => exact .error fine

/-- An `if` that throws, with the rest of the sequence behind it. -/
theorem carries_guard {value : α → β} {holds holds' : Prop} [Decidable holds] [Decidable holds']
    {e e' : ε} {next : γ → EStateM ε σ α} {next' : δ → EStateM ε σ β} {rest : EStateM ε σ α}
    {rest' : EStateM ε σ β} (agree : holds' ↔ holds) (same : e' = κ.error e)
    (other : Carries κ value rest rest') :
    Carries κ value (if holds then throw e >>= next else rest)
      (if holds' then throw e' >>= next' else rest') := by
  by_cases is : holds
  · rw [if_pos is, if_pos (agree.mpr is), same]
    exact fun _ fine => .error fine
  · rw [if_neg is, if_neg (mt agree.mp is)]
    exact other

theorem carries_get {value : α → β} {next : σ → EStateM ε σ α} {next' : σ → EStateM ε σ β}
    (rest : ∀ s, Carries κ value (next s) (next' (κ.state s))) :
    Carries κ value (get >>= next) (get >>= next') := fun s fine => rest s s fine

theorem carries_ite {value : α → β} {holds : Prop} [Decidable holds]
    {yes no : EStateM ε σ α} {yes' no' : EStateM ε σ β} (first : Carries κ value yes yes')
    (second : Carries κ value no no') :
    Carries κ value (if holds then yes else no) (if holds then yes' else no') := by
  split
  · exact first
  · exact second

def bracketed (enter : σ → σ) (leave : σ → σ → σ) (act : EStateM ε σ α) : EStateM ε σ α := fun s =>
  match act (enter s) with
  | .ok a t => .ok a (leave s t)
  | .error e t => .error e (leave s t)

theorem carries_bracketed {value : α → β} {enter : σ → σ} {leave : σ → σ → σ}
    {act : EStateM ε σ α} {image : EStateM ε σ β} (inner : Carries κ value act image)
    (enters : ∀ s, κ.fine s → κ.fine (enter s) ∧ enter (κ.state s) = κ.state (enter s))
    (leaves : ∀ s t, κ.fine t →
      κ.fine (leave s t) ∧ leave (κ.state s) (κ.state t) = κ.state (leave s t)) :
    Carries κ value (bracketed enter leave act) (bracketed enter leave image) := by
  intro s fine
  obtain ⟨entered, same⟩ := enters s fine
  have inside := inner (enter s) entered
  unfold bracketed
  rw [same]
  generalize act (enter s) = found at inside
  generalize image (κ.state (enter s)) = found' at inside
  cases inside with
  | @ok a t fine =>
    obtain ⟨left, back⟩ := leaves s t fine
    dsimp only
    rw [back]
    exact .ok left
  | @error e t fine =>
    obtain ⟨left, back⟩ := leaves s t fine
    dsimp only
    rw [back]
    exact .error left

theorem carries_mapM {value : α → β} {code : γ → δ} {act : γ → EStateM ε σ α}
    {image : δ → EStateM ε σ β} (cs : List γ)
    (each : ∀ c, Carries κ value (act c) (image (code c))) :
    Carries κ (List.map value) (cs.mapM act) ((cs.map code).mapM image) := by
  induction cs with
  | nil => exact carries_pure rfl
  | cons c cs ih =>
    rw [List.map_cons, List.mapM_cons, List.mapM_cons]
    exact carries_bind (each c) fun a => carries_bind ih fun as => carries_pure rfl

theorem carries_forM {code : γ → δ} {act : γ → EStateM ε σ Unit} {image : δ → EStateM ε σ Unit}
    (cs : List γ) (each : ∀ c, Carries κ id (act c) (image (code c))) :
    Carries κ id (cs.forM act) ((cs.map code).forM image) := by
  induction cs with
  | nil => exact carries_pure rfl
  | cons c cs ih => exact carries_bind (each c) fun _ => ih

end

section

variable (r : Renaming)

theorem Expr.renameAll_eq (es : List Expr) : Expr.renameAll r es = es.map (Expr.rename r) := by
  induction es with
  | nil => rfl
  | cons e es ih => rw [Expr.renameAll, ih, List.map_cons]

theorem Stmt.renameAll_eq (ss : List Stmt) : Stmt.renameAll r ss = ss.map (Stmt.rename r) := by
  induction ss with
  | nil => rfl
  | cons s ss ih => rw [Stmt.renameAll, ih, List.map_cons]

theorem Case.renameAll_eq (cs : List Case) : Case.renameAll r cs = cs.map (Case.rename r) := by
  induction cs with
  | nil => rfl
  | cons c cs ih => rw [Case.renameAll, ih, List.map_cons]

end

end Plc

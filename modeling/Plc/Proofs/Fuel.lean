import Plc.Outcome

/-!
More fuel. It changes no result but that there was too little of it: whatever an evaluation ends
with, it ends with the same when it is given more.
-/

namespace Plc

namespace Eval

variable {rule : DivisionScale} {α β γ : Type}

theorem bind_of_ok {ε σ : Type} {act : EStateM ε σ α} {next : α → EStateM ε σ β} {m n : σ} {a : α}
    (ended : act m = .ok a n) : (act >>= next) m = next a n := by
  show EStateM.bind act next m = next a n
  simp only [EStateM.bind, ended]

theorem bind_of_error {ε σ : Type} {act : EStateM ε σ α} {next : α → EStateM ε σ β} {m n : σ}
    {e : ε} (ended : act m = .error e n) : (act >>= next) m = .error e n := by
  show EStateM.bind act next m = .error e n
  simp only [EStateM.bind, ended]

theorem bind_of_same {ε σ : Type} {act act' : EStateM ε σ α} {m : σ} (same : act m = act' m)
    (next : α → EStateM ε σ β) : (act >>= next) m = (act' >>= next) m := by
  show EStateM.bind act next m = EStateM.bind act' next m
  simp only [EStateM.bind, same]

/-- `more` ends as `less` does, unless `less` is out of fuel. -/
def Outlasts (more less : Eval α) : Prop :=
  ∀ m, (∃ n, less m = .error .exhausted n) ∨ more m = less m

theorem outlasts_refl (act : Eval α) : Outlasts act act := fun _ => .inr rfl

theorem outlasts_trans {most more less : Eval α} (first : Outlasts most more)
    (second : Outlasts more less) : Outlasts most less := by
  intro m
  rcases second m with out | same
  · exact .inl out
  · rw [← same]
    exact first m

theorem outlasts_exhausted (act : Eval α) : Outlasts act (throw .exhausted) :=
  fun m => .inl ⟨m, rfl⟩

theorem outlasts_bind {more less : Eval α} {after before : α → Eval β} (first : Outlasts more less)
    (rest : ∀ a, Outlasts (after a) (before a)) :
    Outlasts (more >>= after) (less >>= before) := by
  intro m
  show (∃ n, EStateM.bind less before m = .error .exhausted n) ∨
    EStateM.bind more after m = EStateM.bind less before m
  rcases first m with ⟨n, out⟩ | same
  · left
    exact ⟨n, by simp only [EStateM.bind, out]⟩
  · simp only [EStateM.bind, same]
    cases less m with
    | ok a n => exact rest a n
    | error e n => exact .inr rfl

/-- The way on is the same, whatever it is. -/
theorem outlasts_then {more less : Eval α} (first : Outlasts more less) (next : α → Eval β) :
    Outlasts (more >>= next) (less >>= next) :=
  outlasts_bind first fun a => outlasts_refl (next a)

/-- The start is the same, whatever it is. -/
theorem outlasts_from (act : Eval α) {after before : α → Eval β}
    (rest : ∀ a, Outlasts (after a) (before a)) : Outlasts (act >>= after) (act >>= before) :=
  outlasts_bind (outlasts_refl act) rest

theorem outlasts_inScope {more less : Eval α} (inner : Outlasts more less) (scope : Nat) :
    Outlasts (inScope scope more) (inScope scope less) := by
  intro m
  simp only [inScope]
  rcases inner { m with current := scope } with ⟨n, out⟩ | same
  · left
    exact ⟨{ n with current := m.current }, by rw [out]⟩
  · right
    rw [same]

theorem outlasts_inChildOf {more less : Eval α} (inner : Outlasts more less) (parent : Nat) :
    Outlasts (inChildOf parent more) (inChildOf parent less) :=
  fun m => outlasts_inScope inner m.scopes.next { m with scopes := m.scopes.addChild parent }

theorem outlasts_inChild {more less : Eval α} (inner : Outlasts more less) :
    Outlasts (inChild more) (inChild less) := fun m => outlasts_inChildOf inner m.current m

theorem outlasts_mapM {more less : γ → Eval α} (each : ∀ c, Outlasts (more c) (less c))
    (cs : List γ) : Outlasts (cs.mapM more) (cs.mapM less) := by
  induction cs with
  | nil => exact outlasts_refl _
  | cons c cs ih =>
    simp only [List.mapM_cons]
    exact outlasts_bind (each c) fun a => outlasts_then ih _

theorem outlasts_forM {more less : γ → Eval Unit} (each : ∀ c, Outlasts (more c) (less c))
    (cs : List γ) : Outlasts (cs.forM more) (cs.forM less) := by
  induction cs with
  | nil => exact outlasts_refl _
  | cons c cs ih => exact outlasts_bind (each c) fun _ => ih

theorem outlasts_sequence {more less : Stmt → Eval Flow} (each : ∀ s, Outlasts (more s) (less s))
    (ss : List Stmt) : Outlasts (sequence more ss) (sequence less ss) := by
  induction ss with
  | nil => exact outlasts_refl _
  | cons s ss ih =>
    apply outlasts_bind (each s)
    intro flow
    cases flow with
    | next => exact ih
    | returned v => exact outlasts_refl _

theorem outlasts_matching {more less : Expr → Eval Value} (each : ∀ e, Outlasts (more e) (less e))
    (v : Value) (arms : List Case) : Outlasts (matching more v arms) (matching less v arms) := by
  induction arms with
  | nil => exact outlasts_refl _
  | cons c cs ih =>
    obtain ⟨value, body⟩ := c
    cases value with
    | none => exact ih
    | some e =>
      apply outlasts_bind (each e)
      intro w
      apply outlasts_from
      intro same
      cases same with
      | true => exact outlasts_refl _
      | false => exact ih

variable (rule)

structure OutlastsAt (more less : Nat) : Prop where
  evaluate : ∀ e, Outlasts (evaluate rule more e) (evaluate rule less e)
  condition : ∀ e, Outlasts (condition rule more e) (condition rule less e)
  invoke : ∀ f vs, Outlasts (invoke rule more f vs) (invoke rule less f vs)
  execute : ∀ s, Outlasts (execute rule more s) (execute rule less s)
  assign : ∀ receiver value,
    Outlasts (assign rule more receiver value) (assign rule less receiver value)
  repeatWhile : ∀ c body, Outlasts (repeatWhile rule more c body) (repeatWhile rule less c body)

variable {rule} {more less : Nat}

theorem outlasts_evaluate (ih : OutlastsAt rule more less) (e : Expr) :
    Outlasts (evaluate rule (more + 1) e) (evaluate rule (less + 1) e) := by
  cases e with
  | literal value slot => exact outlasts_refl _
  | group inner slot => exact ih.evaluate inner
  | binary op left right slot =>
    cases op with
    | and =>
      apply outlasts_bind (ih.condition left)
      intro b
      cases b with
      | true => exact outlasts_then (ih.condition right) _
      | false => exact outlasts_refl _
    | or =>
      apply outlasts_bind (ih.condition left)
      intro b
      cases b with
      | true => exact outlasts_refl _
      | false => exact outlasts_then (ih.condition right) _
    | _ => exact outlasts_bind (ih.evaluate left) fun l => outlasts_then (ih.evaluate right) _
  | access name record slot => exact outlasts_refl _
  | element name index record slot =>
    exact outlasts_from _ fun i => outlasts_from _ fun c => outlasts_from _ fun place =>
      outlasts_then (ih.evaluate index) _
  | call name args signature slot =>
    exact outlasts_from _ fun f => outlasts_bind (outlasts_mapM ih.evaluate args) (ih.invoke f)
  | list es slot => exact outlasts_then (outlasts_mapM ih.evaluate es) _

theorem outlasts_invoke (ih : OutlastsAt rule more less) (f : Callable) (vs : List Value) :
    Outlasts (invoke rule (more + 1) f vs) (invoke rule (less + 1) f vs) := by
  cases f with
  | print => exact outlasts_refl _
  | function d scope =>
    have body : Outlasts
        (inChildOf scope (bindParameters d.parameters vs >>= fun _ =>
          sequence (execute rule more) d.body))
        (inChildOf scope (bindParameters d.parameters vs >>= fun _ =>
          sequence (execute rule less) d.body)) :=
      outlasts_inChildOf (outlasts_from _ fun _ => outlasts_sequence ih.execute d.body) scope
    apply outlasts_from
    intro m
    cases m.isAlive scope with
    | true => exact outlasts_then body _
    | false => exact outlasts_from _ fun _ => outlasts_then body _

theorem outlasts_execute (ih : OutlastsAt rule more less) (s : Stmt) :
    Outlasts (execute rule (more + 1) s) (execute rule (less + 1) s) := by
  cases s with
  | expression e => exact outlasts_then (ih.evaluate e) _
  | declaration name typeName value record =>
    cases value with
    | none => exact outlasts_refl _
    | some e => exact outlasts_then (ih.evaluate e) _
  | assignment receiver value => exact outlasts_then (ih.assign receiver value) _
  | conditional c whenTrue whenFalse =>
    exact outlasts_bind (ih.condition c) fun b =>
      outlasts_inChild (outlasts_sequence ih.execute _)
  | switch c arms =>
    refine outlasts_bind (ih.evaluate c) fun v => outlasts_inChild ?_
    apply outlasts_bind (outlasts_matching ih.evaluate v arms)
    intro body
    cases body <|> defaultBody arms with
    | some body => exact outlasts_inChild (outlasts_sequence ih.execute body)
    | none => exact outlasts_refl _
  | loop c body => exact ih.repeatWhile c body
  | «return» e => exact outlasts_then (ih.evaluate e) _

theorem outlasts_assign (ih : OutlastsAt rule more less) (receiver value : Expr) :
    Outlasts (assign rule (more + 1) receiver value) (assign rule (less + 1) receiver value) := by
  cases receiver with
  | access name record slot =>
    apply outlasts_from
    intro i
    apply outlasts_from
    intro c
    obtain ⟨_, mutable, _⟩ := c
    cases mutable with
    | true => exact outlasts_then (ih.evaluate value) _
    | false => exact outlasts_from _ fun _ => outlasts_then (ih.evaluate value) _
  | element name index record slot =>
    exact outlasts_from _ fun i => outlasts_from _ fun c => outlasts_from _ fun place =>
      outlasts_bind (ih.evaluate index) fun k => outlasts_then (ih.evaluate value) _
  | literal | group | binary | call | list => exact outlasts_refl _

theorem outlasts_repeatWhile (ih : OutlastsAt rule more less) (c : Expr) (body : List Stmt) :
    Outlasts (repeatWhile rule (more + 1) c body) (repeatWhile rule (less + 1) c body) := by
  apply outlasts_bind (ih.condition c)
  intro b
  cases b with
  | false => exact outlasts_refl _
  | true =>
    apply outlasts_bind (outlasts_inChild (outlasts_sequence ih.execute body))
    intro flow
    cases flow with
    | next => exact ih.repeatWhile c body
    | returned v => exact outlasts_refl _

theorem outlastsAt_succ (ih : OutlastsAt rule more less) :
    OutlastsAt rule (more + 1) (less + 1) :=
  ⟨outlasts_evaluate ih, fun e => outlasts_then (ih.evaluate e) boolean, outlasts_invoke ih,
    outlasts_execute ih, outlasts_assign ih, outlasts_repeatWhile ih⟩

/-- More fuel changes no result that is there with less. -/
theorem outlastsAt_of_le (enough : less ≤ more) : OutlastsAt rule more less := by
  induction less generalizing more with
  | zero => constructor <;> intros <;> exact outlasts_exhausted _
  | succ less ih =>
    obtain ⟨more, rfl⟩ := Nat.exists_eq_add_of_lt enough
    exact outlastsAt_succ (ih (Nat.le_add_right less more))

theorem outlasts_defineGlobal (enough : less ≤ more) (g : Global) :
    Outlasts (defineGlobal rule more g) (defineGlobal rule less g) := by
  obtain ⟨name, typeName, mutable, list, value, record⟩ := g
  cases value with
  | some e => exact outlasts_then ((outlastsAt_of_le enough).evaluate e) _
  | none => exact outlasts_refl _

theorem outlasts_program (enough : less ≤ more) (p : Program) :
    Outlasts (program rule more p) (program rule less p) := by
  apply outlasts_bind (outlasts_forM (outlasts_defineGlobal enough) p.globals)
  intro _
  apply outlasts_from
  intro _
  apply outlasts_from
  intro m
  apply outlasts_from
  intro n
  cases m.scopes.findFunction? n.current "main" 0 with
  | none => exact outlasts_refl _
  | some main => exact outlasts_then ((outlastsAt_of_le enough).invoke main []) _

theorem evaluate_of_le (enough : less ≤ more) {e : Expr} {m n : Machine} {v : Value}
    (ended : evaluate rule less e m = .ok v n) : evaluate rule more e m = .ok v n := by
  have outlasts : Outlasts (evaluate rule more e) (evaluate rule less e) :=
    (outlastsAt_of_le enough).evaluate e
  rcases outlasts m with ⟨_, out⟩ | same
  · rw [ended] at out
    cases out
  · rw [same, ended]

structure Ends (act : Nat → Eval α) (m : Machine) (ending : EStateM.Result Halt Machine α) :
    Prop where
  whole : ∀ n, ending ≠ .error .exhausted n
  enough : ∃ fuel, ∀ more ≥ fuel, act more m = ending

/-- One fuel is enough for an action that more fuel does not change. -/
theorem ends_of_eq {act : Nat → Eval α} {m : Machine} {ending : EStateM.Result Halt Machine α}
    (monotone : ∀ less more, less ≤ more → Outlasts (act more) (act less)) {fuel : Nat}
    (ended : act fuel m = ending) (whole : ∀ n, ending ≠ .error .exhausted n) :
    Ends act m ending := by
  refine ⟨whole, fuel, fun more enough => ?_⟩
  rcases monotone fuel more enough m with ⟨n, out⟩ | same
  · exact absurd (ended.symm.trans out) (whole n)
  · exact same.trans ended

theorem ends_of_outlasts {act other : Nat → Eval α} {m : Machine}
    {ending : EStateM.Result Halt Machine α}
    (monotone : ∀ less more, less ≤ more → Outlasts (other more) (other less))
    (beyond : ∀ fuel, ∃ more, Outlasts (other more) (act fuel)) (ends : Ends act m ending) :
    Ends other m ending := by
  obtain ⟨fuel, ended⟩ := ends.enough
  obtain ⟨more, outlasts⟩ := beyond fuel
  rcases outlasts m with ⟨n, out⟩ | same
  · exact absurd ((ended fuel (Nat.le_refl _)).symm.trans out) (ends.whole n)
  · exact ends_of_eq monotone (same.trans (ended fuel (Nat.le_refl _))) ends.whole

end Eval

/-- A run that ends with some fuel ends with the same result when there is more of it. -/
theorem Machine.run_of_le {rule : DivisionScale} {less more : Nat} (enough : less ≤ more)
    (m : Machine) (p : Program) (ends : (m.run rule less p).1.ending ≠ .exhausted) :
    m.run rule more p = m.run rule less p := by
  unfold Machine.run at ends ⊢
  have outlasts : Eval.Outlasts (Eval.program rule more p) (Eval.program rule less p) :=
    Eval.outlasts_program enough p
  rcases outlasts { m with output := #[] } with ⟨n, out⟩ | same
  · rw [out] at ends
    exact absurd rfl ends
  · rw [same]

end Plc

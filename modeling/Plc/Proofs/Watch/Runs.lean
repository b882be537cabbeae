import Plc.Proofs.Watch.Faithful

/-!
How to reason about a watched evaluation. `Runs r bad h act good` says of `act`, begun in `h`, that
it ends in a history that `r` relates to `h`, and there either with a value that is `good` or for a
reason that is `bad`. It is proved of a sequence of actions from one for each of them.
-/

namespace Plc.Watched

variable {α β γ : Type}

def Runs (r : History → History → Prop) (bad : Halt → History → Prop) (h : History)
    (act : Watched α) (good : α → History → Prop) : Prop :=
  match act h with
  | .ok a k => r h k ∧ good a k
  | .error e k => r h k ∧ bad e k

section

variable {r : History → History → Prop} {bad : Halt → History → Prop} {h : History}

theorem runs_pure {a : α} {good : α → History → Prop} (same : r h h) (value : good a h) :
    Runs r bad h (pure a) good := ⟨same, value⟩

theorem runs_throw {e : Halt} {good : α → History → Prop} (same : r h h) (reason : bad e h) :
    Runs r bad h (throw e) good := ⟨same, reason⟩

theorem runs_bind {act : Watched α} {next : α → Watched β} {good : α → History → Prop}
    {result : β → History → Prop} (trans : ∀ {k l}, r h k → r k l → r h l)
    (first : Runs r bad h act good)
    (rest : ∀ a k, r h k → good a k → Runs r bad k (next a) result) :
    Runs r bad h (act >>= next) result := by
  show (match EStateM.bind act next h with | .ok a k => _ | .error e k => _)
  unfold Runs at first
  unfold EStateM.bind
  cases ha : act h with
  | error e k =>
    rw [ha] at first
    exact first
  | ok a k =>
    rw [ha] at first
    have second := rest a k first.1 first.2
    unfold Runs at second
    dsimp only
    cases hb : next a k with
    | error e l => rw [hb] at second; exact ⟨trans first.1 second.1, second.2⟩
    | ok b l => rw [hb] at second; exact ⟨trans first.1 second.1, second.2⟩

/-- One action after another, each with a relation of its own. -/
theorem runs_chain {s : History → History → Prop} {act : Watched α} {next : α → Watched β}
    {good : α → History → Prop} {result : β → History → Prop} (first : Runs r bad h act good)
    (stops : ∀ k, r h k → s h k)
    (rest : ∀ a k, r h k → good a k → Runs (fun _ => s h) bad k (next a) result) :
    Runs s bad h (act >>= next) result := by
  show (match EStateM.bind act next h with | .ok a k => _ | .error e k => _)
  unfold Runs at first
  unfold EStateM.bind
  cases ended : act h with
  | error e k =>
    rw [ended] at first
    exact ⟨stops k first.1, first.2⟩
  | ok a k =>
    rw [ended] at first
    exact rest a k first.1 first.2

theorem runs_get {next : History → Watched α} {good : α → History → Prop}
    (rest : Runs r bad h (next h) good) : Runs r bad h (get >>= next) good := rest

theorem runs_imp {act : Watched α} {good better : α → History → Prop}
    (runs : Runs r bad h act good) (weaker : ∀ a k, r h k → good a k → better a k) :
    Runs r bad h act better := by
  unfold Runs at runs ⊢
  cases ha : act h with
  | error e k => rw [ha] at runs; exact runs
  | ok a k => rw [ha] at runs; exact ⟨runs.1, weaker a k runs.1 runs.2⟩

/-- Another relation and other reasons, as long as they follow at every ending. -/
theorem runs_mono {s : History → History → Prop} {worse : Halt → History → Prop}
    {act : Watched α} {good : α → History → Prop} (runs : Runs r bad h act good)
    (relation : ∀ k, r h k → s h k) (reason : ∀ e k, bad e k → worse e k) :
    Runs s worse h act good := by
  unfold Runs at runs ⊢
  cases ha : act h with
  | error e k => rw [ha] at runs; exact ⟨relation k runs.1, reason e k runs.2⟩
  | ok a k => rw [ha] at runs; exact ⟨relation k runs.1, runs.2⟩

/-- What is known of an action in two ways is known of it together. -/
theorem runs_and {s : History → History → Prop} {worse : Halt → History → Prop}
    {act : Watched α} {good other : α → History → Prop} (first : Runs r bad h act good)
    (second : Runs s worse h act other) :
    Runs (fun h k => r h k ∧ s h k) (fun e k => bad e k ∧ worse e k) h act fun a k =>
      good a k ∧ other a k := by
  unfold Runs at first second ⊢
  cases ha : act h with
  | error e k =>
    rw [ha] at first second
    exact ⟨⟨first.1, second.1⟩, first.2, second.2⟩
  | ok a k =>
    rw [ha] at first second
    exact ⟨⟨first.1, second.1⟩, first.2, second.2⟩

/-- Entering a new scope and leaving it, on every way out. Inside, another relation may hold. -/
theorem runs_inChildOf {inside : History → History → Prop} {parent : Nat} {act : Watched α}
    {good inner : α → History → Prop}
    (body : Runs inside bad (h.reach (h.machine.entered parent)) act inner)
    (leave : ∀ k, inside (h.reach (h.machine.entered parent)) k →
      r h (k.reach (k.machine.backIn h.machine.current)))
    (stops : ∀ e k, bad e k → bad e (k.reach (k.machine.backIn h.machine.current)))
    (value : ∀ a k, inside (h.reach (h.machine.entered parent)) k → inner a k →
      good a (k.reach (k.machine.backIn h.machine.current))) :
    Runs r bad h (inChildOf parent act) good := by
  unfold Runs at body ⊢
  unfold inChildOf
  cases ha : act (h.reach (h.machine.entered parent)) with
  | error e k =>
    rw [ha] at body
    exact ⟨leave k body.1, stops e k body.2⟩
  | ok a k =>
    rw [ha] at body
    exact ⟨leave k body.1, value a k body.1 body.2⟩

/-- What has to be said of a step is said of the state that it leads to. -/
theorem runs_step {act : Eval α} {good : α → History → Prop}
    (ends : match act h.machine with
      | .ok a m => r h (h.reach m) ∧ good a (h.reach m)
      | .error e m => r h (h.reach m) ∧ bad e (h.reach m)) : Runs r bad h (step act) good := by
  unfold Runs step
  cases ha : act h.machine with
  | error e m => rw [ha] at ends; exact ends
  | ok a m => rw [ha] at ends; exact ends

def Looks (act : Eval α) : Prop := ∀ m, (∃ a, act m = .ok a m) ∨ ∃ e, act m = .error e m

theorem runs_look {act : Eval α} {good : α → History → Prop} (looks : Looks act)
    (stays : r h (h.reach h.machine))
    (value : ∀ a, act h.machine = .ok a h.machine → good a (h.reach h.machine))
    (reason : ∀ e, act h.machine = .error e h.machine → bad e (h.reach h.machine)) :
    Runs r bad h (step act) good := by
  refine runs_step ?_
  rcases looks h.machine with ⟨a, ha⟩ | ⟨e, he⟩
  · rw [ha]
    exact ⟨stays, value a ha⟩
  · rw [he]
    exact ⟨stays, reason e he⟩

/-- Actions for the members of a list, one after the other. What is said of a value has to last. -/
theorem runs_mapM {act : γ → Watched α} {valid : α → History → Prop} (cs : List γ)
    (same : r h h) (self : ∀ {k l}, r k l → r l l) (trans : ∀ {k l m}, r k l → r l m → r k m)
    (lasts : ∀ {k l a}, r k l → valid a k → valid a l)
    (each : ∀ c ∈ cs, ∀ k, r h k → Runs r bad k (act c) valid) :
    Runs r bad h (cs.mapM act) (fun as k => ∀ a ∈ as, valid a k) := by
  induction cs generalizing h with
  | nil => exact runs_pure same (by simp)
  | cons c cs ih =>
    rw [List.mapM_cons]
    apply runs_bind trans (each c List.mem_cons_self h same)
    intro a k hk ha
    have others := ih (self hk) fun d hd l hl => each d (List.mem_cons_of_mem c hd) l (trans hk hl)
    refine runs_bind trans others fun as l hl has => runs_pure (self hl) ?_
    intro b hb
    rcases List.mem_cons.mp hb with rfl | hb
    · exact lasts hl ha
    · exact has b hb

end

theorem runs_program {r : History → History → Prop} {bad : Halt → History → Prop} {m : Machine}
    {rule : DivisionScale} {fuel : Nat} {p : Program} {good : Int → History → Prop}
    (runs : Runs r bad (.start { m with output := #[] }) (program rule fuel p) good) :
    r (.start { m with output := #[] }) (m.history rule fuel p) ∧
      match (m.run rule fuel p).1.ending with
      | .exit n => good n (m.history rule fuel p)
      | .error e => bad (.error e) (m.history rule fuel p)
      | .overflow => bad .overflow (m.history rule fuel p)
      | .exhausted => bad .exhausted (m.history rule fuel p) := by
  have f : _ = Eval.program rule fuel p { m with output := #[] } :=
    follows_program rule fuel p (.start { m with output := #[] })
  unfold Runs at runs
  unfold Machine.history Machine.run
  rw [← f]
  cases ended : program rule fuel p (.start { m with output := #[] }) with
  | ok n h =>
    rw [ended] at runs
    exact runs
  | error e h =>
    rw [ended] at runs
    cases e <;> exact runs

theorem looks_fail (e : RuntimeError) : Looks (Eval.fail e : Eval α) := fun _ => .inr ⟨_, rfl⟩

theorem looks_cellNamed (name : String) : Looks (Eval.cellNamed name) := by
  intro m
  unfold Eval.cellNamed
  cases m.cell? name with
  | some i => exact .inl ⟨i, rfl⟩
  | none => exact .inr ⟨_, rfl⟩

theorem looks_cell (i : Nat) : Looks (Eval.cell i) := fun _ => .inl ⟨_, rfl⟩

theorem looks_callableNamed (name : String) (arity : Nat) :
    Looks (Eval.callableNamed name arity) := by
  intro m
  unfold Eval.callableNamed
  cases m.scopes.findFunction? m.current name arity with
  | some f => exact .inl ⟨f, rfl⟩
  | none => exact .inr ⟨_, rfl⟩

theorem looks_elements (place : Nat) : Looks (Eval.elements place) := fun _ => .inl ⟨_, rfl⟩

theorem looks_onHeap (f : Heap → Except Halt α) : Looks (Eval.onHeap f) := by
  intro m
  unfold Eval.onHeap Eval.lift
  cases f m.heap with
  | ok a => exact .inl ⟨a, rfl⟩
  | error e => exact .inr ⟨e, rfl⟩

theorem looks_listOf (c : Cell) : Looks (Eval.listOf c) := by
  intro m
  unfold Eval.listOf
  cases c.value with
  | list place => exact .inl ⟨place, rfl⟩
  | _ => exact .inr ⟨_, rfl⟩

theorem looks_position (length : Nat) (v : Value) : Looks (Eval.position length v) := by
  intro m
  cases v with
  | integer n =>
    by_cases inside : 0 ≤ n ∧ n < length
    · exact .inl ⟨n.toNat, by simp only [Eval.position, if_pos inside]; rfl⟩
    · exact .inr ⟨_, by simp only [Eval.position, if_neg inside]; rfl⟩
  | _ => exact .inr ⟨_, rfl⟩

theorem looks_boolean (v : Value) : Looks (Eval.boolean v) := by
  intro m
  cases v with
  | boolean b => exact .inl ⟨b, rfl⟩
  | _ => exact .inr ⟨_, rfl⟩

theorem print_one (v : Value) (m : Machine) :
    (∃ line, Eval.print [v] m = .ok .nil (m.printing line)) ∨
      Eval.print [v] m = .error .exhausted m := by
  show (∃ line, EStateM.bind _ _ m = _) ∨ EStateM.bind _ _ m = _
  unfold EStateM.bind Eval.onHeap Eval.lift Operation.text
  dsimp only
  cases v.text? m.heap m.heap.size with
  | some line => exact .inl ⟨line, rfl⟩
  | none => exact .inr rfl

theorem looks_mainResult (v : Value) : Looks (Eval.mainResult v) := by
  intro m
  cases v with
  | integer n => exact .inl ⟨n, rfl⟩
  | _ => exact .inr ⟨_, rfl⟩

def Errs (act : Eval α) : Prop := ∀ m e n, act m = .error e n → ∃ cause, e = .error cause

theorem errs_fail (e : RuntimeError) : Errs (Eval.fail e : Eval α) := by
  intro m reason n ended
  cases ended
  exact ⟨e, rfl⟩

theorem errs_defineFunction (f : Function) : Errs (Eval.defineFunction f) := by
  intro m e n ended
  unfold Eval.defineFunction at ended
  split at ended <;> cases ended
  exact ⟨_, rfl⟩

theorem errs_cellNamed (name : String) : Errs (Eval.cellNamed name) := by
  intro m e n ended
  unfold Eval.cellNamed at ended
  split at ended <;> cases ended
  exact ⟨_, rfl⟩

theorem errs_callableNamed (name : String) (arity : Nat) :
    Errs (Eval.callableNamed name arity) := by
  intro m e n ended
  unfold Eval.callableNamed at ended
  split at ended <;> cases ended
  exact ⟨_, rfl⟩

theorem errs_cell (i : Nat) : Errs (Eval.cell i) := fun _ _ _ ended => by cases ended

theorem errs_elements (place : Nat) : Errs (Eval.elements place) := fun _ _ _ ended => by
  cases ended

theorem errs_listOf (c : Cell) : Errs (Eval.listOf c) := by
  intro m e n ended
  unfold Eval.listOf at ended
  cases held : c.value <;> rw [held] at ended <;> cases ended <;> exact ⟨_, rfl⟩

theorem errs_position (length : Nat) (v : Value) : Errs (Eval.position length v) := by
  intro m e n ended
  unfold Eval.position at ended
  split at ended
  · split at ended <;> cases ended
    exact ⟨_, rfl⟩
  · cases ended
    exact ⟨_, rfl⟩

theorem errs_boolean (v : Value) : Errs (Eval.boolean v) := by
  intro m e n ended
  cases v <;> cases ended <;> exact ⟨_, rfl⟩

theorem errs_mainResult (v : Value) : Errs (Eval.mainResult v) := by
  intro m e n ended
  cases v <;> cases ended <;> exact ⟨_, rfl⟩

end Plc.Watched

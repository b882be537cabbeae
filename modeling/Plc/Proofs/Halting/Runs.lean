import Plc.Proofs.Halting

/-!
Fuel for the depth of a tree is enough for its evaluation. The induction is on the fuel; what is
called later is met in a state that is ready too, since every evaluation leaves one behind.
-/

namespace Plc.Halting

open Watched

variable {rule : DivisionScale} {cost : Costs} {fuel : Nat} {α β γ : Type} {h k : History}

theorem steady_evaluate (fuel : Nat) (e : Expr) (ready : Ready cost h.machine) :
    Steady rule cost h (evaluate rule fuel e) Valid :=
  runs_imp (steady_of_stays ((StoreLaw.kept_at _ fuel).evaluate e h ready.acyclic)
    ((ScopeLaw.law_at _ rule fuel).evaluate e ready.priced)) fun _ _ _ both => both.1

theorem steady_condition (fuel : Nat) (e : Expr) (ready : Ready cost h.machine) :
    Steady rule cost h (condition rule fuel e) fun _ _ => True :=
  runs_imp (steady_of_stays ((StoreLaw.kept_at _ fuel).condition e h ready.acyclic)
    ((ScopeLaw.law_at _ rule fuel).condition e ready.priced)) fun _ _ _ _ => trivial

theorem steady_execute (fuel : Nat) (s : Stmt) (ready : Ready cost h.machine) :
    Steady rule cost h (execute rule fuel s) (StoreLaw.acyclic rule).ValidFlow :=
  steady_of_opens ((StoreLaw.kept_at _ fuel).execute s h ready.acyclic)
    ((ScopeLaw.law_at _ rule fuel).execute s ready.priced)

theorem steady_arguments (fuel : Nat) (es : List Expr) (ready : Ready cost h.machine) :
    Steady rule cost h (es.mapM (evaluate rule fuel)) fun vs k => ∀ v ∈ vs, Valid v k :=
  runs_imp (steady_of_stays (StoreLaw.keeps_evaluateAll (StoreLaw.kept_at _ fuel) es ready.acyclic)
    (ScopeLaw.stays_mapM es ready.priced fun e _ => (ScopeLaw.law_at _ rule fuel).evaluate e))
    fun _ _ _ both => both.1

theorem steady_resolve (record : Option Variable) (name : String) (ready : Ready cost h.machine) :
    Steady rule cost h (resolve record name) fun _ _ => True :=
  runs_imp (steady_of_stays (StoreLaw.keeps_resolve record name ready.acyclic)
    (ScopeLaw.stays_resolve record name ready.priced)) fun _ _ _ _ => trivial

theorem steady_callableNamed (name : String) (arity : Nat) (ready : Ready cost h.machine) :
    Steady rule cost h (step (Eval.callableNamed name arity)) fun f _ =>
      f.Priced cost name arity :=
  runs_imp (steady_of_stays (StoreLaw.keeps_glance ready.acyclic (looks_callableNamed name arity))
    (ScopeLaw.stays_callableNamed name arity ready.priced)) fun _ _ _ both => both.2

theorem steady_bindParameters (ps : List Parameter) (types : List Ty) {vs : List Value}
    (ready : Ready cost h.machine) (valid : ∀ v ∈ vs, Valid v h) :
    Steady rule cost h (bindParameters ps types vs) fun _ _ => True :=
  steady_of_opens (StoreLaw.keeps_bindParameters ps types vs ready.acyclic valid)
    (ScopeLaw.opens_bindParameters ps types vs ready.priced)

theorem steady_invoked (f : Callable) (vs : List Value) (ready : Ready cost h.machine)
    (valid : ∀ v ∈ vs, Valid v h) :
    Steady rule cost h (note (.invoked f vs)) fun _ _ => True :=
  ⟨⟨StoreLaw.kept_note _ _ ready.acyclic valid, ready.priced⟩, trivial⟩

theorem steady_called (e : Expr) (f : Callable) (ready : Ready cost h.machine) :
    Steady rule cost h (note (.called e f)) fun _ _ => True :=
  ⟨⟨StoreLaw.kept_note _ _ ready.acyclic trivial, ready.priced⟩, trivial⟩

/-- What is chosen is the body of one of the arms. -/
theorem runs_matching_among {act : Expr → Watched Value} (v : Value) (arms : List Case) :
    Runs (fun _ _ => True) (fun _ _ => True) h (matching act v arms) fun body _ =>
      ∀ ss, body = some ss → ∃ arm ∈ arms, arm.body = ss := by
  have any : ∀ {δ : Type} (act : Watched δ) h,
      Runs (fun _ _ => True) (fun _ _ => True) h act fun _ _ => True := by
    intro δ act h
    unfold Runs
    cases act h <;> exact ⟨trivial, trivial⟩
  have later : ∀ {c : Case} {cs : List Case} {ss : List Stmt},
      (∃ arm ∈ cs, arm.body = ss) → ∃ arm ∈ c :: cs, arm.body = ss :=
    fun ⟨arm, member, is⟩ => ⟨arm, List.mem_cons_of_mem _ member, is⟩
  induction arms generalizing h with
  | nil => exact runs_pure trivial nofun
  | cons c cs ih =>
    obtain ⟨value, body⟩ := c
    cases value with
    | none => exact runs_imp ih fun _ _ _ among ss is => later (among ss is)
    | some e =>
      apply runs_bind (fun _ _ => trivial) (any (act e) h)
      intro w k _ _
      apply runs_bind (fun _ _ => trivial) (any _ k)
      intro same l _ _
      cases same with
      | true =>
        refine runs_pure trivial ?_
        rintro ss ⟨⟩
        exact ⟨_, List.mem_cons_self, rfl⟩
      | false => exact runs_imp ih fun _ _ _ among ss is => later (among ss is)

theorem steady_matching (fuel : Nat) (v : Value) (arms : List Case)
    (ready : Ready cost h.machine) :
    Steady rule cost h (matching (evaluate rule fuel) v arms) fun body _ =>
      ∀ ss, body = some ss → ∃ arm ∈ arms, arm.body = ss := by
  have steady : Steady rule cost h (matching (evaluate rule fuel) v arms) _ :=
    steady_of_stays (StoreLaw.keeps_matching (StoreLaw.kept_at _ fuel) v arms ready.acyclic)
      (ScopeLaw.stays_matching v arms ready.priced fun e _ =>
        (ScopeLaw.law_at _ rule fuel).evaluate e)
  exact runs_imp (runs_mono (runs_and steady (runs_matching_among v arms))
    (fun _ both => both.1) fun _ _ _ => trivial) fun _ _ _ both => both.2

/-- What follows asks for nothing. -/
theorem alive_then {act : Watched α} {next : α → Watched β} (first : Alive h act)
    (rest : ∀ a k, Alive k (next a)) : Alive h (act >>= next) :=
  runs_bind (fun _ _ => trivial) first fun a k _ _ => rest a k

/-- No operator is applied at first, so the rule is of no account there. -/
theorem alive_after {act : Watched α} {next : α → Watched β} {good : α → History → Prop}
    (steady : Steady .dividend cost h act good) (first : Alive h act)
    (rest : ∀ a k, Ready cost k.machine → Alive k (next a)) : Alive h (act >>= next) :=
  alive_bind steady first fun a k onward _ => rest a k onward.ready

theorem alive_resolve (record : Option Variable) (name : String) :
    Alive h (resolve record name) :=
  alive_then (alive_errs (errs_cellNamed name)) fun i _ =>
    alive_then (alive_note _) fun _ _ => alive_pure i

theorem alive_newList (vs : List Value) : Alive h (step (Eval.newList vs)) :=
  alive_step fun _ ended => by cases ended

theorem alive_define (record : Option Variable) (name : String) (mutable : Bool) (v : Value) :
    Alive h (define record name mutable v) := by
  unfold Alive Runs define Eval.define
  cases h.machine.scopes.variableClash? h.machine.current name with
  | some r => exact ⟨trivial, nofun⟩
  | none => exact ⟨trivial, trivial⟩

theorem alive_bindParameters (ps : List Parameter) (types : List Ty) (vs : List Value) :
    Alive h (bindParameters ps types vs) := by
  induction ps generalizing types vs h with
  | nil => exact alive_pure ()
  | cons p ps ih =>
    cases vs with
    | nil => exact alive_pure ()
    | cons v vs => exact alive_then (alive_define _ _ _ _) fun _ _ => ih types.tail vs

theorem alive_print {vs : List Value} (ready : Ready cost h.machine)
    (valid : ∀ v ∈ vs, Valid v h) : Alive h (step (Eval.print vs)) := by
  refine alive_step fun n ended => ?_
  cases vs with
  | nil => cases ended
  | cons v others =>
    cases others with
    | cons => cases ended
    | nil =>
      obtain ⟨s, text⟩ := text_answers ready (valid v List.mem_cons_self)
      simp only [Eval.print, bind, EStateM.bind, Eval.onHeap, Eval.lift, text] at ended
      cases ended

theorem ready_entered (ready : Ready cost h.machine) (parent : Nat) :
    Ready cost (h.machine.entered parent) where
  acyclic := ⟨ready.acyclic.acyclic, ready.acyclic.closed, ready.acyclic.cells⟩
  priced := Machine.priced_of_scopes ready.priced fun i => Scopes.ownFunction?_addChild parent i

theorem alive_inChildOf {parent : Nat} {act : Watched α} (ready : Ready cost h.machine)
    (body : ∀ k, Ready cost k.machine → (∀ v, Valid v h → Valid v k) → Alive k act) :
    Alive h (inChildOf parent act) :=
  runs_inChildOf (body (h.reach (h.machine.entered parent)) (ready_entered ready parent)
    fun _ => id) (fun _ _ => trivial) (fun _ _ reason => reason) fun _ _ _ _ => trivial

theorem alive_inChild {act : Watched α} (ready : Ready cost h.machine)
    (body : ∀ k, Ready cost k.machine → (∀ v, Valid v h → Valid v k) → Alive k act) :
    Alive h (inChild act) := alive_inChildOf ready body

variable (rule cost)

structure AliveAt (fuel : Nat) : Prop where
  evaluate : ∀ {h} e, Ready cost h.machine → e.depth cost ≤ fuel → Alive h (evaluate rule fuel e)
  condition : ∀ {h} e, Ready cost h.machine → e.depth cost + 1 ≤ fuel →
    Alive h (condition rule fuel e)
  invoke : ∀ {h} f vs name arity, Ready cost h.machine → (∀ v ∈ vs, Valid v h) →
    f.Priced cost name arity → cost name arity ≤ fuel → Alive h (invoke rule fuel f vs)
  execute : ∀ {h} s, Ready cost h.machine → Stmt.Straight [s] → s.depth cost ≤ fuel →
    Alive h (execute rule fuel s)
  assign : ∀ {h} receiver value, Ready cost h.machine →
    max (receiver.depth cost) (value.depth cost) + 1 ≤ fuel →
    Alive h (assign rule fuel receiver value)

variable {rule cost}

theorem alive_mapM (ih : AliveAt rule cost fuel) (es : List Expr) (ready : Ready cost h.machine)
    (enough : Expr.allDepth cost es ≤ fuel) : Alive h (es.mapM (evaluate rule fuel)) := by
  induction es generalizing h with
  | nil => exact alive_pure []
  | cons e es rest =>
    rw [Expr.allDepth] at enough
    rw [List.mapM_cons]
    apply alive_bind (steady_evaluate fuel e ready) (ih.evaluate e ready (by omega))
    intro v k onward _
    exact alive_then (rest onward.ready (by omega)) fun _ _ => alive_pure _

theorem straight_cons {s : Stmt} {ss : List Stmt} (straight : Stmt.Straight (s :: ss)) :
    Stmt.Straight [s] ∧ Stmt.Straight ss := by
  refine ⟨fun t member => straight t ?_, fun t member => straight t (Stmt.parts_tail member)⟩
  rw [Stmt.allParts, Stmt.allParts, List.append_nil] at member
  exact Stmt.parts_head member

theorem alive_sequence (ih : AliveAt rule cost fuel) (ss : List Stmt)
    (ready : Ready cost h.machine) (straight : Stmt.Straight ss)
    (enough : Stmt.allDepth cost ss ≤ fuel) : Alive h (sequence (execute rule fuel) ss) := by
  induction ss generalizing h with
  | nil => exact alive_pure _
  | cons s ss rest =>
    obtain ⟨first, others⟩ := straight_cons straight
    rw [Stmt.allDepth] at enough
    apply alive_bind (steady_execute fuel s ready) (ih.execute s ready first (by omega))
    intro flow k onward _
    cases flow with
    | next => exact rest onward.ready others (by omega)
    | returned v => exact alive_pure _

theorem alive_matching (ih : AliveAt rule cost fuel) (v : Value) (arms : List Case)
    (ready : Ready cost h.machine)
    (enough : ∀ arm ∈ arms, ∀ e, arm.value = some e → e.depth cost ≤ fuel) :
    Alive h (matching (evaluate rule fuel) v arms) := by
  induction arms generalizing h with
  | nil => exact alive_pure _
  | cons c cs rest =>
    have others := fun arm member => enough arm (List.mem_cons_of_mem c member)
    obtain ⟨value, body⟩ := c
    cases value with
    | none => exact rest ready others
    | some e =>
      apply alive_bind (steady_evaluate fuel e ready)
        (ih.evaluate e ready (enough _ List.mem_cons_self e rfl))
      intro w k onward valid
      have compared : Alive k (step (Eval.onHeap fun h => Operation.equal h w v)) := by
        refine alive_onHeap ?_
        obtain ⟨b, equal⟩ := equal_answers onward.ready valid v
        rw [equal]
        nofun
      apply alive_after (steady_glance onward.ready (looks_onHeap _)) compared
      intro same l ready
      cases same with
      | true => exact alive_pure _
      | false => exact rest ready others

/-- The list that a variable holds, and what follows. -/
theorem alive_place (record : Option Variable) (name : String) {next : Nat → Watched β}
    (ready : Ready cost h.machine)
    (rest : ∀ place k, Ready cost k.machine → Alive k (next place)) :
    Alive h (do
      let i ← resolve record name
      let c ← step (Eval.cell i)
      let place ← step (Eval.listOf c)
      next place) := by
  apply alive_after (steady_resolve record name ready) (alive_resolve record name)
  intro i k ready
  apply alive_after (steady_glance ready (looks_cell i)) (alive_errs (errs_cell i))
  intro c k ready
  exact alive_after (steady_glance ready (looks_listOf c)) (alive_errs (errs_listOf c)) rest

theorem alive_evaluate (ih : AliveAt rule cost fuel) (e : Expr) (ready : Ready cost h.machine)
    (enough : e.depth cost ≤ fuel + 1) : Alive h (evaluate rule (fuel + 1) e) := by
  have yields : ∀ {act : Watched Value}, Alive h act → Alive h (yielding e act) := fun inner =>
    alive_then inner fun v _ => alive_then (alive_note _) fun _ _ => alive_pure v
  refine yields ?_
  cases e with
  | literal value slot => exact alive_pure _
  | group inner slot =>
    rw [Expr.depth] at enough
    exact ih.evaluate inner ready (by omega)
  | binary op left right slot =>
    rw [Expr.depth] at enough
    have first := ih.condition left ready (by omega)
    cases op with
    | and =>
      apply alive_bind (steady_condition fuel left ready) first
      intro b k onward _
      cases b with
      | true =>
        exact alive_then (ih.condition right onward.ready (by omega)) fun _ _ => alive_pure _
      | false => exact alive_pure _
    | or =>
      apply alive_bind (steady_condition fuel left ready) first
      intro b k onward _
      cases b with
      | true => exact alive_pure _
      | false =>
        exact alive_then (ih.condition right onward.ready (by omega)) fun _ _ => alive_pure _
    | _ =>
      apply alive_bind (steady_evaluate fuel left ready) (ih.evaluate left ready (by omega))
      intro l k onward validL
      apply alive_bind (steady_evaluate fuel right onward.ready)
        (ih.evaluate right onward.ready (by omega))
      intro r m onward validR
      exact alive_onHeap (apply_answers onward.ready _ (onward.valid validL) validR)
  | access name record slot =>
    exact alive_then (alive_resolve record name) fun i _ =>
      alive_then (alive_errs (errs_cell i)) fun c _ => alive_pure _
  | element name index record slot =>
    rw [Expr.depth] at enough
    apply alive_place record name ready
    intro place k ready
    refine alive_then (ih.evaluate index ready (by omega)) fun v _ => ?_
    exact alive_then (alive_errs (errs_elements place)) fun vs _ =>
      alive_then (alive_errs (errs_position vs.length v)) fun n _ => alive_pure _
  | call name args signature slot =>
    rw [Expr.depth] at enough
    have named : Steady rule cost h (step (Eval.callableNamed name args.length)) _ :=
      steady_callableNamed name args.length ready
    apply alive_bind named (alive_errs (errs_callableNamed name args.length))
    intro f k onward priced
    apply alive_bind (steady_arguments fuel args onward.ready)
      (alive_mapM ih args onward.ready (by omega))
    intro vs k onward valid
    have called : Steady rule cost k (note (.called (.call name args signature slot) f)) _ :=
      steady_called _ f onward.ready
    apply alive_bind called (alive_note _)
    intro _ l later _
    exact ih.invoke f vs name args.length later.ready (fun v member => later.valid (valid v member))
      priced (by omega)
  | list es slot =>
    rw [Expr.depth] at enough
    exact alive_then (alive_mapM ih es ready (by omega)) fun vs _ => alive_newList vs

theorem alive_invoke (ih : AliveAt rule cost fuel) (f : Callable) (vs : List Value) (name : String)
    (arity : Nat) (ready : Ready cost h.machine) (valid : ∀ v ∈ vs, Valid v h)
    (priced : f.Priced cost name arity) (enough : cost name arity ≤ fuel + 1) :
    Alive h (invoke rule (fuel + 1) f vs) := by
  have noted : Steady rule cost h (note (.invoked f vs)) _ := steady_invoked f vs ready valid
  apply alive_bind noted (alive_note _)
  intro _ k onward _
  have valid : ∀ v ∈ vs, Valid v k := fun v member => onward.valid (valid v member)
  cases f with
  | print => exact alive_print onward.ready valid
  | function d scope =>
    obtain ⟨straight, price⟩ := priced
    have called : Alive k (inChildOf scope do
        bindParameters d.parameters (parameterTypes d) vs
        sequence (execute rule fuel) d.body) := by
      refine alive_inChildOf onward.ready fun l ready still => ?_
      have valid : ∀ v ∈ vs, Valid v l := fun v member => still v (valid v member)
      apply alive_after (steady_bindParameters _ _ ready valid) (alive_bindParameters _ _ vs)
      intro _ l ready
      exact alive_sequence ih d.body ready straight (by omega)
    refine runs_get ?_
    by_cases alive : k.machine.isAlive scope
    · simp only [alive, Bool.not_true, Bool.false_eq_true, if_false]
      refine alive_then called fun flow _ => ?_
      cases flow <;> exact alive_pure _
    · simp only [alive, Bool.not_false, if_true]
      have failed : Runs (fun _ _ => True) (fun e _ => e ≠ .exhausted) k
          (step (Eval.fail (.outlivedScope d.name) : Eval PUnit)) fun _ _ => False :=
        runs_look (looks_fail _) trivial (fun _ ended => by cases ended) fun e ended => by
          cases ended
          nofun
      exact runs_bind (fun _ _ => trivial) failed fun _ _ _ never => never.elim

theorem alive_block (ih : AliveAt rule cost fuel) (ss : List Stmt) (ready : Ready cost h.machine)
    (straight : Stmt.Straight ss) (enough : Stmt.allDepth cost ss ≤ fuel) :
    Alive h (inChild (sequence (execute rule fuel) ss)) :=
  alive_inChild ready fun _ ready _ => alive_sequence ih ss ready straight enough

theorem straight_of_parts {s : Stmt} (straight : Stmt.Straight [s]) {ss : List Stmt}
    (parts : Stmt.allParts ss ⊆ s.parts) : Stmt.Straight ss := fun t member =>
  straight t (Stmt.parts_head (parts member))

theorem alive_execute (ih : AliveAt rule cost fuel) (s : Stmt) (ready : Ready cost h.machine)
    (straight : Stmt.Straight [s]) (enough : s.depth cost ≤ fuel + 1) :
    Alive h (execute rule (fuel + 1) s) := by
  cases s with
  | expression e =>
    rw [Stmt.depth] at enough
    exact alive_then (ih.evaluate e ready (by omega)) fun _ _ => alive_pure _
  | declaration name typeName value record =>
    rw [Stmt.depth] at enough
    have defined : ∀ v k, Alive k (define record name true v >>= fun _ => pure Flow.next) :=
      fun v _ => alive_then (alive_define record name true v) fun _ _ => alive_pure _
    cases value with
    | none => exact defined .nil h
    | some e =>
      rw [Option.map_some, Option.getD_some] at enough
      exact alive_then (ih.evaluate e ready (by omega)) defined
  | assignment receiver value =>
    rw [Stmt.depth] at enough
    exact alive_then (ih.assign receiver value ready (by omega)) fun _ _ => alive_pure _
  | conditional c whenTrue whenFalse =>
    rw [Stmt.depth] at enough
    apply alive_bind (steady_condition fuel c ready) (ih.condition c ready (by omega))
    intro b k onward _
    cases b with
    | true =>
      exact alive_block ih whenTrue onward.ready (straight_of_parts straight Stmt.parts_whenTrue)
        (by omega)
    | false =>
      exact alive_block ih whenFalse onward.ready (straight_of_parts straight Stmt.parts_whenFalse)
        (by omega)
  | switch c arms =>
    rw [Stmt.depth] at enough
    apply alive_bind (steady_evaluate fuel c ready) (ih.evaluate c ready (by omega))
    intro v k onward _
    refine alive_inChild onward.ready fun l ready _ => ?_
    have values : ∀ arm ∈ arms, ∀ e, arm.value = some e → e.depth cost ≤ fuel := by
      intro arm member e value
      have inside : e.depth cost ≤ Case.allDepth cost arms := Case.value_depth member value
      omega
    apply alive_bind (steady_matching fuel v arms ready) (alive_matching ih v arms ready values)
    intro body l onward among
    cases chosen : body <|> Eval.defaultBody arms with
    | none => exact alive_pure _
    | some ss =>
      obtain ⟨arm, member, rfl⟩ := Eval.mem_of_chosen among chosen
      have inside : Stmt.allDepth cost arm.body ≤ Case.allDepth cost arms := Case.body_depth member
      exact alive_block ih arm.body onward.ready
        (straight_of_parts straight (Stmt.parts_arm member)) (by omega)
  | loop c body => exact absurd trivial (straight _ (Stmt.parts_head (Stmt.mem_parts _)))
  | «return» e =>
    rw [Stmt.depth] at enough
    exact alive_then (ih.evaluate e ready (by omega)) fun _ _ => alive_pure _

theorem alive_assign (ih : AliveAt rule cost fuel) (receiver value : Expr)
    (ready : Ready cost h.machine)
    (enough : max (receiver.depth cost) (value.depth cost) + 1 ≤ fuel + 1) :
    Alive h (assign rule (fuel + 1) receiver value) := by
  cases receiver with
  | access name record slot =>
    have stored : ∀ i k, Ready cost k.machine →
        Alive k (evaluate rule fuel value >>= fun v => step (Eval.setCell i v)) :=
      fun i k ready => alive_then (ih.evaluate value ready (by omega)) fun v _ =>
        alive_step fun _ ended => by cases ended
    apply alive_after (steady_resolve record name ready) (alive_resolve record name)
    intro i k ready
    apply alive_after (steady_glance ready (looks_cell i)) (alive_errs (errs_cell i))
    intro c k ready
    cases c.mutable with
    | true => exact stored i k ready
    | false =>
      exact alive_after (steady_glance ready (looks_fail _)) (alive_errs (errs_fail _))
        fun _ => stored i
  | element name index record slot =>
    rw [Expr.depth] at enough
    apply alive_place record name ready
    intro place k ready
    apply alive_bind (steady_evaluate fuel index ready) (ih.evaluate index ready (by omega))
    intro n k onward _
    apply alive_bind (steady_evaluate fuel value onward.ready)
      (ih.evaluate value onward.ready (by omega))
    intro v k onward valid
    have stored : ∀ k, Alive k (do
        let vs ← step (Eval.elements place)
        let n ← step (Eval.position vs.length n)
        step (Eval.setElement place n v)) := fun _ =>
      alive_then (alive_errs (errs_elements place)) fun vs _ =>
        alive_then (alive_errs (errs_position vs.length n)) fun _ _ =>
          alive_step fun _ ended => by cases ended
    have checked : Alive k (step (Eval.onHeap fun h => Operation.closesCycle h place v)) := by
      refine alive_onHeap ?_
      obtain ⟨b, answer⟩ := closesCycle_answers onward.ready valid place
      rw [answer]
      nofun
    refine alive_then checked fun cyclic _ => ?_
    cases cyclic with
    | true => exact alive_then (alive_errs (errs_fail _)) fun _ => stored
    | false => exact stored _
  | literal | group | binary | call | list => exact alive_errs (errs_fail .badReceiver)

theorem alive_at (rule : DivisionScale) (cost : Costs) (fuel : Nat) : AliveAt rule cost fuel := by
  induction fuel with
  | zero =>
    refine ⟨fun e _ enough => ?_, fun e _ enough => ?_, fun f _ name arity _ _ priced enough => ?_,
      fun s _ _ enough => ?_, fun r v _ enough => ?_⟩
    · exact absurd enough (Nat.not_le.mpr (Expr.depth_pos e))
    · exact absurd enough (Nat.not_succ_le_zero _)
    · exact absurd (Nat.le_trans (Callable.price_pos priced) enough) (Nat.not_succ_le_zero _)
    · exact absurd enough (Nat.not_le.mpr (Stmt.depth_pos s))
    · exact absurd enough (Nat.not_succ_le_zero _)
  | succ fuel ih =>
    refine ⟨alive_evaluate ih, fun e ready enough => ?_, alive_invoke ih, alive_execute ih,
      alive_assign ih⟩
    exact alive_then (ih.evaluate e ready (by omega)) fun v _ => alive_errs (errs_boolean v)

end Plc.Halting

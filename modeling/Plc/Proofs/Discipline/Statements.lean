import Plc.Proofs.Discipline.Expressions

/-!
Calls and statements under a discipline, and with them soundness for any fuel: by induction on the
fuel, one lemma for each function of the evaluation.
-/

namespace Plc.Discipline

open Watched

variable {rule : DivisionScale} {D : Discipline rule} {W : Frame} {h : History} {Γ Δ : Env}
  {fuel : Nat}

theorem flowOk_next : D.FlowOk Γ .next := fun _ is => by cases is

theorem flowOk_of_returns {flow : Flow} (same : Δ.returns = Γ.returns) (ok : D.FlowOk Δ flow) :
    D.FlowOk Γ flow := fun v is => same ▸ ok v is

/-- Statements in turn. A block that ends in RETURN does return. -/
theorem execs_sequence (ih : D.SoundAt W fuel) {ss : List Stmt} (ok : BlockOk D.noted Γ ss)
    (fine : D.FineBlock ss) (fits : D.FitsIn W Γ h) (inner : h.machine.home < h.machine.current)
    (sound : D.Sound W h) :
    D.Execs W h (sequence (execute rule fuel) ss) fun flow _ => D.FlowOk Γ flow ∧
      (flow = .next → ∀ s ∈ ss.getLast?, ¬ s.IsReturn) := by
  induction ss generalizing Γ h with
  | nil => exact execs_pure sound ⟨flowOk_next, fun _ s => by simp⟩
  | cons s ss rest =>
    cases ok with
    | cons first others =>
      apply execs_bind (ih.execute first (fine_head fine) fits inner sound)
      intro flow k since done
      obtain ⟨flowOk, after⟩ := done
      cases flow with
      | returned v => exact execs_pure since.sound ⟨flowOk, fun is => by cases is⟩
      | next =>
        obtain ⟨fits', no⟩ := after rfl
        have inner' := inner_since since inner
        refine runs_imp (rest others (fine_tail fine) fits' inner' since.sound) ?_
        rintro flow l - ⟨flowOk', last⟩
        refine ⟨flowOk_of_returns (returns_of_stmt first) flowOk', fun next t is => ?_⟩
        -- the last statement is `s` itself, which did not return, or that of the rest
        cases ss with
        | nil =>
          cases is
          exact no
        | cons r rs =>
          rw [List.getLast?_cons_cons] at is
          exact last next t is

theorem evals_block (ih : D.SoundAt W fuel) {ss : List Stmt} (ok : BlockOk D.noted Γ.child ss)
    (fine : D.FineBlock ss) (sees : D.SeesIn W Γ h) (sound : D.Sound W h) :
    D.Evals W h (inChild (sequence (execute rule fuel) ss)) fun flow _ => D.FlowOk Γ flow := by
  apply evals_inChildOf sound sound.placed.here sound.placed.sight sees
  intro k sound' fits inner
  refine runs_imp (execs_sequence ih ok fine fits inner sound') ?_
  rintro flow l - ⟨flowOk, -⟩
  exact flowOk_of_returns rfl flowOk

theorem evals_print {vs : List Value} (one : vs.length = 1) (sound : D.Sound W h) :
    D.Evals W h (step (Eval.print vs)) fun v _ => D.conforms .nil v := by
  obtain ⟨v, rfl⟩ := List.length_eq_one_iff.mp one
  refine runs_step ?_
  rcases print_one v h.machine with ⟨line, printed⟩ | stopped
  · rw [printed]
    have stored : D.Stored h.records (h.machine.printing line) :=
      ⟨sound.stored.size, sound.stored.conform, sound.stored.apart⟩
    exact ⟨still_come sound rfl rfl rfl rfl stored (fun _ _ _ => id) trivial, D.literal .nil⟩
  · rw [stopped]
    exact ⟨still_reach sound, fun cause same => by cases same⟩

theorem execs_bindParameters {ps : List Parameter} {types noted : List Ty} {vs : List Value}
    (ok : ParametersOk Γ ps types Δ) (conform : List.Forall₂ D.conforms types vs)
    (same : D.noted → noted = types) (fits : D.FitsIn W Γ h)
    (inner : h.machine.home < h.machine.current) (sound : D.Sound W h) :
    D.Execs W h (bindParameters ps noted vs) fun _ k => D.FitsIn W Δ k := by
  induction ok generalizing noted vs h with
  | nil =>
    cases vs <;> exact execs_pure sound fits
  | @cons Γ Δ p ps ty types free others rest =>
    cases conform with
    | @cons _ v _ vs conforms conform =>
      refine execs_bind (execs_define (v := .single p.name ty true) true sound fits free
        (.inl inner) (fun notes => by rw [same notes]; rfl) (fun _ => ?_)
        fun _ is => by cases is) fun _ k since fits' => ?_
      · rw [Holds, if_neg (by simp [Variable.single])]
        exact conforms
      · exact rest conform (fun notes => by rw [same notes]; rfl) fits' (inner_since since inner)
          since.sound

theorem sound_invoke (ih : D.SoundAt W fuel) {f : Callable} {s : Signature} {vs : List Value}
    (implements : D.Implements W h.machine.home s f)
    (conform : List.Forall₂ D.conforms s.parameters vs) (sound : D.Sound W h) :
    D.Evals W h (invoke rule (fuel + 1) f vs) fun v _ => D.conforms s.returns v := by
  have many := conform.length_eq
  cases f with
  | print =>
    obtain rfl : s = Typing.printSignature := implements
    have one : vs.length = 1 := many.symm
    have tells : D.Tells h.records ⟨.invoked .print vs, h.machine⟩ := one
    exact evals_bind (evals_note sound rfl tells) fun _ k still _ => evals_print one still.sound
  | function f scope =>
    obtain ⟨rfl, fine, Γ, below, body⟩ := implements
    have length := many_of_mapM body.types
    have tells : D.Tells h.records ⟨.invoked (.function f h.machine.home) vs, h.machine⟩ :=
      many.symm.trans length.symm
    refine evals_bind (evals_note sound rfl tells) fun _ k still _ => runs_get ?_
    have home : k.machine.home = h.machine.home := still.home
    have alive : k.machine.isAlive h.machine.home = true := by
      rw [← home]
      simp [Machine.isAlive, Scopes.path]
    simp only [alive, Bool.not_true, Bool.false_eq_true, if_false]
    have sound := still.sound
    obtain ⟨Δ, parameters, block⟩ := body.body
    -- the body was typed where only what came before it was known: now the global scope has all
    have sees : D.Sees W (Γ.returning s.returns) k.records k.machine.scopes k.machine.home := by
      refine ⟨fun name v known => sound.placed.globals name v (below.names name v known), ?_⟩
      exact below.functions
    have called : D.Evals W k (inChildOf h.machine.home do
          bindParameters f.parameters (parameterTypes f) vs
          sequence (execute rule fuel) f.body) fun flow _ =>
        D.FlowOk (Γ.returning s.returns) flow ∧
          (flow = .next → ∀ s ∈ f.body.getLast?, ¬ s.IsReturn) := by
      rw [← home]
      apply evals_inChildOf sound sound.placed.outer (fun _ _ => rfl) sees
      intro l sound' fits inner
      have noting : D.noted → parameterTypes f = s.parameters := fun notes => by
        simp [parameterTypes, body.noting notes]
      apply execs_bind (execs_bindParameters parameters conform noting fits inner sound')
      intro _ m since fits'
      have inner' := inner_since since inner
      refine runs_imp (execs_sequence ih block fine.body fits' inner' since.sound) ?_
      rintro flow _ - ⟨flowOk, last⟩
      have same := returns_of_parameters parameters
      exact ⟨fun v is => same ▸ flowOk v is, last⟩
    apply evals_bind called
    intro flow l still' done
    obtain ⟨flowOk, last⟩ := done
    cases flow with
    | returned v =>
      obtain ⟨ty, same, conforms⟩ := flowOk v rfl
      cases same
      exact evals_pure still'.sound conforms
    | next =>
      refine evals_pure still'.sound ?_
      rcases fine.finishes s.returns body.returns with lenient | none | ⟨s, ends, is⟩
      · exact D.nil lenient _
      · rw [none]
        exact D.literal .nil
      · exact absurd is (last rfl s ends)

theorem evals_assignment (ih : D.SoundAt W fuel) {name : String} {record : Option Variable}
    {slot : Option Ty} {value : Expr} {v : Variable} {T : Ty} (typed : HasTy D.noted Γ value T)
    (known : Γ.findVariable? name = some v) (single : v.list = false)
    (accepts : v.ty.accepts T = true) (noting : Slot D.noted record v) (fine : D.Fine value)
    (sees : D.SeesIn W Γ h) (sound : D.Sound W h) :
    D.Evals W h (assign rule (fuel + 1) (.access name record slot) value) fun _ _ => True := by
  apply evals_bind (evals_resolve known noting sees sound)
  intro i k _ found
  apply evals_bind (evals_cell found)
  intro c k _ done
  obtain ⟨found, _⟩ := done
  cases mutable : c.mutable with
  | false =>
    simp only [Bool.not_false, if_true]
    exact evals_fail found.sound (D.immutable name)
  | true =>
    simp only [Bool.not_true, Bool.false_eq_true, if_false]
    apply evals_bind (ih.evaluate typed fine found.sees found.sound)
    intro w k still conforms
    have found := found_still found still
    exact runs_step ⟨still_setting found.sound found.recorded single (D.accepts conforms accepts),
      trivial⟩

/-- The check before a store says that the value reaches the list only of a list. -/
theorem evals_closesCycle {place : Nat} (name : String) {T : Ty} {v : Value} (types : D.types T)
    (conforms : D.conforms T v) (sound : D.Sound W h) :
    D.Evals W h (step (Eval.onHeap fun heap => Operation.closesCycle heap place v)) fun cyclic _ =>
      cyclic = true → D.permits (.selfContaining name) := by
  refine evals_look sound (looks_onHeap _) (fun cyclic found is => ?_)
    fun e stopped cause same => ?_
  · subst is
    unfold Eval.onHeap Eval.lift Operation.closesCycle at found
    cases v with
    | list p => exact D.nested types conforms name
    | _ => simp [Value.reaches?] at found
  · subst same
    unfold Eval.onHeap Eval.lift Operation.closesCycle at stopped
    cases answer : v.reaches? h.machine.heap place h.machine.heap.size <;>
      simp [answer] at stopped

theorem evals_store (ih : D.SoundAt W fuel) {name : String} {index value : Expr}
    {record : Option Variable} {slot : Option Ty} {S T : Ty} (typed : HasTy D.noted Γ value T)
    (receiver : HasTy D.noted Γ (.element name index record slot) S) (accepts : S.accepts T = true)
    (fineIndex : D.Fine index) (fineValue : D.Fine value) (sees : D.SeesIn W Γ h)
    (sound : D.Sound W h) :
    D.Evals W h (assign rule (fuel + 1) (.element name index record slot) value)
      fun _ _ => True := by
  cases receiver with
  | element known list position recorded ty =>
    rename_i v
    apply evals_bind (evals_resolve known recorded sees sound)
    intro i k _ found
    apply evals_bind (evals_cell found)
    intro c k _ done
    obtain ⟨found, cell⟩ := done
    apply evals_bind (evals_listOf list found cell)
    intro place k _ found
    -- the list is found first, so that each of the steps to come has to leave it where it was
    apply evals_bind (ih.evaluate position fineIndex found.sees found.sound)
    intro n k still integer
    have found := foundList_still found still
    apply evals_bind (ih.evaluate typed fineValue found.sees found.sound)
    intro w k still conforms
    have found := foundList_still found still
    apply evals_bind (evals_closesCycle name (types_of_fine typed fineValue) conforms found.sound)
    intro cyclic k still permits
    have found := foundList_still found still
    cases cyclic with
    | true => exact evals_fail found.sound (permits rfl)
    | false =>
      apply evals_bind (evals_readList found)
      intro vs k _ done
      obtain ⟨found, _⟩ := done
      apply evals_bind (evals_position integer found.sound)
      intro n k still _
      have found := foundList_still found still
      exact runs_step ⟨still_storing found.sound (fun strict => ⟨found.held strict,
        found.recorded (D.notes strict)⟩) (D.accepts conforms accepts), trivial⟩

theorem sound_assign (ih : D.SoundAt W fuel) {r e : Expr}
    (ok : StmtOk D.noted Γ (.assignment r e) Δ) (fine : D.FineStmt (.assignment r e))
    (sees : D.SeesIn W Γ h) (sound : D.Sound W h) :
    D.Evals W h (assign rule (fuel + 1) r e) fun _ _ => Γ = Δ := by
  have fineValue : D.Fine e := fine_own fine (by simp [Stmt.own])
  have fineReceiver : D.Fine r := fine_own fine (by simp [Stmt.own])
  cases ok with
  | assignment typed known single accepts noting ty =>
    exact runs_imp (evals_assignment ih typed known single accepts noting fineValue sees sound)
      fun _ _ _ _ => rfl
  | store typed receiver accepts =>
    exact runs_imp (evals_store ih typed receiver accepts (fine_index fineReceiver) fineValue sees
      sound) fun _ _ _ _ => rfl

theorem evals_initial (ih : D.SoundAt W fuel) {declared : Option Ty} {e : Expr} {T : Ty}
    (initial : InitialOk D.noted Γ declared e T) (fine : D.Fine e) (sees : D.SeesIn W Γ h)
    (sound : D.Sound W h) :
    D.Evals W h (evaluate rule fuel e) fun v _ => D.conforms T v := by
  cases initial with
  | value typed => exact ih.evaluate typed fine sees sound
  | empty noting =>
    -- elements of a list literal are typed only where values are not spoken of
    have untyped : ¬ D.typed := (fine_self fine).2
    cases fuel with
    | zero => exact runs_throw (still_refl sound) fun e same => by cases same
    | succ fuel =>
      have none : D.Evals W h (([] : List Expr).mapM (evaluate rule fuel)) fun vs _ =>
          ∀ v ∈ vs, D.conforms T v := evals_pure sound (by simp)
      exact runs_imp (evals_literalList none noting) fun v _ _ _ => (D.free untyped).1 T v

theorem evals_declared (ih : D.SoundAt W fuel) {typeName : Option String} {value : Option Expr}
    {T : Ty} (declared : DeclaredOk D.noted Γ typeName value T)
    (fine : ∀ e, value = some e → D.Fine e) (lenient : value = none → D.lenient)
    (sees : D.SeesIn W Γ h) (sound : D.Sound W h) :
    D.Evals W h (match value with | some e => evaluate rule fuel e | none => pure .nil)
      fun v _ => D.conforms T v := by
  cases declared with
  | both _ initial accepts =>
    exact runs_imp (evals_initial ih initial (fine _ rfl) sees sound) fun v _ _ conforms =>
      D.accepts conforms accepts
  | typeOnly => exact evals_pure sound (D.nil (lenient rfl) T)
  | valueOnly initial => exact evals_initial ih initial (fine _ rfl) sees sound

theorem evals_matching (ih : D.SoundAt W fuel) {T : Ty} {arms : List Case} (v : Value)
    (ok : CasesOk D.noted Γ T arms) (fine : ∀ arm ∈ arms, ∀ e, arm.value = some e → D.Fine e)
    (sees : D.SeesIn W Γ h) (sound : D.Sound W h) :
    D.Evals W h (matching (evaluate rule fuel) v arms) fun found _ =>
      ∀ body, found = some body → ∃ arm ∈ arms, arm.body = body := by
  induction arms generalizing h with
  | nil => exact evals_pure sound nofun
  | cons arm arms rest =>
    cases ok with
    | default => exact evals_pure sound nofun
    | @arm _ _ e body _ typed _ others =>
      have fineE := fine _ List.mem_cons_self e rfl
      apply evals_bind (ih.evaluate typed fineE (sees_child.mpr sees) sound)
      intro w k still _
      have compared : D.Evals W k (step (Eval.onHeap fun heap => Operation.equal heap w v))
          fun _ _ => True := by
        apply evals_look still.sound (looks_onHeap _) (fun _ _ => trivial)
        intro e stopped cause same
        subst same
        unfold Eval.onHeap Eval.lift Operation.equal at stopped
        cases answer : w.equal? k.machine.heap k.machine.heap.size v <;> simp [answer] at stopped
      apply evals_bind compared
      intro same l still' _
      cases same with
      | true => exact evals_pure still'.sound fun b is => ⟨_, List.mem_cons_self, by cases is; rfl⟩
      | false =>
        have sees := sees_still still.sound still' (sees_still sound still sees)
        refine runs_imp (rest others (fun a member => fine a (List.mem_cons_of_mem _ member)) sees
          still'.sound) ?_
        rintro found m - one b is
        obtain ⟨a, member, is⟩ := one b is
        exact ⟨a, List.mem_cons_of_mem _ member, is⟩

theorem block_of_cases {T : Ty} {arms : List Case} (ok : CasesOk D.noted Γ T arms) :
    ∀ arm ∈ arms, BlockOk D.noted Γ.child arm.body := by
  induction arms with
  | nil => simp
  | cons arm arms rest =>
    cases ok with
    | default inner =>
      intro a member
      obtain rfl := List.mem_singleton.mp member
      exact inner
    | arm _ inner others =>
      intro a member
      rcases List.mem_cons.mp member with rfl | other
      · exact inner
      · exact rest others a other

theorem evals_switch (ih : D.SoundAt W fuel) {c : Expr} {arms : List Case} {T : Ty} (v : Value)
    (ok : CasesOk D.noted Γ T arms) (fine : D.FineStmt (.switch c arms)) (sees : D.SeesIn W Γ h)
    (sound : D.Sound W h) :
    D.Evals W h (inChild do
        let body ← matching (evaluate rule fuel) v arms
        match body <|> Eval.defaultBody arms with
        | some body => inChild (sequence (execute rule fuel) body)
        | none => pure .next) fun flow _ => D.FlowOk Γ flow := by
  apply evals_inChildOf sound sound.placed.here sound.placed.sight sees
  intro k sound' fits _
  apply execs_of_evals
  have sees : D.SeesIn W Γ k := sees_child.mp fits.toSees
  apply evals_bind (evals_matching ih v ok (fun arm member e => fine_value fine member) sees sound')
  intro found l still one
  have sees := sees_still sound' still sees
  cases chosen : found <|> Eval.defaultBody arms with
  | none => exact evals_pure still.sound flowOk_next
  | some body =>
    obtain ⟨arm, member, rfl⟩ := Eval.mem_of_chosen one chosen
    exact evals_block ih (block_of_cases ok arm member) (fine_arm fine member) sees still.sound

/-- A statement that defines nothing leaves what names mean. -/
theorem execs_plain {s : Stmt} {act : Watched Flow} (fits : D.FitsIn W Γ h) (sound : D.Sound W h)
    (other : ¬ s.IsReturn) (evals : D.Evals W h act fun flow _ => D.FlowOk Γ flow) :
    D.Execs W h act fun flow k => D.FlowOk Γ flow ∧
      (flow = .next → D.FitsIn W Γ k ∧ ¬ s.IsReturn) := by
  refine runs_mono (runs_imp evals fun flow k still flowOk => ?_) (fun _ still => still.toSince)
    fun _ _ => id
  exact ⟨flowOk, fun _ => ⟨fits_still sound still fits, other⟩⟩

theorem sound_execute (ih : D.SoundAt W fuel) {s : Stmt} (ok : StmtOk D.noted Γ s Δ)
    (fine : D.FineStmt s) (fits : D.FitsIn W Γ h) (inner : h.machine.home < h.machine.current)
    (sound : D.Sound W h) :
    D.Execs W h (execute rule (fuel + 1) s) fun flow k => D.FlowOk Γ flow ∧
      (flow = .next → D.FitsIn W Δ k ∧ ¬ s.IsReturn) := by
  have sees := fits.toSees
  cases ok with
  | call typed =>
    refine execs_plain fits sound id ?_
    apply evals_bind (ih.evaluate typed (fine_own fine (by simp [Stmt.own])) sees sound)
    intro _ k still _
    exact evals_pure still.sound flowOk_next
  | @declaration _ name typeName value record T declared free noting =>
    have own := fine _ (Stmt.mem_parts _)
    have start := evals_declared ih declared (fun e is => own.1 e (by simp [Stmt.own, is]))
      (fun none => by subst none; exact own.2) sees sound
    have defined : ∀ v k, D.Still W h k → D.conforms T v →
        D.Execs W k (define record name true v >>= fun _ => pure Flow.next) fun flow l =>
          D.FlowOk Γ flow ∧ (flow = .next → D.FitsIn W (Γ.bind (.single name T true)) l ∧
            ¬ (Stmt.declaration name typeName value record).IsReturn) := by
      intro v k still conforms
      have deeper := inner_since still.toSince inner
      refine execs_bind (execs_define (v := .single name T true) true still.sound
        (fits_still sound still fits) free (.inl deeper) noting (fun _ => ?_)
        fun _ is => by cases is)
        fun _ l since fits' => execs_pure since.sound ⟨flowOk_next, fun _ => ⟨fits', id⟩⟩
      rw [Holds, if_neg (by simp [Variable.single])]
      exact conforms
    cases value <;> exact execs_after start defined
  | assignment typed known single accepts noting ty =>
    have evals := ih.assign (.assignment typed known single accepts noting ty) fine sees sound
    refine execs_plain fits sound id (evals_bind evals fun _ k still _ => ?_)
    exact evals_pure still.sound flowOk_next
  | store typed receiver accepts =>
    have evals := ih.assign (.store typed receiver accepts) fine sees sound
    refine execs_plain fits sound id (evals_bind evals fun _ k still _ => ?_)
    exact evals_pure still.sound flowOk_next
  | conditional typed _ first second =>
    refine execs_plain fits sound id ?_
    apply evals_bind (ih.condition typed (fine_own fine (by simp [Stmt.own])) sees sound)
    intro b k still _
    have sees := sees_still sound still sees
    cases b with
    | true => exact evals_block ih first (fine_whenTrue fine) sees still.sound
    | false => exact evals_block ih second (fine_whenFalse fine) sees still.sound
  | switch typed all =>
    refine execs_plain fits sound id ?_
    apply evals_bind (ih.evaluate typed (fine_own fine (by simp [Stmt.own])) sees sound)
    intro v k still _
    exact evals_switch ih v all fine (sees_still sound still sees) still.sound
  | loop typed body =>
    exact execs_plain fits sound id (ih.repeatWhile typed (fine_own fine (by simp [Stmt.own]))
      body (fine_loop fine) sees sound)
  | @«return» _ value expected T inside typed accepts =>
    refine execs_after (ih.evaluate typed (fine_own fine (by simp [Stmt.own])) sees sound)
      fun v k still conforms => execs_pure still.sound ⟨fun w is => ?_, fun is => by cases is⟩
    cases is
    exact ⟨expected, inside, D.accepts conforms accepts⟩

theorem sound_repeatWhile (ih : D.SoundAt W fuel) {c : Expr} {body : List Stmt}
    (typed : HasTy D.noted Γ c .boolean) (fine : D.Fine c) (ok : BlockOk D.noted Γ.child body)
    (fineBody : D.FineBlock body) (sees : D.SeesIn W Γ h) (sound : D.Sound W h) :
    D.Evals W h (repeatWhile rule (fuel + 1) c body) fun flow _ => D.FlowOk Γ flow := by
  apply evals_bind (ih.condition typed fine sees sound)
  intro b k still _
  have sees := sees_still sound still sees
  cases b with
  | false => exact evals_pure still.sound flowOk_next
  | true =>
    apply evals_bind (evals_block ih ok fineBody sees still.sound)
    intro flow l still' flowOk
    cases flow with
    | returned v => exact evals_pure still'.sound flowOk
    | next =>
      exact ih.repeatWhile typed fine ok fineBody (sees_still still.sound still' sees) still'.sound

theorem sound_at (D : Discipline rule) (W : Frame) (fuel : Nat) : D.SoundAt W fuel := by
  induction fuel with
  | zero =>
    -- running out of fuel is no error, so that nothing has to permit it
    have stopped {e : RuntimeError} (same : Halt.exhausted = .error e) : D.permits e := by
      cases same
    exact ⟨fun _ _ _ sound => runs_throw (still_refl sound) fun _ => stopped,
      fun _ _ _ sound => runs_throw (still_refl sound) fun _ => stopped,
      fun _ _ sound => runs_throw (still_refl sound) fun _ => stopped,
      fun _ _ _ _ sound => runs_throw (since_refl sound) fun _ => stopped,
      fun _ _ _ sound => runs_throw (still_refl sound) fun _ => stopped,
      fun _ _ _ _ _ sound => runs_throw (still_refl sound) fun _ => stopped⟩
  | succ fuel ih =>
    exact ⟨sound_evaluate ih, evals_condition ih, sound_invoke ih, sound_execute ih,
      sound_assign ih, sound_repeatWhile ih⟩

end Plc.Discipline

import Plc.Proofs.Discipline.Steps

/-!
Expressions under a discipline. What is proved here of one more unit of fuel is proved from what
holds, with the fuel there is, of all functions of the evaluation.
-/

namespace Plc.Discipline

open Watched

variable {rule : DivisionScale} (D : Discipline rule) (W : Frame)

def FlowOk (Γ : Env) (flow : Flow) : Prop :=
  ∀ v, flow = .returned v → ∃ ty, Γ.returns = some ty ∧ D.conforms ty v

structure SoundAt (fuel : Nat) : Prop where
  evaluate : ∀ {Γ e T h}, HasTy D.noted Γ e T → D.Fine e → D.SeesIn W Γ h → D.Sound W h →
    D.Evals W h (evaluate rule fuel e) fun v _ => D.conforms T v
  condition : ∀ {Γ e h}, HasTy D.noted Γ e .boolean → D.Fine e → D.SeesIn W Γ h → D.Sound W h →
    D.Evals W h (condition rule fuel e) fun _ _ => True
  invoke : ∀ {f s vs h}, D.Implements W h.machine.home s f →
    List.Forall₂ D.conforms s.parameters vs → D.Sound W h →
    D.Evals W h (invoke rule fuel f vs) fun v _ => D.conforms s.returns v
  execute : ∀ {Γ Δ s h}, StmtOk D.noted Γ s Δ → D.FineStmt s → D.FitsIn W Γ h →
    h.machine.home < h.machine.current → D.Sound W h →
    D.Execs W h (execute rule fuel s) fun flow k => D.FlowOk Γ flow ∧
      (flow = .next → D.FitsIn W Δ k ∧ ¬ s.IsReturn)
  assign : ∀ {Γ Δ r e h}, StmtOk D.noted Γ (.assignment r e) Δ → D.FineStmt (.assignment r e) →
    D.SeesIn W Γ h → D.Sound W h →
    D.Evals W h (assign rule fuel r e) fun _ _ => Γ = Δ
  repeatWhile : ∀ {Γ c body h}, HasTy D.noted Γ c .boolean → D.Fine c →
    BlockOk D.noted Γ.child body → D.FineBlock body → D.SeesIn W Γ h → D.Sound W h →
    D.Evals W h (repeatWhile rule fuel c body) fun flow _ => D.FlowOk Γ flow

variable {D W} {h : History} {Γ : Env} {fuel : Nat}

theorem conforms_of {T : Ty} {v : Value} (typed : D.typed → D.conforms T v) : D.conforms T v := by
  by_cases strict : D.typed
  · exact typed strict
  · exact (D.free strict).1 T v

theorem evals_yielding {e : Expr} {T : Ty} {act : Watched Value} (typed : HasTy D.noted Γ e T)
    (fine : D.Fine e) (inner : D.Evals W h act fun v _ => D.conforms T v) :
    D.Evals W h (yielding e act) fun v _ => D.conforms T v := by
  apply evals_bind inner
  intro v k still conforms
  have tells : D.Tells k.records ⟨.evaluated e v, k.machine⟩ := by
    intro strict S known
    rw [ty_of_hasTy typed (D.notes strict)] at known
    cases known
    cases e with
    | list => exact absurd strict (fine_self fine).2
    | _ => exact conforms
  exact evals_bind (evals_note still.sound rfl tells) fun _ l still' _ =>
    evals_pure still'.sound conforms

variable (D W Γ) in
structure Found (i : Nat) (v : Variable) (h : History) : Prop where
  sound : D.Sound W h
  sees : D.SeesIn W Γ h
  recorded : D.noted → h.records[i]? = some (some v)

variable (D W Γ) in
structure FoundList (i : Nat) (v : Variable) (place : Nat) (h : History) : Prop
    extends D.Found W Γ i v h where
  held : D.typed → ListAt h.records h.machine i place

theorem found_still {i : Nat} {v : Variable} {k : History} (found : D.Found W Γ i v h)
    (still : D.Still W h k) : D.Found W Γ i v k :=
  ⟨still.sound, sees_still found.sound still found.sees,
    fun notes => getElem?_longer still.records (found.recorded notes)⟩

theorem foundList_still {i place : Nat} {v : Variable} {k : History}
    (found : D.FoundList W Γ i v place h) (still : D.Still W h k) : D.FoundList W Γ i v place k :=
  ⟨found_still found.toFound still, fun strict => still.lists strict i place (found.held strict)⟩

/-- A name that is known means a cell that has its record. -/
theorem evals_resolve {name : String} {v : Variable} {record : Option Variable}
    (known : Γ.findVariable? name = some v) (noting : Slot D.noted record v)
    (sees : D.SeesIn W Γ h) (sound : D.Sound W h) :
    D.Evals W h (resolve record name) fun i k => D.Found W Γ i v k := by
  obtain ⟨i, found, recorded⟩ := sees.names name v known
  have named : Eval.cellNamed name h.machine = .ok i h.machine := by
    simp only [Eval.cellNamed, Machine.cell?, found]
  have looked : D.Evals W h (step (Eval.cellNamed name)) fun j k =>
      j = i ∧ (D.noted → k.records[i]? = some (some v)) := by
    refine evals_look sound (looks_cellNamed name) (fun j is => ?_) fun e stopped => ?_
    · rw [named] at is
      cases is
      exact ⟨rfl, recorded⟩
    · rw [named] at stopped
      cases stopped
  apply evals_bind looked
  intro j k still same
  obtain ⟨rfl, recorded⟩ := same
  have tells : D.Tells k.records ⟨.resolved record j, k.machine⟩ := fun notes => by
    rw [recorded notes, noting notes]
  apply evals_bind (evals_note still.sound rfl tells)
  intro _ l still' _
  have found : D.Found W Γ j v k := ⟨still.sound, sees_still sound still sees, recorded⟩
  exact evals_pure still'.sound (found_still found still')

theorem evals_cell {i : Nat} {v : Variable} (found : D.Found W Γ i v h) :
    D.Evals W h (step (Eval.cell i)) fun c k => D.Found W Γ i v k ∧
      (D.typed → k.machine.cells[i]? = some c ∧ D.Holds k.machine.heap v c.value) := by
  have still := still_reach found.sound
  refine evals_look found.sound (looks_cell i) (fun c is => ⟨found_still found still,
    fun strict => ?_⟩) fun e stopped => by cases stopped
  have known := found.recorded (D.notes strict)
  have inside : i < h.machine.cells.size := by
    rw [found.sound.stored.size]
    exact (List.getElem?_eq_some_iff.mp known).1
  have there : h.machine.cells[i]? = some h.machine.cells[i] := Array.getElem?_eq_getElem inside
  simp only [Eval.cell, there, Option.getD_some] at is
  cases is
  exact ⟨there, found.sound.stored.conform strict i v _ known there⟩

theorem evals_listOf {i : Nat} {v : Variable} {c : Cell} (list : v.list = true)
    (found : D.Found W Γ i v h)
    (cell : D.typed → h.machine.cells[i]? = some c ∧ D.Holds h.machine.heap v c.value) :
    D.Evals W h (step (Eval.listOf c)) fun place k => D.FoundList W Γ i v place k := by
  have still := still_reach found.sound
  have holds : D.typed → ∃ p, c.value = .list p := fun strict => by
    have holds := (cell strict).2
    rw [Holds, if_pos list] at holds
    obtain ⟨p, is, _⟩ := holds
    exact ⟨p, is⟩
  refine evals_look found.sound (looks_listOf c) (fun place is =>
    ⟨found_still found still, fun strict => ?_⟩) fun e stopped cause same => ?_
  · obtain ⟨p, value⟩ := holds strict
    simp only [Eval.listOf, value] at is
    cases is
    exact ⟨v, c, found.recorded (D.notes strict), list, (cell strict).1, value⟩
  · subst same
    unfold Eval.listOf at stopped
    cases value : c.value with
    | list p =>
      simp only [value] at stopped
      cases stopped
    | _ =>
      have untyped : ¬ D.typed := fun strict => by
        obtain ⟨p, is⟩ := holds strict
        rw [value] at is
        cases is
      rw [value] at stopped
      cases stopped
      exact (D.free untyped).2.2.2 _ _

theorem evals_readList {i place : Nat} {v : Variable} (found : D.FoundList W Γ i v place h) :
    D.Evals W h (step (Eval.elements place)) fun vs k => D.FoundList W Γ i v place k ∧
      (D.typed → ∀ u ∈ vs, D.conforms v.ty u) := by
  have still := still_reach found.sound
  refine evals_look found.sound (looks_elements place) (fun vs is =>
    ⟨foundList_still found still, fun strict => ?_⟩) fun e stopped => by cases stopped
  cases is
  obtain ⟨w, c, known, list, there, value⟩ := found.held strict
  have holds := found.sound.stored.conform strict i w c known there
  rw [found.recorded (D.notes strict)] at known
  cases known
  rw [Holds, if_pos list] at holds
  obtain ⟨p, same, _, each⟩ := holds
  rw [value] at same
  cases same
  exact each

theorem evals_callableNamed {name : String} {arity : Nat} {s : Signature}
    (known : Γ.findFunction? name arity = some s) (sees : D.SeesIn W Γ h) (sound : D.Sound W h) :
    D.Evals W h (step (Eval.callableNamed name arity)) fun f k =>
      D.Implements W k.machine.home s f := by
  obtain ⟨f, found, implements⟩ :=
    sound.placed.functions name arity s (sees.functions name arity s known)
  rw [← sound.placed.sight] at found
  refine evals_look sound (looks_callableNamed name arity) (fun g is => ?_) fun e stopped => ?_
  · simp only [Eval.callableNamed, found] at is
    cases is
    exact implements
  · simp only [Eval.callableNamed, found] at stopped
    cases stopped

theorem position_ok {length k : Nat} {v : Value} {m n : Machine}
    (found : Eval.position length v m = .ok k n) : k < length := by
  cases v with
  | integer i =>
    by_cases inside : 0 ≤ i ∧ i < length
    · simp only [Eval.position, if_pos inside] at found
      cases found
      omega
    · simp only [Eval.position, if_neg inside] at found
      cases found
  | _ => cases found

theorem evals_position {length : Nat} {v : Value} (conforms : D.conforms .integer v)
    (sound : D.Sound W h) :
    D.Evals W h (step (Eval.position length v)) fun k _ => k < length := by
  apply evals_look sound (looks_position length v) (fun k found => position_ok found)
  intro e stopped r same
  subst same
  cases v with
  | integer i =>
    by_cases inside : 0 ≤ i ∧ i < length
    · simp only [Eval.position, if_pos inside] at stopped
      cases stopped
    · simp only [Eval.position, if_neg inside] at stopped
      cases stopped
      exact D.range i length
  | _ =>
    cases stopped
    rcases D.index conforms with ⟨i, is⟩ | permits
    · cases is
    · exact permits

theorem evals_boolean {v : Value} (conforms : D.conforms .boolean v) (sound : D.Sound W h) :
    D.Evals W h (step (Eval.boolean v)) fun _ _ => True := by
  apply evals_look sound (looks_boolean v) (fun _ _ => trivial)
  intro e stopped r same
  subst same
  cases v with
  | boolean b => cases stopped
  | _ =>
    cases stopped
    rcases D.truth conforms with ⟨b, is⟩ | permits
    · cases is
    · exact permits

theorem evals_apply {op : Operator} {L R T : Ty} {l r : Value} (strict : op.IsStrict)
    (left : D.types L) (right : D.types R) (operands : D.operands op L R)
    (result : op.resultType? L R = some T) (conformsL : D.conforms L l)
    (conformsR : D.conforms R r) (sound : D.Sound W h) :
    D.Evals W h (step (Eval.onHeap fun heap => Operation.apply rule heap op l r)) fun v _ =>
      D.conforms T v := by
  have law := D.result h.machine.heap strict left right operands result conformsL conformsR
  refine evals_look sound (looks_onHeap _) (fun v found => law.1 v ?_) fun e stopped cause same =>
    law.2 cause ?_
  · unfold Eval.onHeap Eval.lift at found
    cases ended : Operation.apply rule h.machine.heap op l r <;> simp [ended] at found
    rw [found]
  · unfold Eval.onHeap Eval.lift at stopped
    cases ended : Operation.apply rule h.machine.heap op l r <;> simp [ended] at stopped
    rw [stopped, same]

theorem evals_arguments (ih : D.SoundAt W fuel) {types : List Ty} {es : List Expr}
    (ok : ArgumentsOk D.noted Γ types es) (fine : ∀ e ∈ es, D.Fine e) (sees : D.SeesIn W Γ h)
    (sound : D.Sound W h) :
    D.Evals W h (es.mapM (evaluate rule fuel)) fun vs _ => List.Forall₂ D.conforms types vs := by
  induction es generalizing types h with
  | nil =>
    cases ok
    exact evals_pure sound .nil
  | cons e es rest =>
    cases ok with
    | cons typed accepts others =>
      rw [List.mapM_cons]
      apply evals_bind (ih.evaluate typed (fine e List.mem_cons_self) sees sound)
      intro v k still conforms
      apply evals_bind (rest others (fun x member => fine x (List.mem_cons_of_mem e member))
        (sees_still sound still sees) still.sound)
      intro vs l still' all
      exact evals_pure still'.sound (.cons (D.accepts conforms accepts) all)

theorem evals_elements (ih : D.SoundAt W fuel) {T : Ty} {es : List Expr}
    (typed : ∀ e ∈ es, HasTy D.noted Γ e T) (fine : ∀ e ∈ es, D.Fine e) (sees : D.SeesIn W Γ h)
    (sound : D.Sound W h) :
    D.Evals W h (es.mapM (evaluate rule fuel)) fun vs _ => ∀ v ∈ vs, D.conforms T v := by
  induction es generalizing h with
  | nil => exact evals_pure sound (by simp)
  | cons e es rest =>
    rw [List.mapM_cons]
    have first := ih.evaluate (typed e List.mem_cons_self) (fine e List.mem_cons_self) sees sound
    apply evals_bind first
    intro v k still conforms
    apply evals_bind (rest (fun x member => typed x (List.mem_cons_of_mem e member))
      (fun x member => fine x (List.mem_cons_of_mem e member)) (sees_still sound still sees)
      still.sound)
    intro vs l still' all
    apply evals_pure still'.sound
    intro w member
    rcases List.mem_cons.mp member with rfl | other
    · exact conforms
    · exact all w other

theorem evals_literalList {T : Ty} {es : List Expr} {slot : Option Ty}
    (elements : D.Evals W h (es.mapM (evaluate rule fuel)) fun vs _ => ∀ v ∈ vs, D.conforms T v)
    (noting : Slot D.noted slot T) :
    D.Evals W h (evaluate rule (fuel + 1) (.list es slot)) fun v k => ∃ p, v = .list p ∧
      p < k.machine.heap.size ∧ (∀ u ∈ k.machine.heap.elements p, D.conforms T u) ∧
        (D.typed → ∀ i, ¬ ListAt k.records k.machine i p) := by
  have made : D.Evals W h (es.mapM (evaluate rule fuel) >>= fun vs => step (Eval.newList vs))
      fun v k => ∃ p, v = .list p ∧ p < k.machine.heap.size ∧
        (∀ u ∈ k.machine.heap.elements p, D.conforms T u) ∧
          (D.typed → ∀ i, ¬ ListAt k.records k.machine i p) := by
    apply evals_bind elements
    intro vs k still conform
    refine runs_imp (evals_newList vs still.sound) ?_
    rintro v l - ⟨p, is, inside, elements, fresh⟩
    exact ⟨p, is, inside, by rwa [elements], fresh⟩
  apply evals_bind made
  intro v k still made
  obtain ⟨p, rfl, inside, conform, fresh⟩ := made
  have tells : D.Tells k.records ⟨.evaluated (.list es slot) (.list p), k.machine⟩ := by
    intro strict S known
    have same : slot = some S := known
    rw [noting (D.notes strict)] at same
    cases same
    exact ⟨p, rfl, inside, conform⟩
  have noted : D.Evals W k (note (.evaluated (.list es slot) (.list p))) fun _ l =>
      l = k.note (.evaluated (.list es slot) (.list p)) := ⟨still_note still.sound rfl tells, rfl⟩
  refine evals_bind noted fun _ l still' same => evals_pure still'.sound ⟨p, rfl, ?_⟩
  subst same
  have records := records_come k (m := k.machine) (e := .evaluated (.list es slot) (.list p)) rfl
  exact ⟨inside, conform, fun strict i held => fresh strict i (records ▸ held)⟩

theorem evals_condition (ih : D.SoundAt W fuel) {e : Expr} (typed : HasTy D.noted Γ e .boolean)
    (fine : D.Fine e) (sees : D.SeesIn W Γ h) (sound : D.Sound W h) :
    D.Evals W h (condition rule (fuel + 1) e) fun _ _ => True :=
  evals_bind (ih.evaluate typed fine sees sound) fun _ _ still conforms =>
    evals_boolean conforms still.sound

theorem evals_binary (ih : D.SoundAt W fuel) {op : Operator} {left right : Expr} {T : Ty}
    {slot : Option Ty} (typed : HasTy D.noted Γ (.binary op left right slot) T)
    (fine : D.Fine (.binary op left right slot)) (sees : D.SeesIn W Γ h) (sound : D.Sound W h) :
    D.Evals W h (evaluate rule (fuel + 1) (.binary op left right slot)) fun v _ =>
      D.conforms T v := by
  refine evals_yielding typed fine ?_
  cases typed with
  | binary first second result ty =>
    rename_i L R
    have truth : ∀ b, D.conforms .boolean (.boolean b) := fun b => D.literal (.boolean b)
    have fineL := fine_left fine
    have fineR := fine_right fine
    have operands : D.operands op L R := by
      by_cases strict : D.typed
      · exact (fine_self fine).2 L R (ty_of_hasTy first (D.notes strict))
          (ty_of_hasTy second (D.notes strict))
      · exact (D.free strict).2.2.1 op L R
    cases op with
    | and =>
      simp only [Operator.resultType?, Option.ite_none_right_eq_some, Option.some.injEq] at result
      obtain ⟨⟨rfl, rfl⟩, rfl⟩ := result
      apply evals_bind (ih.condition first fineL sees sound)
      intro b k still _
      cases b with
      | false => exact evals_pure still.sound (truth false)
      | true =>
        apply evals_bind (ih.condition second fineR (sees_still sound still sees) still.sound)
        intro b l still' _
        exact evals_pure still'.sound (truth b)
    | or =>
      simp only [Operator.resultType?, Option.ite_none_right_eq_some, Option.some.injEq] at result
      obtain ⟨⟨rfl, rfl⟩, rfl⟩ := result
      apply evals_bind (ih.condition first fineL sees sound)
      intro b k still _
      cases b with
      | true => exact evals_pure still.sound (truth true)
      | false =>
        apply evals_bind (ih.condition second fineR (sees_still sound still sees) still.sound)
        intro b l still' _
        exact evals_pure still'.sound (truth b)
    | _ =>
      apply evals_bind (ih.evaluate first fineL sees sound)
      intro l k still conformsL
      apply evals_bind (ih.evaluate second fineR (sees_still sound still sees) still.sound)
      intro r k still' conformsR
      exact evals_apply trivial (types_of_fine first fineL) (types_of_fine second fineR) operands
        result conformsL conformsR still'.sound

theorem evals_access {name : String} {record : Option Variable} {slot : Option Ty} {T : Ty}
    (typed : HasTy D.noted Γ (.access name record slot) T)
    (fine : D.Fine (.access name record slot)) (sees : D.SeesIn W Γ h) (sound : D.Sound W h) :
    D.Evals W h (evaluate rule (fuel + 1) (.access name record slot)) fun v _ =>
      D.conforms T v := by
  refine evals_yielding typed fine ?_
  have types := types_of_fine typed fine
  cases typed with
  | access known recorded ty =>
    rename_i v
    apply evals_bind (evals_resolve known recorded sees sound)
    intro i k still found
    apply evals_bind (evals_cell found)
    intro c l still' cell
    refine evals_pure still'.sound (conforms_of fun strict => ?_)
    have holds := (cell.2 strict).2
    unfold Holds at holds
    unfold Variable.whole at types ⊢
    split
    · next list =>
      rw [if_pos list] at types holds
      obtain ⟨p, is, _⟩ := holds
      rw [is]
      exact D.whole types p
    · next single =>
      rw [if_neg single] at holds
      exact holds

theorem evals_element (ih : D.SoundAt W fuel) {name : String} {index : Expr}
    {record : Option Variable} {slot : Option Ty} {T : Ty}
    (typed : HasTy D.noted Γ (.element name index record slot) T)
    (fine : D.Fine (.element name index record slot)) (sees : D.SeesIn W Γ h)
    (sound : D.Sound W h) :
    D.Evals W h (evaluate rule (fuel + 1) (.element name index record slot)) fun v _ =>
      D.conforms T v := by
  refine evals_yielding typed fine ?_
  cases typed with
  | element known list position recorded ty =>
    rename_i v
    apply evals_bind (evals_resolve known recorded sees sound)
    intro i k _ found
    apply evals_bind (evals_cell found)
    intro c k _ done
    obtain ⟨found, cell⟩ := done
    apply evals_bind (evals_listOf list found cell)
    intro place k _ found
    apply evals_bind (ih.evaluate position (fine_index fine) found.sees found.sound)
    intro n k still integer
    have found := foundList_still found still
    apply evals_bind (evals_readList found)
    intro vs k still done
    obtain ⟨_, each⟩ := done
    apply evals_bind (evals_position integer still.sound)
    intro n l still' inside
    refine evals_pure still'.sound (conforms_of fun strict => each strict _ ?_)
    rw [List.getD_eq_getElem?_getD, List.getElem?_eq_getElem inside]
    exact List.getElem_mem inside

theorem sound_evaluate (ih : D.SoundAt W fuel) {e : Expr} {T : Ty} (typed : HasTy D.noted Γ e T)
    (fine : D.Fine e) (sees : D.SeesIn W Γ h) (sound : D.Sound W h) :
    D.Evals W h (evaluate rule (fuel + 1) e) fun v _ => D.conforms T v := by
  cases e with
  | literal value slot =>
    refine evals_yielding typed fine ?_
    cases typed
    exact evals_pure sound (D.literal value)
  | group inner slot =>
    refine evals_yielding typed fine ?_
    cases typed with
    | group _ inner _ => exact ih.evaluate inner (fine_group fine) sees sound
  | binary op left right slot => exact evals_binary ih typed fine sees sound
  | access name record slot => exact evals_access typed fine sees sound
  | element name index record slot => exact evals_element ih typed fine sees sound
  | call name args signature slot =>
    refine evals_yielding typed fine ?_
    cases typed with
    | call known passed _ _ =>
      apply evals_bind (evals_callableNamed known sees sound)
      intro f k still implements
      have sees := sees_still sound still sees
      apply evals_bind (evals_arguments ih passed (fine_arguments fine) sees still.sound)
      intro vs l still' conform
      have tells : D.Tells l.records ⟨.called (.call name args signature slot) f, l.machine⟩ :=
        trivial
      apply evals_bind (evals_note still'.sound rfl tells)
      intro _ m still'' _
      -- the arguments are evaluated later than the function is found, in the same scopes
      have home := still''.home.trans still'.home
      exact ih.invoke (home ▸ implements) conform still''.sound
  | list es slot =>
    -- nothing is said of values here, since list literals are admitted nowhere else
    have untyped : ¬ D.typed := (fine_self fine).2
    cases typed with
    | list head tail ty =>
      have typed : ∀ e ∈ _ :: _, HasTy D.noted Γ e T :=
        List.forall_mem_cons.mpr ⟨head, hasTy_of_elements tail⟩
      have elements := evals_elements ih typed (fine_elements fine) sees sound
      exact runs_imp (evals_literalList elements ty) fun v _ _ _ => (D.free untyped).1 T v

end Plc.Discipline

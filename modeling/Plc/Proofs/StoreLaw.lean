import Plc.Proofs.Watch.Runs

/-!
Laws of the store. A store law says what holds of the variables and lists of a machine, which values
are valid there, and how a later store may differ from an earlier one. Once it is seen to be kept by
the few actions that change the store, it is kept by every run of every program, typed or not, at
each of its moments and however the run ends.
-/

namespace Plc

open Watched

structure StoreLaw (rule : DivisionScale) where
  holds : Machine → Prop
  valid : Machine → Value → Prop
  grows : Machine → Machine → Prop
  refl : ∀ m, grows m m
  trans : ∀ {m n o}, grows m n → grows n o → grows m o
  lasts : ∀ {m n v}, grows m n → valid m v → valid n v
  literal : ∀ m l, valid m (.ofLiteral l)
  /-- Only variables and lists matter. -/
  aside : ∀ (m n : Machine), n.cells = m.cells → n.heap = m.heap → holds m → holds n ∧ grows m n
  cell : ∀ {m : Machine} {i : Nat} {c : Cell}, holds m → m.cells[i]? = some c → valid m c.value
  element : ∀ {m : Machine} {place : Nat} {v : Value}, holds m → v ∈ m.heap.elements place →
    valid m v
  operation : ∀ {m : Machine} {op : Operator} {l r v : Value}, holds m → valid m l → valid m r →
    Operation.apply rule m.heap op l r = .ok v → valid m v
  defined : ∀ {m : Machine} {v : Value} (name : String) (mutable : Bool), holds m → valid m v →
    holds (m.defining name mutable v) ∧ grows m (m.defining name mutable v)
  /-- The variable was seen to be mutable, now or before. -/
  assigned : ∀ {before m : Machine} {i : Nat} {c : Cell} {v : Value}, holds before →
    grows before m → before.cells[i]? = some c → c.mutable = true → holds m → valid m v →
    holds (m.setting i v) ∧ grows m (m.setting i v)
  listed : ∀ {m : Machine} {vs : List Value}, holds m → (∀ v ∈ vs, valid m v) →
    holds (m.listing vs) ∧ grows m (m.listing vs) ∧ valid (m.listing vs) (.list m.heap.size)
  stored : ∀ {m : Machine} {place k : Nat} {v : Value}, holds m → valid m (.list place) →
    valid m v → Operation.closesCycle m.heap place v = .ok false →
    holds (m.storing place k v) ∧ grows m (m.storing place k v)

namespace StoreLaw

variable {rule : DivisionScale} (L : StoreLaw rule)

def Sees (x : Moment) : Prop :=
  match x.event with
  | .evaluated _ v => L.valid x.machine v
  | .invoked _ vs => ∀ v ∈ vs, L.valid x.machine v
  | _ => True

/-- The law holds now and at every moment since `h`, and each of them grows out of all before it. -/
def Kept (h k : History) : Prop :=
  L.holds k.machine ∧ L.grows h.machine k.machine ∧
    ∃ new, k.moments = new ++ h.moments ∧
      (∀ x ∈ new, L.holds x.machine ∧ L.Sees x ∧ L.grows h.machine x.machine ∧
        L.grows x.machine k.machine) ∧
      new.Pairwise fun later earlier => L.grows earlier.machine later.machine

theorem kept_same {h : History} (holds : L.holds h.machine) : L.Kept h h :=
  ⟨holds, L.refl _, [], rfl, by simp, .nil⟩

theorem kept_self {h k : History} (kept : L.Kept h k) : L.Kept k k := L.kept_same kept.1

theorem kept_trans {h k l : History} (first : L.Kept h k) (second : L.Kept k l) : L.Kept h l := by
  obtain ⟨_, hk, new, moments, between, ordered⟩ := first
  obtain ⟨holds, kl, newer, moments', between', ordered'⟩ := second
  refine ⟨holds, L.trans hk kl, newer ++ new, by rw [moments', moments, List.append_assoc], ?_, ?_⟩
  · intro x hx
    rcases List.mem_append.mp hx with hx | hx
    · obtain ⟨hx, sees, before, after⟩ := between' x hx
      exact ⟨hx, sees, L.trans hk before, after⟩
    · obtain ⟨hx, sees, before, after⟩ := between x hx
      exact ⟨hx, sees, before, L.trans after kl⟩
  · refine List.pairwise_append.mpr ⟨ordered', ordered, ?_⟩
    intro later hl earlier he
    exact L.trans (between earlier he).2.2.2 (between' later hl).2.2.1

theorem kept_come {h : History} {m : Machine} (e : Event) (holds : L.holds m)
    (grows : L.grows h.machine m) (sees : L.Sees ⟨e, m⟩) : L.Kept h (h.come e m) :=
  ⟨holds, grows, [⟨e, m⟩], rfl, by simpa using ⟨holds, sees, grows, L.refl m⟩, by simp⟩

theorem kept_reach {h : History} {m : Machine} (holds : L.holds m) (grows : L.grows h.machine m) :
    L.Kept h (h.reach m) := L.kept_come .reached holds grows trivial

theorem kept_note {h : History} (e : Event) (holds : L.holds h.machine)
    (sees : L.Sees ⟨e, h.machine⟩) : L.Kept h (h.note e) := L.kept_come e holds (L.refl _) sees

/-- What is not in the store may change at will. -/
theorem kept_aside {h k : History} (kept : L.Kept h k) {m : Machine}
    (cells : m.cells = k.machine.cells) (heap : m.heap = k.machine.heap) :
    L.Kept h (k.reach m) := by
  have a := L.aside _ m cells heap kept.1
  exact L.kept_trans kept (L.kept_reach a.1 a.2)

variable {α β : Type}

def Keeps (h : History) (act : Watched α) (good : α → History → Prop) : Prop :=
  Runs L.Kept (fun _ _ => True) h act good

def Valid (v : Value) (h : History) : Prop := L.valid h.machine v

variable {L} {h : History}

theorem valid_lasts {k : History} {v : Value} (kept : L.Kept h k) (valid : L.Valid v h) :
    L.Valid v k := L.lasts kept.2.1 valid

theorem keeps_pure {a : α} {good : α → History → Prop} (holds : L.holds h.machine)
    (value : good a h) : L.Keeps h (pure a) good := runs_pure (L.kept_same holds) value

theorem keeps_bind {act : Watched α} {next : α → Watched β} {good : α → History → Prop}
    {result : β → History → Prop} (first : L.Keeps h act good)
    (rest : ∀ a k, L.Kept h k → good a k → L.Keeps k (next a) result) :
    L.Keeps h (act >>= next) result := runs_bind L.kept_trans first rest

theorem keeps_note (e : Event) (holds : L.holds h.machine) (sees : L.Sees ⟨e, h.machine⟩) :
    L.Keeps h (note e) (fun _ _ => True) := ⟨L.kept_note e holds sees, trivial⟩

theorem keeps_look {act : Eval α} {good : α → History → Prop} (holds : L.holds h.machine)
    (looks : Looks act)
    (value : ∀ a, act h.machine = .ok a h.machine → good a (h.reach h.machine)) :
    L.Keeps h (step act) good :=
  runs_look looks (L.kept_reach holds (L.refl _)) value fun _ _ => trivial

/-- A look whose answer does not matter. -/
theorem keeps_glance {act : Eval α} (holds : L.holds h.machine) (looks : Looks act) :
    L.Keeps h (step act) (fun _ _ => True) := keeps_look holds looks fun _ _ => trivial

theorem keeps_inChildOf {parent : Nat} {act : Watched α} {good : α → History → Prop}
    (holds : L.holds h.machine) (body : ∀ k, L.Kept h k → L.Keeps k act good)
    (lasts : ∀ a {k l}, L.Kept k l → good a k → good a l) :
    L.Keeps h (inChildOf parent act) good := by
  have enter : L.Kept h (h.reach (h.machine.entered parent)) :=
    L.kept_aside (L.kept_same holds) rfl rfl
  refine runs_inChildOf (body _ enter) (fun k kept => ?_) (fun _ _ _ => trivial)
    fun a k kept value => ?_
  · exact L.kept_aside (L.kept_trans enter kept) rfl rfl
  · exact lasts a (L.kept_aside (L.kept_self kept) rfl rfl) value

theorem keeps_inChild {act : Watched α} {good : α → History → Prop}
    (holds : L.holds h.machine) (body : ∀ k, L.Kept h k → L.Keeps k act good)
    (lasts : ∀ a {k l}, L.Kept k l → good a k → good a l) : L.Keeps h (inChild act) good :=
  keeps_inChildOf holds body lasts

def ValidFlow (L : StoreLaw rule) : Flow → History → Prop
  | .next, _ => True
  | .returned v, h => L.Valid v h

theorem validFlow_lasts (flow : Flow) {k l : History} (kept : L.Kept k l)
    (valid : L.ValidFlow flow k) : L.ValidFlow flow l := by
  cases flow with
  | next => trivial
  | returned v => exact valid_lasts kept valid

theorem keeps_define (record : Option Variable) (name : String) (mutable : Bool) {v : Value}
    (holds : L.holds h.machine) (valid : L.Valid v h) :
    L.Keeps h (define record name mutable v) (fun _ _ => True) := by
  unfold Keeps Runs define Eval.define
  cases h.machine.scopes.variableClash? h.machine.current name with
  | some r => exact ⟨L.kept_reach holds (L.refl _), trivial⟩
  | none =>
    have d := L.defined name mutable holds valid
    exact ⟨L.kept_come _ d.1 d.2 trivial, trivial⟩

theorem keeps_resolve (record : Option Variable) (name : String) (holds : L.holds h.machine) :
    L.Keeps h (resolve record name) (fun _ _ => True) := by
  apply keeps_bind (keeps_glance holds (looks_cellNamed name))
  intro i k kept _
  exact keeps_bind (keeps_note _ kept.1 trivial) fun _ l kept' _ => keeps_pure kept'.1 trivial

theorem keeps_cell (i : Nat) (holds : L.holds h.machine) :
    L.Keeps h (step (Eval.cell i)) (fun c k => L.Valid c.value k ∧
      (c.mutable = true → k.machine.cells[i]? = some c)) := by
  apply keeps_look holds (looks_cell i)
  intro c found
  obtain rfl : h.machine.cells[i]?.getD default = c := by injection found
  cases hc : h.machine.cells[i]? with
  | none => exact ⟨L.literal _ .nil, fun mutable => absurd mutable (by decide)⟩
  | some c => exact ⟨L.cell holds hc, fun _ => hc⟩

theorem keeps_print (vs : List Value) (holds : L.holds h.machine) :
    L.Keeps h (step (Eval.print vs)) L.Valid := by
  have still : L.Kept h (h.reach h.machine) := L.kept_reach holds (L.refl _)
  refine runs_step ?_
  cases vs with
  | nil => exact ⟨still, trivial⟩
  | cons v others =>
    cases others with
    | cons => exact ⟨still, trivial⟩
    | nil =>
      rcases print_one v h.machine with ⟨line, printed⟩ | stopped
      · rw [printed]
        have a := L.aside h.machine (h.machine.printing line) rfl rfl holds
        exact ⟨L.kept_reach a.1 a.2, L.literal _ .nil⟩
      · rw [stopped]
        exact ⟨still, trivial⟩

theorem keeps_apply {op : Operator} {l r : Value} (holds : L.holds h.machine) (left : L.Valid l h)
    (right : L.Valid r h) :
    L.Keeps h (step (Eval.onHeap fun heap => Operation.apply rule heap op l r)) L.Valid := by
  apply keeps_look holds (looks_onHeap _)
  intro v result
  unfold Eval.onHeap Eval.lift at result
  cases ha : Operation.apply rule h.machine.heap op l r with
  | error e => simp [ha] at result
  | ok w =>
    obtain rfl : w = v := by simpa [ha] using result
    exact L.operation holds left right ha

theorem keeps_newList {vs : List Value} (holds : L.holds h.machine)
    (valid : ∀ v ∈ vs, L.Valid v h) :
    L.Keeps h (step (Eval.newList vs)) L.Valid :=
  have l := L.listed holds valid
  runs_step ⟨L.kept_reach l.1 l.2.1, l.2.2⟩

theorem keeps_listOf {c : Cell} (holds : L.holds h.machine) (valid : L.Valid c.value h) :
    L.Keeps h (step (Eval.listOf c)) (fun place k => L.Valid (.list place) k) := by
  apply keeps_look holds (looks_listOf c)
  intro place found
  unfold Eval.listOf at found
  cases hv : c.value with
  | list p =>
    rw [hv] at found valid
    cases found
    exact valid
  | _ =>
    rw [hv] at found
    cases found

variable (L)

structure KeptAt (fuel : Nat) : Prop where
  evaluate : ∀ e h, L.holds h.machine → L.Keeps h (evaluate rule fuel e) L.Valid
  condition : ∀ e h, L.holds h.machine → L.Keeps h (condition rule fuel e) (fun _ _ => True)
  invoke : ∀ f vs h, L.holds h.machine → (∀ v ∈ vs, L.Valid v h) →
    L.Keeps h (invoke rule fuel f vs) L.Valid
  execute : ∀ s h, L.holds h.machine → L.Keeps h (execute rule fuel s) L.ValidFlow
  assign : ∀ receiver value h, L.holds h.machine →
    L.Keeps h (assign rule fuel receiver value) (fun _ _ => True)
  repeatWhile : ∀ c body h, L.holds h.machine → L.Keeps h (repeatWhile rule fuel c body) L.ValidFlow

variable {L} {fuel : Nat}

theorem keeps_evaluateAll (ih : L.KeptAt fuel) (es : List Expr) (holds : L.holds h.machine) :
    L.Keeps h (es.mapM (evaluate rule fuel)) (fun vs k => ∀ v ∈ vs, L.Valid v k) :=
  runs_mapM es (L.kept_same holds) L.kept_self L.kept_trans valid_lasts
    fun e _ k kept => ih.evaluate e k kept.1

theorem keeps_sequence (ih : L.KeptAt fuel) (ss : List Stmt) (holds : L.holds h.machine) :
    L.Keeps h (sequence (execute rule fuel) ss) L.ValidFlow := by
  induction ss generalizing h with
  | nil => exact keeps_pure holds trivial
  | cons s ss rest =>
    apply keeps_bind (ih.execute s h holds)
    intro flow k kept valid
    cases flow with
    | next => exact rest kept.1
    | returned v => exact keeps_pure kept.1 valid

theorem keeps_matching (ih : L.KeptAt fuel) (v : Value) (cases : List Case)
    (holds : L.holds h.machine) :
    L.Keeps h (matching (evaluate rule fuel) v cases) (fun _ _ => True) := by
  induction cases generalizing h with
  | nil => exact keeps_pure holds trivial
  | cons c cs rest =>
    obtain ⟨value, body⟩ := c
    cases value with
    | none => exact rest holds
    | some e =>
      apply keeps_bind (ih.evaluate e h holds)
      intro w k kept _
      apply keeps_bind (keeps_glance kept.1 (looks_onHeap _))
      intro same l kept' _
      cases same with
      | true => exact keeps_pure kept'.1 trivial
      | false => exact rest kept'.1

theorem keeps_bindParameters (ps : List Parameter) (types : List Ty) (vs : List Value)
    (holds : L.holds h.machine) (valid : ∀ v ∈ vs, L.Valid v h) :
    L.Keeps h (bindParameters ps types vs) (fun _ _ => True) := by
  induction ps generalizing types vs h with
  | nil => exact keeps_pure holds trivial
  | cons p ps rest =>
    cases vs with
    | nil => exact keeps_pure holds trivial
    | cons v vs =>
      apply keeps_bind (keeps_define _ _ _ holds (valid v List.mem_cons_self))
      intro _ k kept _
      exact rest types.tail vs kept.1 fun w hw =>
        valid_lasts kept (valid w (List.mem_cons_of_mem v hw))

theorem keeps_evaluate (ih : L.KeptAt fuel) (e : Expr) (holds : L.holds h.machine) :
    L.Keeps h (evaluate rule (fuel + 1) e) L.Valid := by
  have noted : ∀ {act : Watched Value}, L.Keeps h act L.Valid →
      L.Keeps h (yielding e act) L.Valid := by
    intro act inner
    refine keeps_bind inner fun v k kept valid => ?_
    refine keeps_bind (keeps_note _ kept.1 valid) fun _ l kept' _ => ?_
    exact keeps_pure kept'.1 (valid_lasts kept' valid)
  have boolean : ∀ b k, L.holds k.machine → L.Keeps k (pure (Value.boolean b)) L.Valid :=
    fun b k holds => keeps_pure holds (L.literal _ (.boolean b))
  refine noted ?_
  cases e with
  | literal value ty => exact keeps_pure holds (L.literal _ value)
  | group inner ty => exact ih.evaluate inner h holds
  | binary op left right ty =>
    cases op with
    | and =>
      apply keeps_bind (ih.condition left h holds)
      intro b k kept _
      cases b with
      | true =>
        exact keeps_bind (ih.condition right k kept.1) fun b l kept' _ => boolean b l kept'.1
      | false => exact boolean false k kept.1
    | or =>
      apply keeps_bind (ih.condition left h holds)
      intro b k kept _
      cases b with
      | true => exact boolean true k kept.1
      | false =>
        exact keeps_bind (ih.condition right k kept.1) fun b l kept' _ => boolean b l kept'.1
    | _ =>
      apply keeps_bind (ih.evaluate left h holds)
      intro lv k kept validL
      apply keeps_bind (ih.evaluate right k kept.1)
      intro rv l kept' validR
      exact keeps_apply kept'.1 (valid_lasts kept' validL) validR
  | access name record ty =>
    apply keeps_bind (keeps_resolve record name holds)
    intro i k kept _
    apply keeps_bind (keeps_cell i kept.1)
    intro c l kept' found
    exact keeps_pure kept'.1 found.1
  | element name index record ty =>
    apply keeps_bind (keeps_resolve record name holds)
    intro i k kept _
    apply keeps_bind (keeps_cell i kept.1)
    intro c l kept' found
    apply keeps_bind (keeps_listOf kept'.1 found.1)
    intro place l kept _
    apply keeps_bind (ih.evaluate index l kept.1)
    intro v l kept _
    have held : L.Keeps l (step (Eval.elements place)) (fun vs k => ∀ w ∈ vs, L.Valid w k) := by
      apply keeps_look kept.1 (looks_elements place)
      intro vs found w hw
      cases found
      exact L.element kept.1 hw
    apply keeps_bind held
    intro vs l kept valid
    apply keeps_bind (keeps_glance kept.1 (looks_position vs.length v))
    intro k l kept' _
    refine keeps_pure kept'.1 (valid_lasts kept' ?_)
    rw [List.getD_eq_getElem?_getD]
    cases hk : vs[k]? with
    | none => exact L.literal _ .nil
    | some w => exact valid w (List.mem_of_getElem? hk)
  | call name args signature ty =>
    apply keeps_bind (keeps_glance holds (looks_callableNamed name args.length))
    intro f k kept _
    apply keeps_bind (keeps_evaluateAll ih args kept.1)
    intro vs l kept' valid
    have sees : L.Sees ⟨.called (.call name args signature ty) f, l.machine⟩ := trivial
    apply keeps_bind (keeps_note _ kept'.1 sees)
    intro _ m kept'' _
    exact ih.invoke f vs m kept''.1 fun v hv => valid_lasts kept'' (valid v hv)
  | list es ty =>
    apply keeps_bind (keeps_evaluateAll ih es holds)
    intro vs k kept valid
    exact keeps_newList kept.1 valid

theorem keeps_fail {e : RuntimeError} {next : α → Watched β} {result : β → History → Prop}
    (holds : L.holds h.machine) : L.Keeps h (step (Eval.fail e : Eval α) >>= next) result := by
  have failed : L.Keeps h (step (Eval.fail e : Eval α)) (fun _ _ => False) :=
    keeps_look holds (looks_fail e) fun a found => by cases found
  exact keeps_bind failed fun _ _ _ never => never.elim

theorem keeps_invoke (ih : L.KeptAt fuel) (f : Callable) (vs : List Value)
    (holds : L.holds h.machine) (valid : ∀ v ∈ vs, L.Valid v h) :
    L.Keeps h (invoke rule (fuel + 1) f vs) L.Valid := by
  refine keeps_bind (keeps_note _ holds valid) fun _ k kept _ => ?_
  have valid' : ∀ v ∈ vs, L.Valid v k := fun v hv => valid_lasts kept (valid v hv)
  cases f with
  | print => exact keeps_print vs kept.1
  | function declaration scope =>
    refine runs_get ?_
    by_cases alive : k.machine.isAlive scope
    · simp only [alive, Bool.not_true, Bool.false_eq_true, if_false]
      have body : ∀ l, L.Kept k l → L.Keeps l (do
          bindParameters declaration.parameters (parameterTypes declaration) vs
          sequence (execute rule fuel) declaration.body) L.ValidFlow := fun l kept =>
        keeps_bind (keeps_bindParameters _ _ vs kept.1 fun v hv => valid_lasts kept (valid' v hv))
          fun _ _ kept _ => keeps_sequence ih declaration.body kept.1
      refine keeps_bind (keeps_inChildOf kept.1 body fun flow _ _ => validFlow_lasts flow) ?_
      intro flow l kept validFlow
      cases flow with
      | next => exact keeps_pure kept.1 (L.literal _ .nil)
      | returned v => exact keeps_pure kept.1 validFlow
    · simp only [alive, Bool.not_false, if_true]
      exact keeps_fail kept.1

theorem keeps_execute (ih : L.KeptAt fuel) (s : Stmt) (holds : L.holds h.machine) :
    L.Keeps h (execute rule (fuel + 1) s) L.ValidFlow := by
  have inner : ∀ ss k, L.holds k.machine →
      L.Keeps k (inChild (sequence (execute rule fuel) ss)) L.ValidFlow := fun ss k holds =>
    keeps_inChild holds (fun _ kept => keeps_sequence ih ss kept.1) fun flow _ _ =>
      validFlow_lasts flow
  cases s with
  | expression e =>
    exact keeps_bind (ih.evaluate e h holds) fun _ k kept _ => keeps_pure kept.1 trivial
  | declaration name typeName value record =>
    have defined : ∀ v k, L.holds k.machine → L.Valid v k →
        L.Keeps k (define record name true v >>= fun _ => pure Flow.next) L.ValidFlow :=
      fun v k holds valid => keeps_bind (keeps_define record name true holds valid)
        fun _ l kept _ => keeps_pure kept.1 trivial
    cases value with
    | none => exact defined .nil h holds (L.literal _ .nil)
    | some e =>
      exact keeps_bind (ih.evaluate e h holds) fun v k kept valid => defined v k kept.1 valid
  | assignment receiver value =>
    exact keeps_bind (ih.assign receiver value h holds) fun _ k kept _ => keeps_pure kept.1 trivial
  | conditional c whenTrue whenFalse =>
    exact keeps_bind (ih.condition c h holds) fun b k kept _ => inner _ k kept.1
  | switch c cases =>
    apply keeps_bind (ih.evaluate c h holds)
    intro v k kept _
    refine keeps_inChild kept.1 (fun l kept => ?_) fun flow _ _ => validFlow_lasts flow
    apply keeps_bind (keeps_matching ih v cases kept.1)
    intro body l kept _
    cases body <|> Eval.defaultBody cases with
    | none => exact keeps_pure kept.1 trivial
    | some body => exact inner body l kept.1
  | loop c body => exact ih.repeatWhile c body h holds
  | «return» e =>
    exact keeps_bind (ih.evaluate e h holds) fun v k kept valid => keeps_pure kept.1 valid

/-- An element is stored only once the cycle check has passed. -/
theorem keeps_stored {place : Nat} {k v : Value} (holds : L.holds h.machine)
    (list : L.Valid (.list place) h) (valid : L.Valid v h)
    (passed : Operation.closesCycle h.machine.heap place v = .ok false) :
    L.Keeps h (do
      let vs ← step (Eval.elements place)
      let k ← step (Eval.position vs.length k)
      step (Eval.setElement place k v)) (fun _ _ => True) := by
  have looked : L.Keeps h (step (Eval.elements place)) (fun _ l => l.machine = h.machine) :=
    keeps_look holds (looks_elements place) fun _ _ => rfl
  apply keeps_bind looked
  intro vs l kept same
  have found : L.Keeps l (step (Eval.position vs.length k)) (fun _ m => m.machine = l.machine) :=
    keeps_look kept.1 (looks_position vs.length k) fun _ _ => rfl
  apply keeps_bind found
  intro k m kept' same'
  have s : L.holds (m.machine.storing place k v) ∧
      L.grows m.machine (m.machine.storing place k v) := by
    rw [same', same]
    exact L.stored holds list valid passed
  exact runs_step ⟨L.kept_reach s.1 s.2, trivial⟩

theorem keeps_assign (ih : L.KeptAt fuel) (receiver value : Expr) (holds : L.holds h.machine) :
    L.Keeps h (assign rule (fuel + 1) receiver value) (fun _ _ => True) := by
  cases receiver with
  | access name record ty =>
    apply keeps_bind (keeps_resolve record name holds)
    intro i k kept _
    apply keeps_bind (keeps_cell i kept.1)
    intro c l kept' found
    cases hm : c.mutable with
    | false =>
      simp only [Bool.not_false, if_true]
      exact keeps_fail kept'.1
    | true =>
      simp only [Bool.not_true, Bool.false_eq_true, if_false]
      apply keeps_bind (ih.evaluate value l kept'.1)
      intro v m kept'' valid
      have a := L.assigned kept'.1 kept''.2.1 (found.2 hm) hm kept''.1 valid
      exact runs_step ⟨L.kept_reach a.1 a.2, trivial⟩
  | element name index record ty =>
    apply keeps_bind (keeps_resolve record name holds)
    intro i l kept _
    apply keeps_bind (keeps_cell i kept.1)
    intro c l kept found
    apply keeps_bind (keeps_listOf kept.1 found.1)
    intro place l kept list
    apply keeps_bind (ih.evaluate index l kept.1)
    intro k l kept _
    -- calls in the index and in the value may store too, but nothing comes after the check
    have list := valid_lasts kept list
    apply keeps_bind (ih.evaluate value l kept.1)
    intro v l kept valid
    have list := valid_lasts kept list
    have checked : L.Keeps l (step (Eval.onHeap fun heap => Operation.closesCycle heap place v))
        (fun cyclic m => m.machine = l.machine ∧
          Operation.closesCycle l.machine.heap place v = .ok cyclic) := by
      refine keeps_look kept.1 (looks_onHeap _) fun cyclic found => ⟨rfl, ?_⟩
      unfold Eval.onHeap Eval.lift at found
      cases hc : Operation.closesCycle l.machine.heap place v with
      | error e => simp [hc] at found
      | ok b =>
        obtain rfl : b = cyclic := by simpa [hc] using found
        rfl
    apply keeps_bind checked
    intro cyclic m kept' found
    cases cyclic with
    | true => exact keeps_fail kept'.1
    | false =>
      refine keeps_stored kept'.1 (valid_lasts kept' list) (valid_lasts kept' valid) ?_
      rw [found.1]
      exact found.2
  | literal | group | binary | call | list => exact keeps_glance holds (looks_fail .badReceiver)

theorem keeps_repeatWhile (ih : L.KeptAt fuel) (c : Expr) (body : List Stmt)
    (holds : L.holds h.machine) : L.Keeps h (repeatWhile rule (fuel + 1) c body) L.ValidFlow := by
  apply keeps_bind (ih.condition c h holds)
  intro b k kept _
  cases b with
  | false => exact keeps_pure kept.1 trivial
  | true =>
    apply keeps_bind (keeps_inChild kept.1 (fun _ kept => keeps_sequence ih body kept.1)
      fun flow _ _ => validFlow_lasts flow)
    intro flow l kept valid
    cases flow with
    | next => exact ih.repeatWhile c body l kept.1
    | returned v => exact keeps_pure kept.1 valid

theorem kept_at (L : StoreLaw rule) (fuel : Nat) : L.KeptAt fuel := by
  induction fuel with
  | zero =>
    have stopped {α : Type} {h : History} {good : α → History → Prop} (holds : L.holds h.machine) :
        L.Keeps h (throw .exhausted : Watched α) good := runs_throw (L.kept_same holds) trivial
    exact ⟨fun _ _ => stopped, fun _ _ => stopped, fun _ _ _ holds _ => stopped holds,
      fun _ _ => stopped, fun _ _ _ => stopped, fun _ _ _ => stopped⟩
  | succ fuel ih =>
    refine ⟨fun e _ => keeps_evaluate ih e, fun e h holds => ?_, fun f vs _ => keeps_invoke ih f vs,
      fun s _ => keeps_execute ih s, fun r v _ => keeps_assign ih r v,
      fun c body _ => keeps_repeatWhile ih c body⟩
    exact keeps_bind (ih.evaluate e h holds) fun v k kept _ =>
      keeps_glance kept.1 (looks_boolean v)

theorem keeps_defineGlobal (fuel : Nat) (g : Global) (holds : L.holds h.machine) :
    L.Keeps h (defineGlobal rule fuel g) (fun _ _ => True) := by
  obtain ⟨name, typeName, mutable, list, value, record⟩ := g
  have defined : ∀ v k, L.Kept h k → L.Valid v k →
      L.Keeps k (define record name mutable v) (fun _ _ => True) := fun v k kept valid =>
    keeps_define record name mutable kept.1 valid
  cases value with
  | some e => exact keeps_bind ((kept_at L fuel).evaluate e h holds) defined
  | none =>
    cases list with
    | true => exact keeps_bind (keeps_newList holds (by simp)) defined
    | false => exact defined .nil h (L.kept_same holds) (L.literal _ .nil)

theorem keeps_forM {γ : Type} {act : γ → Watched Unit} (cs : List γ)
    (each : ∀ c h, L.holds h.machine → L.Keeps h (act c) (fun _ _ => True))
    (holds : L.holds h.machine) : L.Keeps h (cs.forM act) (fun _ _ => True) := by
  induction cs generalizing h with
  | nil => exact keeps_pure holds trivial
  | cons c cs rest => exact keeps_bind (each c h holds) fun _ k kept _ => rest kept.1

theorem keeps_defineFunction (f : Function) (holds : L.holds h.machine) :
    L.Keeps h (step (Eval.defineFunction f)) (fun _ _ => True) := by
  refine runs_step ?_
  unfold Eval.defineFunction
  cases h.machine.scopes.functionClash? h.machine.current f.name f.arity with
  | some r => exact ⟨L.kept_reach holds (L.refl _), trivial⟩
  | none => exact ⟨L.kept_aside (L.kept_same holds) rfl rfl, trivial⟩

theorem keeps_program (fuel : Nat) (p : Program) (holds : L.holds h.machine) :
    L.Keeps h (program rule fuel p) (fun _ _ => True) := by
  apply keeps_bind (keeps_forM p.globals (fun g _ => keeps_defineGlobal fuel g) holds)
  intro _ k kept _
  refine keeps_bind (keeps_forM p.functions (fun f _ => keeps_defineFunction f) kept.1)
    fun _ l kept _ => runs_get (runs_get ?_)
  cases l.machine.scopes.findFunction? l.machine.current "main" 0 with
  | none => exact keeps_glance kept.1 (looks_fail .mainMissing)
  | some main =>
    exact keeps_bind ((kept_at L fuel).invoke main [] l kept.1 (by simp)) fun v m kept _ =>
      keeps_glance kept.1 (looks_mainResult v)

end StoreLaw

end Plc

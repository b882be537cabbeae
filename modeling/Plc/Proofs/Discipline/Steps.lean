import Plc.Proofs.Discipline.Invariant
import Plc.Proofs.Nesting

/-!
The single steps of a run under a discipline. Each of them leads from a sound history to a sound
one: reading, entering and leaving a scope, defining and setting a variable, making a list and
storing an element.
-/

namespace Plc.Discipline

open Watched

variable {rule : DivisionScale} {D : Discipline rule} {W : Frame} {h k : History}
variable {α β : Type} {good : α → History → Prop}

/-- A step that enters no scope and defines no variable. -/
theorem still_come (sound : D.Sound W h) {m : Machine} {e : Event}
    (other : Moment.record? ⟨e, m⟩ = none) (scopes : m.scopes = h.machine.scopes)
    (current : m.current = h.machine.current) (home : m.home = h.machine.home)
    (stored : D.Stored h.records m)
    (lists : D.typed → ∀ i p, ListAt h.records h.machine i p → ListAt h.records m i p)
    (tells : D.Tells h.records ⟨e, m⟩) : D.Still W h (h.come e m) := by
  have records := records_come h other
  have placed : D.Placed W (h.come e m).records m.scopes m.current m.home := by
    rw [records, scopes, current, home]
    exact sound.placed
  have same : h.machine.scopes.Extends m.scopes := scopes ▸ Scopes.extends_refl _
  refine ⟨⟨⟨placed, by rw [records]; exact stored, ?_⟩, current, home,
    Scopes.later_of_extends same sound.placed.here, by rw [records],
    fun strict i p held => ?_⟩, same⟩
  · rw [records]
    exact good_come sound.moments stored tells
  · rw [records]
    exact lists strict i p held

theorem still_note (sound : D.Sound W h) {e : Event}
    (other : Moment.record? ⟨e, h.machine⟩ = none)
    (tells : D.Tells h.records ⟨e, h.machine⟩) : D.Still W h (h.note e) :=
  still_come sound other rfl rfl rfl sound.stored (fun _ _ _ => id) tells

theorem still_reach (sound : D.Sound W h) : D.Still W h (h.reach h.machine) :=
  still_note sound rfl trivial

theorem evals_pure {a : α} (sound : D.Sound W h) (value : good a h) : D.Evals W h (pure a) good :=
  runs_pure (still_refl sound) value

theorem execs_pure {a : α} (sound : D.Sound W h) (value : good a h) : D.Execs W h (pure a) good :=
  runs_pure (since_refl sound) value

theorem evals_bind {act : Watched α} {next : α → Watched β} {result : β → History → Prop}
    (first : D.Evals W h act good)
    (rest : ∀ a k, D.Still W h k → good a k → D.Evals W k (next a) result) :
    D.Evals W h (act >>= next) result := runs_bind still_trans first rest

theorem execs_bind {act : Watched α} {next : α → Watched β} {result : β → History → Prop}
    (first : D.Execs W h act good)
    (rest : ∀ a k, D.Since W h k → good a k → D.Execs W k (next a) result) :
    D.Execs W h (act >>= next) result := runs_bind since_trans first rest

theorem execs_of_evals {act : Watched α} (evals : D.Evals W h act good) : D.Execs W h act good :=
  runs_mono evals (fun _ still => still.toSince) fun _ _ => id

/-- An evaluation first, and then the rest of a statement. -/
theorem execs_after {act : Watched α} {next : α → Watched β} {result : β → History → Prop}
    (first : D.Evals W h act good)
    (rest : ∀ a k, D.Still W h k → good a k → D.Execs W k (next a) result) :
    D.Execs W h (act >>= next) result := by
  unfold Evals at first
  unfold Execs
  have both : Runs (D.Since W) D.Stops h act fun a k => D.Still W h k ∧ good a k := by
    unfold Runs at first ⊢
    cases ran : act h with
    | ok a k =>
      rw [ran] at first
      exact ⟨first.1.toSince, first⟩
    | error e k =>
      rw [ran] at first
      exact ⟨first.1.toSince, first.2⟩
  exact runs_bind since_trans both fun a k _ value => rest a k value.1 value.2

theorem evals_look {act : Eval α} (sound : D.Sound W h) (looks : Looks act)
    (value : ∀ a, act h.machine = .ok a h.machine → good a (h.reach h.machine))
    (reason : ∀ e, act h.machine = .error e h.machine → D.Stops e (h.reach h.machine)) :
    D.Evals W h (step act) good := runs_look looks (still_reach sound) value reason

theorem evals_note (sound : D.Sound W h) {e : Event}
    (other : Moment.record? ⟨e, h.machine⟩ = none)
    (tells : D.Tells h.records ⟨e, h.machine⟩) : D.Evals W h (note e) fun _ _ => True :=
  ⟨still_note sound other tells, trivial⟩

theorem evals_fail {e : RuntimeError} (sound : D.Sound W h) (permits : D.permits e)
    {next : α → Watched β} {result : β → History → Prop} :
    D.Evals W h (step (Eval.fail e : Eval α) >>= next) result := by
  have failed : D.Evals W h (step (Eval.fail e : Eval α)) fun _ _ => False := by
    refine evals_look sound (looks_fail e) (fun a found => ?_) fun r stopped f same => ?_
    · cases found
    · subst same
      cases stopped
      exact permits
  exact evals_bind failed fun _ _ _ never => never.elim

theorem findVariable?_bind (Γ : Env) (v : Variable) (name : String) :
    (Γ.bind v).findVariable? name = if name = v.name then some v else Γ.findVariable? name := by
  simp only [Env.findVariable?, Env.bind, List.findSome?_cons, List.lookup_cons]
  by_cases same : name = v.name
  · simp [same]
  · simp [same, beq_false_of_ne same]

theorem own?_bind (Γ : Env) (v : Variable) (name : String) :
    (Γ.bind v).own? name = if name = v.name then some v else Γ.own? name := by
  simp only [Env.own?, Env.bind, List.lookup_cons]
  by_cases same : name = v.name
  · simp [same]
  · simp [same, beq_false_of_ne same]

theorem sees_child {Γ : Env} {records : List (Option Variable)} {t : Scopes Nat Callable}
    {current : Nat} : D.Sees W Γ.child records t current ↔ D.Sees W Γ records t current := by
  constructor <;> rintro ⟨names, functions⟩
  · exact ⟨fun name v known => names name v (by rwa [Env.findVariable?_child]),
      fun name arity s known => functions name arity s (by rwa [Env.findFunction?_child])⟩
  · exact ⟨fun name v known => names name v (by rwa [Env.findVariable?_child] at known),
      fun name arity s known => functions name arity s (by rwa [Env.findFunction?_child] at known)⟩

/-- In a new scope the names mean what they mean around it. -/
theorem fits_entered {Γ : Env} {parent : Nat} (sound : D.Sound W h)
    (inside : parent < h.machine.scopes.next)
    (sees : D.Sees W Γ h.records h.machine.scopes parent) :
    D.FitsIn W Γ.child (h.reach (h.machine.entered parent)) := by
  rw [FitsIn, History.reach, records_reach h (h.machine.entered parent)]
  refine ⟨sees_child.mpr ⟨fun name v known => ?_, sees.functions⟩,
    fun name _ => Scopes.ownVariable?_addChild_new parent name⟩
  obtain ⟨i, found, record⟩ := sees.names name v known
  refine ⟨i, ?_, record⟩
  rw [← found]
  exact Scopes.findVariable?_addChild_new sound.placed.founded inside _

theorem sound_entered (sound : D.Sound W h) {parent : Nat}
    (inside : parent < h.machine.scopes.next)
    (sight : ∀ name arity, h.machine.scopes.findFunction? parent name arity =
      h.machine.scopes.findFunction? h.machine.home name arity) :
    D.Sound W (h.reach (h.machine.entered parent)) := by
  obtain ⟨placed, stored, moments⟩ := sound
  have records := records_reach h (h.machine.entered parent)
  have founded := placed.founded
  have more := Scopes.extends_addChild h.machine.scopes parent
  have outer := placed.outer
  have stored' : D.Stored h.records (h.machine.entered parent) :=
    ⟨stored.size, stored.conform, stored.apart⟩
  refine ⟨?_, ?_, ?_⟩
  · rw [History.reach, records]
    refine ⟨?_, ?_, Scopes.founded_addChild founded inside, fun name arity => ?_,
      fun name arity s known => ?_, fun name v known => ?_⟩
    · simp [History.come, Machine.entered]
    · simp only [History.come, Machine.entered, Scopes.next_addChild]
      omega
    · simp only [History.come, Machine.entered]
      rw [Scopes.findFunction?_addChild_new founded inside, sight,
        Scopes.findFunction?_of_extends founded more outer]
    · obtain ⟨f, found, implements⟩ := placed.functions name arity s known
      exact ⟨f, by rw [← found]; exact Scopes.findFunction?_of_extends founded more outer _ _,
        implements⟩
    · obtain ⟨i, found, record⟩ := placed.globals name v known
      exact ⟨i, by rw [← found]; exact Scopes.findVariable?_of_extends founded more outer _, record⟩
  · rw [History.reach, records]
    exact stored'
  · rw [History.reach, records]
    exact good_come moments stored' trivial

/-- Back from a new scope, however it was left, all scopes are as they were. -/
theorem still_left (sound : D.Sound W h) {parent : Nat}
    (since : D.Since W (h.reach (h.machine.entered parent)) k) :
    D.Still W h (k.reach (k.machine.backIn h.machine.current)) := by
  have begun := records_reach h (h.machine.entered parent)
  have records := records_reach k (k.machine.backIn h.machine.current)
  have same : h.machine.scopes.Extends k.machine.scopes := Scopes.extends_of_child since.scopes
  have home : k.machine.home = h.machine.home := since.home
  have here := sound.placed.here
  have founded := sound.placed.founded
  obtain ⟨placed, stored, moments⟩ := since.sound
  have longer : h.records <+: k.records := begun ▸ since.records
  have stored' : D.Stored k.records (k.machine.backIn h.machine.current) :=
    ⟨stored.size, stored.conform, stored.apart⟩
  refine ⟨⟨⟨?_, ?_, ?_⟩, rfl, home, Scopes.later_of_extends same here, ?_, ?_⟩, same⟩
  · rw [History.reach, records]
    refine ⟨Nat.lt_of_lt_of_le here same.next, placed.outer, placed.founded, fun name arity => ?_,
      placed.functions, placed.globals⟩
    simp only [History.come, Machine.backIn, home]
    rw [Scopes.findFunction?_of_extends founded same here,
      Scopes.findFunction?_of_extends founded same sound.placed.outer, sound.placed.sight]
  · rw [History.reach, records]
    exact stored'
  · rw [History.reach, records]
    exact good_come moments stored' trivial
  · rw [History.reach, records]
    exact longer
  · intro strict i p held
    rw [History.reach, records]
    have moved : ListAt (h.reach (h.machine.entered parent)).records
        (h.reach (h.machine.entered parent)).machine i p := by
      rw [History.reach, begun]
      exact held
    exact since.lists strict i p moved

/-- An action in a new scope, which is below the global one and has nothing of its own yet. -/
theorem evals_inChildOf {Γ : Env} {parent : Nat} {act : Watched α} {valid : α → Prop}
    (sound : D.Sound W h) (inside : parent < h.machine.scopes.next)
    (sight : ∀ name arity, h.machine.scopes.findFunction? parent name arity =
      h.machine.scopes.findFunction? h.machine.home name arity)
    (sees : D.Sees W Γ h.records h.machine.scopes parent)
    (body : ∀ k, D.Sound W k → D.FitsIn W Γ.child k → k.machine.home < k.machine.current →
      D.Execs W k act fun a _ => valid a) :
    D.Evals W h (inChildOf parent act) fun a _ => valid a :=
  runs_inChildOf
    (body _ (sound_entered sound inside sight) (fits_entered sound inside sees) sound.placed.outer)
    (fun _ since => still_left sound since) (fun _ _ stops => stops) fun _ _ _ value => value

theorem getElem?_snoc {α : Type} (as : List α) (a : α) (i : Nat) :
    (as ++ [a])[i]? = if i = as.length then some a else as[i]? := by
  split
  · next last =>
    rw [last, List.getElem?_append_right (Nat.le_refl _), Nat.sub_self]
    rfl
  · next other =>
    by_cases inside : i < as.length
    · rw [List.getElem?_append_left inside]
    · rw [List.getElem?_eq_none (by simp; omega), List.getElem?_eq_none (by omega)]

section

variable {records : List (Option Variable)} {m : Machine} {record : Option Variable} {name : String}
  {mutable : Bool} {value : Value}

theorem listAt_defining (size : m.cells.size = records.length) {i p : Nat} :
    ListAt (records ++ [record]) (m.defining name mutable value) i p ↔
      ListAt records m i p ∨
        i = m.cells.size ∧ (∃ v, record = some v ∧ v.list = true) ∧ value = .list p := by
  simp only [ListAt, Machine.defining, Array.getElem?_push, getElem?_snoc, size]
  by_cases last : i = records.length
  · subst last
    have none : records[records.length]? = none := List.getElem?_eq_none (Nat.le_refl _)
    simp only [if_true, none, true_and]
    constructor
    · rintro ⟨v, c, known, list, found, holds⟩
      cases known
      cases found
      exact .inr ⟨⟨v, rfl, list⟩, holds⟩
    · rintro (⟨v, c, known, _⟩ | ⟨⟨v, known, list⟩, holds⟩)
      · cases known
      · subst known
        exact ⟨v, _, rfl, list, rfl, holds⟩
  · simp only [last, if_false, false_and, or_false]

theorem stored_defining (stored : D.Stored records m)
    (holds : D.typed → ∀ v, record = some v → D.Holds m.heap v value)
    (fresh : D.typed → ∀ v p, record = some v → v.list = true → value = .list p →
      p < m.heap.size ∧ ∀ i, ¬ ListAt records m i p) :
    D.Stored (records ++ [record]) (m.defining name mutable value) := by
  obtain ⟨size, conform, apart⟩ := stored
  refine ⟨by simp [Machine.defining, size], fun strict i v c known found => ?_,
    fun strict i j p first second => ?_⟩
  · simp only [Machine.defining, Array.getElem?_push, getElem?_snoc, size] at known found
    split at known
    · next last =>
      simp only [last, if_true, Option.some.injEq] at known found
      subst found
      exact holds strict v known
    · next other =>
      rw [if_neg other] at found
      exact conform strict i v c known found
  · rcases (listAt_defining size).mp first with old | ⟨last, ⟨v, known, list⟩, is⟩
    · rcases (listAt_defining size).mp second with old' | ⟨_, ⟨v, known, list⟩, is⟩
      · exact apart strict i j p old old'
      · exact absurd old ((fresh strict v p known list is).2 i)
    · rcases (listAt_defining size).mp second with old' | ⟨last', _⟩
      · exact absurd old' ((fresh strict v p known list is).2 j)
      · rw [last, last']

theorem fits_defining {Γ : Env} {v : Variable} {t : Scopes Nat Callable} {current cell : Nat}
    (fits : D.Fits W Γ records t current) (founded : t.Founded) (here : current < t.next)
    (size : cell = records.length) (noting : D.noted → record = some v) :
    D.Fits W (Γ.bind v) (records ++ [record]) (t.bindVariable current v.name cell) current := by
  have longer : records <+: records ++ [record] := List.prefix_append _ _
  refine ⟨⟨fun name w known => ?_, fits.functions⟩, fun name own => ?_⟩
  · rw [findVariable?_bind] at known
    rw [Scopes.findVariable?_bindVariable founded here]
    split at known
    · next same =>
      cases known
      refine ⟨cell, if_pos same, fun notes => ?_⟩
      rw [getElem?_snoc, if_pos size, noting notes]
    · next other =>
      obtain ⟨i, found, noted⟩ := fits.names name w known
      exact ⟨i, by rw [if_neg other, found], fun notes => getElem?_longer longer (noted notes)⟩
  · rw [own?_bind] at own
    rw [Scopes.ownVariable?_bindVariable here]
    split at own
    · cases own
    · next other =>
      rw [if_neg other]
      exact fits.free name own

end

/-- A new variable, of which the current scope had none of this name. -/
theorem execs_define {Γ : Env} {v : Variable} {record : Option Variable} {value : Value}
    (mutable : Bool) (sound : D.Sound W h) (fits : D.FitsIn W Γ h) (free : Γ.own? v.name = none)
    (inner : h.machine.home < h.machine.current ∨ W.bindings = [])
    (noting : D.noted → record = some v) (holds : D.typed → D.Holds h.machine.heap v value)
    (fresh : D.typed → v.list = true → ∀ p, value = .list p →
      p < h.machine.heap.size ∧ ∀ i, ¬ ListAt h.records h.machine i p) :
    D.Execs W h (define record v.name mutable value) fun _ k => D.FitsIn W (Γ.bind v) k := by
  obtain ⟨placed, stored, moments⟩ := sound
  have here := placed.here
  have founded := placed.founded
  have own := fits.free v.name free
  have records := records_defined h record h.machine.cells.size
    (h.machine.defining v.name mutable value)
  have longer : h.records <+: h.records ++ [record] := List.prefix_append _ _
  have last : (h.records ++ [record])[h.machine.cells.size]? = some record := by
    rw [getElem?_snoc, if_pos stored.size]
  have later : h.machine.scopes.Later h.machine.current
      (h.machine.defining v.name mutable value).scopes := Scopes.later_bindVariable _ _ _ _
  have stored' : D.Stored (h.records ++ [record]) (h.machine.defining v.name mutable value) := by
    refine stored_defining stored (fun strict w known => ?_) fun strict w p known list is => ?_
    · rw [noting (D.notes strict)] at known
      cases known
      exact holds strict
    · rw [noting (D.notes strict)] at known
      cases known
      exact fresh strict list p is
  have placed' : D.Placed W (h.records ++ [record])
      (h.machine.defining v.name mutable value).scopes h.machine.current h.machine.home := by
    refine ⟨Nat.lt_of_lt_of_le here later.next, Nat.lt_of_lt_of_le placed.outer later.next,
      Scopes.founded_bindVariable founded _ _ _, fun name arity => ?_,
      fun name arity s known => ?_, fun name w known => ?_⟩
    · rw [Scopes.findFunction?_of_later founded later here,
        Scopes.findFunction?_of_later founded later placed.outer, placed.sight]
    · obtain ⟨f, found, implements⟩ := placed.functions name arity s known
      exact ⟨f, by rw [Scopes.findFunction?_of_later founded later placed.outer, found],
        implements⟩
    · obtain ⟨i, found, noted⟩ := placed.globals name w known
      -- in the global scope itself a new variable could hide one that `W` knows
      rcases inner with deeper | none
      · refine ⟨i, ?_, fun notes => getElem?_longer longer (noted notes)⟩
        rw [← found]
        exact Scopes.findVariable?_bindVariable_outer founded placed.outer deeper _ _ _
      · simp [none] at known
  have ends : define record v.name mutable value h =
      .ok () (h.come (.defined record h.machine.cells.size)
        (h.machine.defining v.name mutable value)) := by
    simp only [define, Eval.define, Scopes.variableClash?, own, Option.isSome_none,
      Bool.false_eq_true, if_false]
    rfl
  unfold Execs Runs
  rw [ends]
  refine ⟨⟨⟨by rw [records]; exact placed', by rw [records]; exact stored', ?_⟩, rfl, rfl, later,
    by rw [records]; exact longer, fun strict i p held => ?_⟩, ?_⟩
  · rw [records]
    exact good_come (fun x before => good_longer longer (moments x before)) stored'
      ⟨last, fun notes => ⟨v, noting notes⟩⟩
  · rw [records]
    exact (listAt_defining stored.size).mpr (.inl held)
  · show D.FitsIn W (Γ.bind v) _
    rw [FitsIn, records]
    exact fits_defining fits founded here stored.size noting

theorem listAt_setting {records : List (Option Variable)} {m : Machine} {i : Nat} {v : Variable}
    {value : Value} (record : records[i]? = some (some v)) (single : v.list = false) {j p : Nat} :
    ListAt records (m.setting i value) j p ↔ ListAt records m j p := by
  simp only [ListAt, Machine.setting, Array.getElem?_modify]
  by_cases same : i = j
  · subst same
    simp [record, single]
  · simp only [if_neg same]

theorem stored_setting {records : List (Option Variable)} {m : Machine} {i : Nat} {v : Variable}
    {value : Value} (stored : D.Stored records m)
    (noted : D.noted → records[i]? = some (some v)) (single : v.list = false)
    (conforms : D.conforms v.ty value) : D.Stored records (m.setting i value) := by
  refine ⟨by simpa [Machine.setting] using stored.size, fun strict j w c known found => ?_,
    fun strict j k p first second => ?_⟩
  · simp only [Machine.setting, Array.getElem?_modify] at found
    split at found
    · next same =>
      subst same
      obtain ⟨d, _, rfl⟩ := Option.map_eq_some_iff.mp found
      rw [noted (D.notes strict)] at known
      cases known
      simp only [Holds, single, Bool.false_eq_true, if_false]
      exact conforms
    · exact stored.conform strict j w c known found
  · exact stored.apart strict j k p ((listAt_setting (noted (D.notes strict)) single).mp first)
      ((listAt_setting (noted (D.notes strict)) single).mp second)

theorem still_setting (sound : D.Sound W h) {i : Nat} {v : Variable} {value : Value}
    (noted : D.noted → h.records[i]? = some (some v)) (single : v.list = false)
    (conforms : D.conforms v.ty value) : D.Still W h (h.reach (h.machine.setting i value)) :=
  still_come sound rfl rfl rfl rfl (stored_setting sound.stored noted single conforms)
    (fun strict _ _ held => (listAt_setting (noted (D.notes strict)) single).mpr held) trivial

theorem stored_listing {records : List (Option Variable)} {m : Machine} (vs : List Value)
    (stored : D.Stored records m) : D.Stored records (m.listing vs) := by
  refine ⟨stored.size, fun strict i v c known found => ?_, stored.apart⟩
  have holds := stored.conform strict i v c known found
  unfold Holds at holds ⊢
  split
  · next list =>
    rw [if_pos list] at holds
    obtain ⟨p, is, old, each⟩ := holds
    refine ⟨p, is, ?_, ?_⟩
    · simp only [Machine.listing, Array.size_push]
      omega
    · rw [Machine.listing, Heap.elements_push, if_neg (Nat.ne_of_lt old)]
      exact each
  · next single =>
    rw [if_neg single] at holds
    exact holds

theorem evals_newList (vs : List Value) (sound : D.Sound W h) :
    D.Evals W h (step (Eval.newList vs)) fun v k => ∃ p, v = .list p ∧ p < k.machine.heap.size ∧
      k.machine.heap.elements p = vs ∧ (D.typed → ∀ i, ¬ ListAt k.records k.machine i p) := by
  have still : D.Still W h (h.reach (h.machine.listing vs)) :=
    still_come sound rfl rfl rfl rfl (stored_listing vs sound.stored) (fun _ _ _ => id) trivial
  have records := records_reach h (h.machine.listing vs)
  refine runs_step ⟨still, h.machine.heap.size, rfl, ?_, ?_, fun strict i held => ?_⟩
  · simp [History.reach, History.come]
  · show Heap.elements (h.machine.heap.push vs) h.machine.heap.size = vs
    rw [Heap.elements_push, if_pos rfl]
  · have old : ListAt h.records h.machine i h.machine.heap.size := records ▸ held
    exact Nat.lt_irrefl _ (inside_of_conform (sound.stored.conform strict) old)

theorem stored_storing {records : List (Option Variable)} {m : Machine} {place k i : Nat}
    {v : Variable} {value : Value} (stored : D.Stored records m)
    (held : D.typed → ListAt records m i place ∧ records[i]? = some (some v))
    (conforms : D.conforms v.ty value) : D.Stored records (m.storing place k value) := by
  refine ⟨stored.size, fun strict j w c known found => ?_, stored.apart⟩
  have holds := stored.conform strict j w c known found
  unfold Holds at holds ⊢
  split
  · next list =>
    rw [if_pos list] at holds
    obtain ⟨p, is, inside, each⟩ := holds
    refine ⟨p, is, by simpa [Machine.storing] using inside, fun u element => ?_⟩
    rcases Heap.mem_store element with old | ⟨rfl, rfl⟩
    · exact each u old
    · -- a second variable with this list might have elements of another type: there is none
      have same := stored.apart strict i j p (held strict).1 ⟨w, c, known, list, found, is⟩
      have record := (held strict).2
      rw [same, known] at record
      cases record
      exact conforms
  · next single =>
    rw [if_neg single] at holds
    exact holds

theorem still_storing (sound : D.Sound W h) {place k i : Nat} {v : Variable} {value : Value}
    (held : D.typed → ListAt h.records h.machine i place ∧ h.records[i]? = some (some v))
    (conforms : D.conforms v.ty value) :
    D.Still W h (h.reach (h.machine.storing place k value)) :=
  still_come sound rfl rfl rfl rfl (stored_storing sound.stored held conforms)
    (fun _ _ _ => id) trivial

end Plc.Discipline

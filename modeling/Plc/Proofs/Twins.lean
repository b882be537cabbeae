import Plc.Proofs.Regular

/-!
Two machines that run alike. They have the same lists and lines, and the same cells but for some
more that stand in between on the right. Their scopes have other numbers and may lie in each other
in other ways; what counts is what the names that are in use mean in the current scopes. Whatever is
done by two such machines is done alike if it comes down to look-ups, new scopes and definitions.
-/

namespace Plc

/-- Cells that only the right machine has, and the place where they stand. -/
structure Gap where
  place : Nat
  extra : List Cell

namespace Gap

def shift (g : Gap) (i : Nat) : Nat := if i < g.place then i else i + g.extra.length

variable {g : Gap} {i j : Nat}

theorem shift_of_lt (before : i < g.place) : g.shift i = i := if_pos before

theorem shift_of_le (behind : g.place ≤ i) : g.shift i = i + g.extra.length :=
  if_neg (Nat.not_lt.mpr behind)

theorem shift_empty (place i : Nat) : Gap.shift ⟨place, []⟩ i = i := by
  unfold shift
  split <;> rfl

theorem shift_inj : g.shift i = g.shift j ↔ i = j := by
  unfold shift
  constructor
  · intro same
    split at same <;> split at same <;> omega
  · rintro rfl
    rfl

theorem shift_ne_extra (inside : j < g.extra.length) : g.shift i ≠ g.place + j := by
  unfold shift
  split <;> omega

structure Parts (g : Gap) (ls rs : Array Cell) : Prop where
  place : g.place ≤ ls.size
  size : rs.size = ls.size + g.extra.length
  own : ∀ i : Nat, rs[g.shift i]? = ls[i]?
  extra : ∀ i : Nat, i < g.extra.length → rs[g.place + i]? = g.extra[i]?

variable {ls rs : Array Cell}

theorem parts_self (cs : Array Cell) : Gap.Parts ⟨cs.size, []⟩ cs cs := by
  constructor
  · exact Nat.le_refl _
  · rfl
  · intro i
    rw [shift_empty]
  · nofun

theorem shift_size (parts : g.Parts ls rs) : g.shift ls.size = rs.size := by
  rw [shift_of_le parts.place, parts.size]

theorem parts_push (parts : g.Parts ls rs) (c : Cell) : g.Parts (ls.push c) (rs.push c) := by
  have size := shift_size parts
  constructor
  · rw [Array.size_push]
    exact Nat.le_succ_of_le parts.place
  · rw [Array.size_push, Array.size_push, parts.size]
    omega
  · intro i
    simp only [Array.getElem?_push, ← size, shift_inj, parts.own]
  · intro i inside
    have other : g.place + i ≠ rs.size := size ▸ (shift_ne_extra inside).symm
    rw [Array.getElem?_push, if_neg other, parts.extra i inside]

theorem parts_modify (parts : g.Parts ls rs) (i : Nat) (f : Cell → Cell) :
    g.Parts (ls.modify i f) (rs.modify (g.shift i) f) := by
  constructor
  · rw [Array.size_modify]
    exact parts.place
  · rw [Array.size_modify, Array.size_modify, parts.size]
  · intro j
    simp only [Array.getElem?_modify, shift_inj, parts.own]
  · intro j inside
    rw [Array.getElem?_modify, if_neg (shift_ne_extra inside), parts.extra j inside]

/-- One more cell, behind all that both sides have. -/
theorem parts_push_right {place : Nat} (parts : Gap.Parts ⟨place, []⟩ ls rs) (c : Cell) :
    Gap.Parts ⟨ls.size, [c]⟩ ls (rs.push c) := by
  have size : rs.size = ls.size := parts.size
  have own : ∀ i : Nat, rs[i]? = ls[i]? := by
    intro i
    have same := parts.own i
    rwa [shift_empty] at same
  constructor
  · exact Nat.le_refl _
  · rw [Array.size_push, size]
    rfl
  · intro i
    by_cases before : i < ls.size
    · rw [shift_of_lt before, Array.getElem?_push, if_neg (by omega), own]
    · have behind := Nat.le_of_not_lt before
      rw [shift_of_le behind, Array.getElem?_eq_none behind]
      exact Array.getElem?_eq_none (by simp [size, behind])
  · intro i inside
    obtain rfl : i = 0 := by simpa using inside
    rw [← size]
    exact Array.getElem?_push_size

end Gap

structure Machine.Since (start : Machine) (kept : Scopes Nat Callable) (m : Machine) : Prop where
  home : m.home = start.home
  cells : start.cells.size ≤ m.cells.size
  started : start.scopes.Extends m.scopes
  kept : kept.Extends m.scopes
  founded : m.scopes.Founded
  here : m.current < m.scopes.next

namespace Machine

variable {start m n : Machine} {kept : Scopes Nat Callable} {parent : Nat}

theorem since_refl (regular : start.Regular) : start.Since start.scopes start :=
  ⟨rfl, Nat.le_refl _, Scopes.extends_refl _, Scopes.extends_refl _, regular.founded, regular.here⟩

theorem since_entered (since : start.Since kept m) (inside : parent < m.scopes.next) :
    start.Since m.scopes (m.entered parent) where
  home := since.home
  cells := since.cells
  started := Scopes.extends_trans since.started (Scopes.extends_addChild m.scopes parent)
  kept := Scopes.extends_addChild m.scopes parent
  founded := Scopes.founded_addChild since.founded inside
  here := by simp [entered]

theorem since_back (since : start.Since kept m) (inner : start.Since m.scopes n) :
    start.Since kept (n.backIn m.current) where
  home := inner.home
  cells := inner.cells
  started := inner.started
  kept := Scopes.extends_trans since.kept inner.kept
  founded := inner.founded
  here := Nat.lt_of_lt_of_le since.here inner.kept.next

theorem since_wider (since : start.Since kept m) (inner : start.Since m.scopes n) :
    start.Since kept n :=
  { inner with kept := Scopes.extends_trans since.kept inner.kept }

/-- Nothing is defined in a scope that was there before. -/
theorem since_defining (since : start.Since kept m) (new : start.scopes.next ≤ m.current)
    (inner : kept.next ≤ m.current) (name : String) (mutable : Bool) (v : Value) :
    start.Since kept (m.defining name mutable v) := by
  constructor
  · exact since.home
  · rw [defining, Array.size_push]
    exact Nat.le_succ_of_le since.cells
  · exact Scopes.extends_bindVariable since.started new name _
  · exact Scopes.extends_bindVariable since.kept inner name _
  · exact Scopes.founded_bindVariable since.founded _ _ _
  · simpa [defining] using since.here

theorem since_setting (since : start.Since kept m) (i : Nat) (v : Value) :
    start.Since kept (m.setting i v) :=
  { since with cells := by simpa [setting] using since.cells }

theorem cell?_entered (founded : m.scopes.Founded) (inside : parent < m.scopes.next)
    (name : String) : (m.entered parent).cell? name = m.scopes.findVariable? parent name :=
  Scopes.findVariable?_addChild_new founded inside name

theorem function?_entered (founded : m.scopes.Founded) (inside : parent < m.scopes.next)
    (name : String) (arity : Nat) :
    (m.entered parent).scopes.findFunction? (m.entered parent).current name arity =
      m.scopes.findFunction? parent name arity :=
  Scopes.findFunction?_addChild_new founded inside name arity

theorem cell?_back (since : start.Since kept m) (inner : start.Since m.scopes n) (name : String) :
    (n.backIn m.current).cell? name = m.cell? name :=
  Scopes.findVariable?_of_extends since.founded inner.kept since.here name

theorem cell?_defining (founded : m.scopes.Founded) (here : m.current < m.scopes.next)
    (name other : String) (mutable : Bool) (v : Value) :
    (m.defining name mutable v).cell? other =
      if other = name then some m.cells.size else m.cell? other :=
  Scopes.findVariable?_bindVariable founded here name other m.cells.size

end Machine

/-- From where two machines are looked at: the scopes that are to stay as they are on either side,
the current scopes, and the variables in use. -/
structure View where
  left : Scopes Nat Callable
  right : Scopes Nat Callable
  here : Nat
  there : Nat
  known : String → Prop

section

variable (start : Machine) (gap : Gap) (view : View) (l r : Machine)

structure Aligned : Prop where
  left : start.Since view.left l
  right : start.Since view.right r
  here : l.current = view.here
  there : r.current = view.there
  heap : r.heap = l.heap
  output : r.output = l.output
  backed : l.Backed
  cells : gap.Parts l.cells r.cells
  old : start.cells.size ≤ gap.place

def Abreast : Prop := ∃ gap, Aligned start gap view l r

/-- The variables in use mean the same cells, and functions are the same. These are all defined in
scopes of `start`. -/
structure Twins : Prop extends Aligned start gap view l r where
  names : ∀ x, view.known x → r.cell? x = (l.cell? x).map gap.shift
  functions : ∃ base < start.scopes.next, ∀ name arity,
    l.scopes.findFunction? l.current name arity = start.scopes.findFunction? base name arity ∧
      r.scopes.findFunction? r.current name arity = start.scopes.findFunction? base name arity

structure Block : Prop extends Twins start gap view l r where
  newHere : start.scopes.next ≤ view.here ∧ view.left.next ≤ view.here
  newThere : start.scopes.next ≤ view.there ∧ view.right.next ≤ view.there
  own : ∀ x, view.known x →
    (r.scopes.ownVariable? r.current x).isSome = (l.scopes.ownVariable? l.current x).isSome

end

def View.inside (view : View) (l r : Machine) : View :=
  ⟨l.scopes, r.scopes, l.scopes.next, r.scopes.next, view.known⟩

section

variable {start : Machine} {gap : Gap} {view : View} {l r m n : Machine}

/-- The machines may be asked to keep all scopes that they have now. -/
theorem twins_narrow (twins : Twins start gap view l r) :
    Twins start gap { view with left := l.scopes, right := r.scopes } l r :=
  { twins with
    left := { twins.left with kept := Scopes.extends_refl _ }
    right := { twins.right with kept := Scopes.extends_refl _ } }

theorem twins_widen (twins : Twins start gap view l r)
    (later : Twins start gap { view with left := l.scopes, right := r.scopes } m n) :
    Twins start gap view m n :=
  { later with
    left := Machine.since_wider twins.left later.left
    right := Machine.since_wider twins.right later.right }

/-- What was done in the current scopes without a definition leaves what is defined there. -/
theorem block_widen (block : Block start gap view l r)
    (later : Twins start gap { view with left := l.scopes, right := r.scopes } m n) :
    Block start gap view m n := by
  -- The current scopes are among those that the later machines have kept.
  have left : ∀ x, m.scopes.ownVariable? m.current x = l.scopes.ownVariable? l.current x := by
    intro x
    rw [later.here, ← block.here]
    exact Scopes.ownVariable?_of_extends later.left.kept block.left.here x
  have right : ∀ x, n.scopes.ownVariable? n.current x = r.scopes.ownVariable? r.current x := by
    intro x
    rw [later.there, ← block.there]
    exact Scopes.ownVariable?_of_extends later.right.kept block.right.here x
  refine { twins_widen block.toTwins later with
    newHere := block.newHere, newThere := block.newThere, own := fun x known => ?_ }
  rw [left, right]
  exact block.own x known

theorem twins_refl (regular : start.Regular) (known : String → Prop) :
    Twins start ⟨start.cells.size, []⟩
      ⟨start.scopes, start.scopes, start.current, start.current, known⟩ start start where
  left := Machine.since_refl regular
  right := Machine.since_refl regular
  here := rfl
  there := rfl
  heap := rfl
  output := rfl
  backed := regular.backed
  cells := Gap.parts_self start.cells
  old := Nat.le_refl _
  names x _ := by
    rw [funext (Gap.shift_empty start.cells.size), Option.map_id']
  functions := ⟨start.current, regular.here, fun _ _ => ⟨rfl, rfl⟩⟩

/-- The left machine goes into a new scope. -/
theorem twins_left (twins : Twins start gap view l r) :
    Twins start gap ⟨l.scopes, view.right, l.scopes.next, view.there, view.known⟩
      (l.entered l.current) r where
  left := Machine.since_entered twins.left twins.left.here
  right := twins.right
  here := rfl
  there := twins.there
  heap := twins.heap
  output := twins.output
  backed := Machine.backed_addChild twins.backed l.current _
  cells := twins.cells
  old := twins.old
  names x used := by
    rw [Machine.cell?_entered twins.left.founded twins.left.here]
    exact twins.names x used
  functions := by
    obtain ⟨base, old, same⟩ := twins.functions
    refine ⟨base, old, fun name arity => ?_⟩
    rw [Machine.function?_entered twins.left.founded twins.left.here]
    exact same name arity

/-- The right machine goes into a new scope. -/
theorem twins_right (twins : Twins start gap view l r) :
    Twins start gap ⟨l.scopes, r.scopes, view.here, r.scopes.next, view.known⟩ l
      (r.entered r.current) where
  left := { twins.left with kept := Scopes.extends_refl _ }
  right := Machine.since_entered twins.right twins.right.here
  here := twins.here
  there := rfl
  heap := twins.heap
  output := twins.output
  backed := twins.backed
  cells := twins.cells
  old := twins.old
  names x used := by
    rw [Machine.cell?_entered twins.right.founded twins.right.here]
    exact twins.names x used
  functions := by
    obtain ⟨base, old, same⟩ := twins.functions
    refine ⟨base, old, fun name arity => ?_⟩
    rw [Machine.function?_entered twins.right.founded twins.right.here]
    exact same name arity

theorem abreast_back_left {known : String → Prop} (twins : Twins start gap view l r)
    (inner : Abreast start ⟨l.scopes, view.right, l.scopes.next, view.there, known⟩ m n) :
    Abreast start view (m.backIn l.current) n := by
  obtain ⟨other, aligned⟩ := inner
  exact ⟨other, { aligned with
    left := Machine.since_back twins.left aligned.left
    here := twins.here }⟩

theorem abreast_back_right {known : String → Prop} (twins : Twins start gap view l r)
    (inner : Abreast start ⟨l.scopes, r.scopes, view.here, r.scopes.next, known⟩ m n) :
    Abreast start view m (n.backIn r.current) := by
  obtain ⟨other, aligned⟩ := inner
  exact ⟨other, { aligned with
    left := Machine.since_wider twins.left aligned.left
    right := Machine.since_back twins.right aligned.right
    there := twins.there }⟩

/-- New scopes in which the same variables and functions are seen. -/
theorem block_entered (twins : Twins start gap view l r) {parent parent' : Nat}
    {known : String → Prop} (inside : parent < l.scopes.next) (inside' : parent' < r.scopes.next)
    (names : ∀ x, known x →
      r.scopes.findVariable? parent' x = (l.scopes.findVariable? parent x).map gap.shift)
    (functions : ∃ base < start.scopes.next, ∀ name arity,
      l.scopes.findFunction? parent name arity = start.scopes.findFunction? base name arity ∧
        r.scopes.findFunction? parent' name arity = start.scopes.findFunction? base name arity) :
    Block start gap ({ view with known }.inside l r) (l.entered parent) (r.entered parent') where
  left := Machine.since_entered twins.left inside
  right := Machine.since_entered twins.right inside'
  here := rfl
  there := rfl
  heap := twins.heap
  output := twins.output
  backed := Machine.backed_addChild twins.backed parent _
  cells := twins.cells
  old := twins.old
  names x used := by
    rw [Machine.cell?_entered twins.left.founded inside,
      Machine.cell?_entered twins.right.founded inside', names x used]
  functions := by
    obtain ⟨base, old, same⟩ := functions
    refine ⟨base, old, fun name arity => ?_⟩
    obtain ⟨left, right⟩ := same name arity
    constructor
    · exact (Machine.function?_entered twins.left.founded inside name arity).trans left
    · exact (Machine.function?_entered twins.right.founded inside' name arity).trans right
  newHere := ⟨twins.left.started.next, Nat.le_refl _⟩
  newThere := ⟨twins.right.started.next, Nat.le_refl _⟩
  own x _ := by
    have left : (l.entered parent).scopes.ownVariable? (l.entered parent).current x = none :=
      Scopes.ownVariable?_addChild_new parent x
    have right : (r.entered parent').scopes.ownVariable? (r.entered parent').current x = none :=
      Scopes.ownVariable?_addChild_new parent' x
    rw [left, right]

/-- Back in the scopes where the machines were, what names mean there is what it was. -/
theorem twins_back (twins : Twins start gap view l r) {known : String → Prop}
    (inner : Aligned start gap ({ view with known }.inside l r) m n) :
    Twins start gap view (m.backIn l.current) (n.backIn r.current) where
  left := Machine.since_back twins.left inner.left
  right := Machine.since_back twins.right inner.right
  here := twins.here
  there := twins.there
  heap := inner.heap
  output := inner.output
  backed := inner.backed
  cells := inner.cells
  old := inner.old
  names x used := by
    rw [Machine.cell?_back twins.left inner.left, Machine.cell?_back twins.right inner.right,
      twins.names x used]
  functions := by
    obtain ⟨base, old, same⟩ := twins.functions
    refine ⟨base, old, fun name arity => ?_⟩
    obtain ⟨left, right⟩ := same name arity
    have left' : m.scopes.findFunction? l.current name arity = _ :=
      Scopes.findFunction?_of_extends twins.left.founded inner.left.kept twins.left.here name arity
    have right' : n.scopes.findFunction? r.current name arity = _ :=
      Scopes.findFunction?_of_extends twins.right.founded inner.right.kept twins.right.here name
        arity
    exact ⟨left'.trans left, right'.trans right⟩

theorem block_defining (block : Block start gap view l r) (name : String) (mutable : Bool)
    (v : Value) : Block start gap view (l.defining name mutable v)
      (r.defining name mutable v) where
  left := Machine.since_defining block.left (block.here ▸ block.newHere.1)
    (block.here ▸ block.newHere.2) name mutable v
  right := Machine.since_defining block.right (block.there ▸ block.newThere.1)
    (block.there ▸ block.newThere.2) name mutable v
  here := block.here
  there := block.there
  heap := block.heap
  output := block.output
  backed := Machine.backed_defining block.backed name _
  cells := Gap.parts_push block.cells _
  old := block.old
  names x used := by
    rw [Machine.cell?_defining block.left.founded block.left.here,
      Machine.cell?_defining block.right.founded block.right.here]
    split
    · rw [Option.map_some, Gap.shift_size block.cells]
    · exact block.names x used
  functions := by
    obtain ⟨base, old, same⟩ := block.functions
    refine ⟨base, old, fun other arity => ?_⟩
    simp only [Machine.defining, Scopes.findFunction?, Scopes.path_bindVariable,
      Scopes.ownFunction?_bindVariable]
    exact same other arity
  newHere := block.newHere
  newThere := block.newThere
  own x used := by
    simp only [Machine.defining, Scopes.ownVariable?_bindVariable block.left.here,
      Scopes.ownVariable?_bindVariable block.right.here]
    split
    · rfl
    · exact block.own x used

theorem aligned_setting (aligned : Aligned start gap view l r) (i : Nat) (v : Value) :
    Aligned start gap view (l.setting i v) (r.setting (gap.shift i) v) :=
  { aligned with
    left := Machine.since_setting aligned.left i v
    right := Machine.since_setting aligned.right _ v
    backed := Machine.backed_setting aligned.backed i _
    cells := Gap.parts_modify aligned.cells i fun c => { c with value := v } }

end

theorem Eval.inChildOf_entered {α : Type} (parent : Nat) (act : Eval α) (m : Machine) :
    inChildOf parent act m = backIn m.current (act (m.entered parent)) := by
  unfold inChildOf inScope Machine.entered
  dsimp only
  cases act _ <;> rfl

inductive Alike {α : Type} (J : Machine → Machine → Prop) :
    EStateM.Result Halt Machine α → EStateM.Result Halt Machine α → Prop where
  | ok {a : α} {l r : Machine} (after : J l r) : Alike J (.ok a l) (.ok a r)
  | error {e : Halt} {l r : Machine} (after : J l r) : Alike J (.error e l) (.error e r)

/-- From machines that belong together in one way, the two actions come to machines that do in
another. -/
def Takes {α : Type} (I J : Machine → Machine → Prop) (act act' : Eval α) : Prop :=
  ∀ l r, I l r → Alike J (act l) (act' r)

abbrev Keeps {α : Type} (I : Machine → Machine → Prop) (act act' : Eval α) : Prop :=
  Takes I I act act'

section

variable {α β γ : Type} {I J K : Machine → Machine → Prop}

theorem alike_imp {x y : EStateM.Result Halt Machine α} (alike : Alike I x y)
    (imp : ∀ l r, I l r → J l r) : Alike J x y := by
  cases alike with
  | ok after => exact .ok (imp _ _ after)
  | error after => exact .error (imp _ _ after)

theorem alike_back {x y : EStateM.Result Halt Machine α} {c d : Nat} (alike : Alike I x y)
    (back : ∀ m n, I m n → J (m.backIn c) (n.backIn d)) :
    Alike J (Eval.backIn c x) (Eval.backIn d y) := by
  cases alike with
  | ok after => exact .ok (back _ _ after)
  | error after => exact .error (back _ _ after)

theorem alike_back_left {x y : EStateM.Result Halt Machine α} {c : Nat} (alike : Alike I x y)
    (back : ∀ m n, I m n → J (m.backIn c) n) : Alike J (Eval.backIn c x) y := by
  cases alike with
  | ok after => exact .ok (back _ _ after)
  | error after => exact .error (back _ _ after)

theorem alike_back_right {x y : EStateM.Result Halt Machine α} {c : Nat} (alike : Alike I x y)
    (back : ∀ m n, I m n → J m (n.backIn c)) : Alike J x (Eval.backIn c y) := by
  cases alike with
  | ok after => exact .ok (back _ _ after)
  | error after => exact .error (back _ _ after)

theorem alike_whole {x y : EStateM.Result Halt Machine α} (alike : Alike I x y) :
    (∀ n, x ≠ .error .exhausted n) ↔ ∀ n, y ≠ .error .exhausted n := by
  cases alike with
  | ok => simp
  | error => simp

theorem takes_bind {act act' : Eval α} {next next' : α → Eval β} (first : Takes I J act act')
    (rest : ∀ a, Takes J K (next a) (next' a)) (imp : ∀ l r, J l r → K l r) :
    Takes I K (act >>= next) (act' >>= next') := by
  intro l r before
  have start := first l r before
  show Alike K (EStateM.bind act next l) (EStateM.bind act' next' r)
  unfold EStateM.bind
  generalize act l = x at start ⊢
  generalize act' r = y at start ⊢
  cases start with
  | @ok a m n after => exact rest a m n after
  | error after => exact .error (imp _ _ after)

theorem keeps_bind {act act' : Eval α} {next next' : α → Eval β} (first : Keeps I act act')
    (rest : ∀ a, Keeps I (next a) (next' a)) : Keeps I (act >>= next) (act' >>= next') :=
  takes_bind first rest fun _ _ => id

theorem keeps_pure (a : α) : Keeps I (pure a) (pure a) := fun _ _ => .ok

theorem keeps_throw (e : Halt) : Keeps I (throw e : Eval α) (throw e) := fun _ _ => .error

theorem keeps_fail (e : RuntimeError) : Keeps I (Eval.fail e : Eval α) (Eval.fail e) :=
  keeps_throw (.error e)

/-- Both sides fail in the same way, or go on. -/
theorem keeps_guard {holds : Prop} [Decidable holds] (e : RuntimeError) {next next' : β → Eval α}
    {rest rest' : Eval α} (other : Keeps I rest rest') :
    Keeps I (if holds then Eval.fail e >>= next else rest)
      (if holds then Eval.fail e >>= next' else rest') := by
  split
  · exact fun _ _ => .error
  · exact other

theorem keeps_mapM {act act' : γ → Eval α} (cs : List γ)
    (each : ∀ c ∈ cs, Keeps I (act c) (act' c)) : Keeps I (cs.mapM act) (cs.mapM act') := by
  induction cs with
  | nil => exact keeps_pure []
  | cons c cs ih =>
    rw [List.mapM_cons, List.mapM_cons]
    have others := ih fun d member => each d (List.mem_cons_of_mem c member)
    exact keeps_bind (each c List.mem_cons_self) fun a => keeps_bind others fun as => keeps_pure _

end

end Plc

import Plc.Proofs.Nesting
import Plc.Proofs.Operands
import Plc.Proofs.Timeline

/-!
No list ever lies in itself. This is a store law: only a new list and the storing of an element
change the heap, and both keep it free of cycles. So it holds at every moment of every session, and
with it the operations that follow lists into each other have answers for every value there is.
-/

namespace Plc

open Value

structure Machine.Acyclic (m : Machine) : Prop where
  acyclic : m.heap.Acyclic
  closed : m.heap.Closed
  cells : ∀ (i : Nat) (c : Cell), m.cells[i]? = some c → m.heap.Has c.value

def Heap.Grows (h g : Heap) : Prop :=
  h.size ≤ g.size ∧ ∀ p < h.size, (g.elements p).length = (h.elements p).length

namespace Heap

theorem grows_refl (h : Heap) : h.Grows h := ⟨le_refl _, fun _ _ => rfl⟩

theorem grows_trans {f g h : Heap} (first : f.Grows g) (second : g.Grows h) : f.Grows h := by
  refine ⟨first.1.trans second.1, fun p inside => ?_⟩
  have between : p < g.size := lt_of_lt_of_le inside first.1
  rw [second.2 p between, first.2 p inside]

theorem has_lasts {h g : Heap} (grows : h.Grows g) {v : Value} (has : h.Has v) : g.Has v :=
  fun p hp => lt_of_lt_of_le (has p hp) grows.1

theorem grows_push (h : Heap) (vs : List Value) : h.Grows (h.push vs) := by
  refine ⟨by simp, fun p inside => ?_⟩
  rw [elements_push, if_neg (by omega)]

theorem grows_store (h : Heap) (place k : Nat) (v : Value) : h.Grows (h.store place k v) := by
  refine ⟨by simp, fun p _ => ?_⟩
  rw [elements_store]
  split
  · rw [List.length_set]
  · rfl

end Heap

namespace Machine

theorem has_ofLiteral (h : Heap) (l : Literal) : h.Has (.ofLiteral l) := by
  intro p hp
  cases l <;> simp [Value.ofLiteral] at hp

theorem acyclic_setting {m : Machine} (i : Nat) {v : Value} (acyclic : m.Acyclic)
    (has : m.heap.Has v) : (m.setting i v).Acyclic := by
  refine ⟨acyclic.acyclic, acyclic.closed, fun j c found => ?_⟩
  simp only [setting, Array.getElem?_modify] at found
  split at found
  · obtain ⟨d, _, rfl⟩ := Option.map_eq_some_iff.mp found
    exact has
  · exact acyclic.cells j c found

theorem acyclic_defining {m : Machine} (name : String) (mutable : Bool) {v : Value}
    (acyclic : m.Acyclic) (has : m.heap.Has v) : (m.defining name mutable v).Acyclic := by
  refine ⟨acyclic.acyclic, acyclic.closed, fun j c found => ?_⟩
  simp only [defining, Array.getElem?_push] at found
  split at found
  · cases found
    exact has
  · exact acyclic.cells j c found

theorem acyclic_listing {m : Machine} {vs : List Value} (acyclic : m.Acyclic)
    (has : ∀ v ∈ vs, m.heap.Has v) : (m.listing vs).Acyclic where
  acyclic := Heap.acyclic_push acyclic.acyclic acyclic.closed has
  closed := Heap.closed_push acyclic.closed has
  cells i c found := Heap.has_push vs (acyclic.cells i c found)

/-- What the check before a store has found is true. -/
theorem apart_of_check {m : Machine} {place : Nat} {v : Value} (acyclic : m.Acyclic)
    (has : m.heap.Has v) (passed : Operation.closesCycle m.heap place v = .ok false) :
    ¬ v.Reaches m.heap place := by
  obtain ⟨b, answer, iff⟩ :=
    Operation.closesCycle_reaches acyclic.acyclic acyclic.closed has place
  rw [answer, Except.ok.injEq] at passed
  simp [← iff, passed]

theorem acyclic_storing {m : Machine} {place k : Nat} {v : Value} (acyclic : m.Acyclic)
    (has : m.heap.Has v) (passed : Operation.closesCycle m.heap place v = .ok false) :
    (m.storing place k v).Acyclic where
  acyclic := Heap.acyclic_store acyclic.acyclic (apart_of_check acyclic has passed)
  closed := Heap.closed_store acyclic.closed has
  cells i c found := Heap.has_lasts (Heap.grows_store m.heap place k v) (acyclic.cells i c found)

end Machine

namespace StoreLaw

def acyclic (rule : DivisionScale) : StoreLaw rule where
  holds := Machine.Acyclic
  valid m v := m.heap.Has v
  grows m n := m.heap.Grows n.heap
  refl m := Heap.grows_refl m.heap
  trans first second := Heap.grows_trans first second
  lasts grows has := Heap.has_lasts grows has
  literal m l := Machine.has_ofLiteral m.heap l
  aside m n cells heap holds := by
    refine ⟨⟨heap ▸ holds.acyclic, heap ▸ holds.closed, ?_⟩, heap ▸ Heap.grows_refl m.heap⟩
    rw [cells, heap]
    exact holds.cells
  cell holds found := holds.cells _ _ found
  element holds member := holds.closed _ _ member
  operation _ _ _ result p hp := absurd hp (Operation.apply_plain p result)
  defined name mutable holds has :=
    ⟨Machine.acyclic_defining name mutable holds has, Heap.grows_refl _⟩
  assigned _ _ _ _ holds has := ⟨Machine.acyclic_setting _ holds has, Heap.grows_refl _⟩
  listed {m vs} holds has := by
    refine ⟨Machine.acyclic_listing holds has, Heap.grows_push m.heap vs, fun p hp => ?_⟩
    cases hp
    simp [Machine.listing]
  stored {m place k v} holds _ has passed :=
    ⟨Machine.acyclic_storing holds has passed, Heap.grows_store m.heap place k v⟩

theorem acyclic_bearsSetting (rule : DivisionScale) : (acyclic rule).BearsSetting :=
  fun m i l holds =>
    ⟨Machine.acyclic_setting i holds (Machine.has_ofLiteral m.heap l), Heap.grows_refl m.heap⟩

end StoreLaw

/-- The values that there are at a moment: those of variables and of elements, the lists themselves,
and what was evaluated or passed just then. -/
def Moment.Shows (x : Moment) (v : Value) : Prop :=
  (∃ c ∈ x.machine.cells, c.value = v) ∨ (∃ p, v ∈ x.machine.heap.elements p) ∨
    (∃ p < x.machine.heap.size, v = .list p) ∨ (∃ e, x.event = .evaluated e v) ∨
      ∃ f vs, x.event = .invoked f vs ∧ v ∈ vs

theorem shows_has {rule : DivisionScale} {x : Moment} {v : Value} (acyclic : x.machine.Acyclic)
    (sees : (StoreLaw.acyclic rule).Sees x) (shows : x.Shows v) : x.machine.heap.Has v := by
  rcases shows with ⟨c, member, rfl⟩ | ⟨p, member⟩ | ⟨p, inside, rfl⟩ | ⟨e, event⟩ |
    ⟨f, vs, event, member⟩
  · obtain ⟨i, found⟩ := Array.getElem?_of_mem member
    exact acyclic.cells i c found
  · exact acyclic.closed p v member
  · rintro _ ⟨⟩
    exact inside
  · simp only [StoreLaw.Sees, event] at sees
    exact sees
  · simp only [StoreLaw.Sees, event] at sees
    exact sees v member

/-- At every moment of every session no list lies in itself, the text of every value, its equality
with any other and the search for a list in it have answers, and every list has the length it had at
every moment before. -/
theorem timeline_acyclic (rule : DivisionScale) (steps : List Session.Step) :
    (∀ x ∈ (Session.start rule).timeline steps, x.machine.heap.Acyclic ∧
      ∀ v, x.Shows v → (∃ s, Operation.text x.machine.heap v = .ok s) ∧
        (∀ w, ∃ b, Operation.equal x.machine.heap v w = .ok b) ∧
        ∀ place, ∃ b, Operation.closesCycle x.machine.heap place v = .ok b) ∧
    ((Session.start rule).timeline steps).Pairwise fun later earlier =>
      ∀ p < earlier.machine.heap.size, p < later.machine.heap.size ∧
        (later.machine.heap.elements p).length = (earlier.machine.heap.elements p).length := by
  have nothing : ∀ p, (Heap.elements #[] p) = [] := fun p => by simp [Heap.elements]
  have begun : (Session.start rule).machine.Acyclic := by
    have empty : (Session.start rule).machine.heap = #[] := rfl
    refine ⟨?_, ?_, fun i c found => by simp [Session.start, Machine.fresh, Machine.empty,
      Machine.inside] at found⟩
    · intro p cycle
      rw [empty] at cycle
      obtain ⟨q, holds, _⟩ := Relation.TransGen.head'_iff.mp cycle
      simp [Heap.Holds, nothing] at holds
    · intro p v member
      rw [empty, nothing] at member
      simp at member
  obtain ⟨last, ordered⟩ := StoreLaw.ordered_timeline (StoreLaw.acyclic_bearsSetting rule)
    (Session.start rule) rfl steps begun
  refine ⟨fun x hx => ?_, ?_⟩
  · have acyclic : x.machine.Acyclic := ordered.holds x hx
    refine ⟨acyclic.acyclic, fun v shows => ?_⟩
    have within := within_of_has acyclic.acyclic acyclic.closed
      (shows_has acyclic (ordered.sees x hx) shows)
    obtain ⟨s, text⟩ := text_some _ v within
    refine ⟨⟨s, by simp only [Operation.text, text]⟩, fun w => ?_, fun place => ?_⟩
    · obtain ⟨b, equal⟩ := equal_some _ v w within
      exact ⟨b, by simp only [Operation.equal, equal]⟩
    · obtain ⟨b, reached, _⟩ := reaches_some place _ v within
      exact ⟨b, by simp only [Operation.closesCycle, reached]⟩
  · refine ordered.pairwise.imp fun grows p inside => ?_
    exact ⟨lt_of_lt_of_le inside grows.1, grows.2 p inside⟩

end Plc

import Mathlib.Data.Finset.Card
import Mathlib.Logic.Relation
import Plc.Evaluation.Operation

/-!
How lists lie in each other. On a closed heap where no list reaches itself, the texts, the equality
and the reachability of values have answers at the depth that the operations give them, and
reachability is what it says. A new list closes no cycle, and storing a value closes one just when
the value reaches the list that it is stored in.
-/

namespace Plc

open Relation

namespace Heap

def Holds (h : Heap) (p q : Nat) : Prop := Value.list q ∈ h.elements p

def Acyclic (h : Heap) : Prop := ∀ p, ¬ TransGen h.Holds p p

def Has (h : Heap) (v : Value) : Prop := ∀ p, v = .list p → p < h.size

def Closed (h : Heap) : Prop := ∀ p, ∀ v ∈ h.elements p, h.Has v

/-- Lists lie below `p` in fewer than `depth` layers. -/
def Within (h : Heap) : (depth : Nat) → (p : Nat) → Prop
  | 0, _ => False
  | depth + 1, p => ∀ q, h.Holds p q → Within h depth q

theorem has_of_holds {h : Heap} (closed : h.Closed) {p q : Nat} (holds : h.Holds p q) :
    q < h.size := closed p _ holds q rfl

open Classical in
noncomputable def below (h : Heap) (p : Nat) : Finset Nat :=
  (Finset.range h.size).filter fun q => TransGen h.Holds p q

theorem below_lt {h : Heap} (acyclic : h.Acyclic) (closed : h.Closed) {p q : Nat}
    (holds : h.Holds p q) : (h.below q).card < (h.below p).card := by
  refine Finset.card_lt_card (Finset.ssubset_iff_subset_ne.mpr ⟨?_, ?_⟩)
  · intro r hr
    simp only [below, Finset.mem_filter] at hr ⊢
    exact ⟨hr.1, .head holds hr.2⟩
  · intro same
    have inside : q ∈ h.below p := by
      simp only [below, Finset.mem_filter, Finset.mem_range]
      exact ⟨has_of_holds closed holds, .single holds⟩
    rw [← same] at inside
    simp only [below, Finset.mem_filter] at inside
    exact acyclic q inside.2

theorem within_of_below {h : Heap} (acyclic : h.Acyclic) (closed : h.Closed) (depth p : Nat)
    (enough : (h.below p).card < depth) : h.Within depth p := by
  induction depth generalizing p with
  | zero => omega
  | succ depth ih =>
    intro q holds
    have less := below_lt acyclic closed holds
    exact ih q (by omega)

/-- The number of lists is depth enough: a list is never below itself. -/
theorem within_size {h : Heap} (acyclic : h.Acyclic) (closed : h.Closed) {p : Nat}
    (inside : p < h.size) : h.Within h.size p := by
  refine within_of_below acyclic closed _ p ?_
  -- all lists below `p` are lists of the heap, and `p` is not one of them
  have proper : h.below p ⊂ Finset.range h.size := by
    refine Finset.ssubset_iff_subset_ne.mpr ⟨fun q hq => ?_, ?_⟩
    · simp only [below, Finset.mem_filter] at hq
      exact hq.1
    intro all
    have self : p ∈ h.below p := by rw [all]; exact Finset.mem_range.mpr inside
    simp only [below, Finset.mem_filter] at self
    exact acyclic p self.2
  simpa using Finset.card_lt_card proper

theorem within_mono {h : Heap} {depth deeper p : Nat} (within : h.Within depth p)
    (more : depth ≤ deeper) : h.Within deeper p := by
  induction depth generalizing deeper p with
  | zero => exact within.elim
  | succ depth ih =>
    obtain ⟨deeper, rfl⟩ : ∃ n, deeper = n + 1 := ⟨deeper - 1, by omega⟩
    exact fun q holds => ih (within q holds) (by omega)

/-- Where lists hold only older lists, none is below itself. -/
theorem acyclic_of_older {h : Heap} (older : ∀ {p q}, h.Holds p q → q < p) : h.Acyclic := by
  have below : ∀ {p q}, TransGen h.Holds p q → q < p := by
    intro p q path
    induction path with
    | single holds => exact older holds
    | tail _ holds ih => exact (older holds).trans ih
  exact fun p cycle => Nat.lt_irrefl p (below cycle)

theorem lt_size_of_element {h : Heap} {p : Nat} {v : Value} (element : v ∈ h.elements p) :
    p < h.size := by
  by_contra outside
  rw [elements, Array.getElem?_eq_none (Nat.le_of_not_lt outside)] at element
  cases element

theorem closed_of_older {h : Heap} (older : ∀ {p q}, h.Holds p q → q < p) : h.Closed := by
  rintro p _ element q rfl
  exact (older element).trans (lt_size_of_element element)

end Heap

namespace Value

/-- `v` is the list at `target`, or reaches it through elements. -/
def Reaches (h : Heap) (v : Value) (target : Nat) : Prop :=
  ∃ p, v = .list p ∧ ReflTransGen h.Holds p target

def Within (h : Heap) (depth : Nat) (v : Value) : Prop := ∀ p, v = .list p → h.Within depth p

variable {h : Heap}

theorem within_elements {depth p : Nat} (within : h.Within (depth + 1) p) {v : Value}
    (element : v ∈ h.elements p) : v.Within h depth := by
  rintro q rfl
  exact within q element

theorem within_of_has (acyclic : h.Acyclic) (closed : h.Closed) {v : Value} (has : h.Has v) :
    v.Within h h.size := fun p hp => Heap.within_size acyclic closed (has p hp)

theorem mapM_some {α β : Type} {f : α → Option β} (as : List α)
    (each : ∀ a ∈ as, ∃ b, f a = some b) : ∃ bs, as.mapM f = some bs := by
  induction as with
  | nil => exact ⟨[], rfl⟩
  | cons a as ih =>
    obtain ⟨b, hb⟩ := each a List.mem_cons_self
    obtain ⟨bs, hbs⟩ := ih fun c hc => each c (List.mem_cons_of_mem a hc)
    exact ⟨b :: bs, by simp [List.mapM_cons, hb, hbs]⟩

theorem text_some (depth : Nat) (v : Value) (within : v.Within h depth) :
    ∃ s, v.text? h depth = some s := by
  induction depth generalizing v with
  | zero =>
    cases v with
    | list p => exact (within p rfl).elim
    | boolean b => cases b <;> exact ⟨_, rfl⟩
    | _ => exact ⟨_, rfl⟩
  | succ depth ih =>
    cases v with
    | list p =>
      obtain ⟨parts, hp⟩ := mapM_some (f := text? h depth) (h.elements p) fun v hv =>
        ih v (within_elements (within p rfl) hv)
      exact ⟨_, by simp only [text?, hp]; rfl⟩
    | boolean b => cases b <;> exact ⟨_, rfl⟩
    | _ => exact ⟨_, rfl⟩

theorem allEqual_some {equal? : Value → Value → Option Bool} (vs ws : List Value)
    (each : ∀ v ∈ vs, ∀ w, ∃ b, equal? v w = some b) : ∃ b, allEqual? equal? vs ws = some b := by
  induction vs generalizing ws with
  | nil => cases ws <;> exact ⟨_, rfl⟩
  | cons v vs ih =>
    cases ws with
    | nil => exact ⟨_, rfl⟩
    | cons w ws =>
      obtain ⟨b, hb⟩ := each v List.mem_cons_self w
      have rest := ih ws fun u hu => each u (List.mem_cons_of_mem v hu)
      cases b with
      | true => simpa [allEqual?, hb] using rest
      | false => exact ⟨false, by simp [allEqual?, hb]⟩

theorem equal_some (depth : Nat) (v w : Value) (within : v.Within h depth) :
    ∃ b, v.equal? h depth w = some b := by
  induction depth generalizing v w with
  | zero =>
    cases v with
    | list p => exact (within p rfl).elim
    | _ => cases w <;> exact ⟨_, rfl⟩
  | succ depth ih =>
    cases v with
    | list p =>
      cases w with
      | list q =>
        by_cases same : p = q
        · exact ⟨true, by simp only [equal?, if_pos same]⟩
        · simp only [equal?, if_neg same]
          exact allEqual_some _ _ fun v hv w => ih v w (within_elements (within p rfl) hv)
      | _ => exact ⟨_, rfl⟩
    | _ => cases w <;> exact ⟨_, rfl⟩

theorem anyM_some {f : Value → Option Bool} {p : Value → Prop} (vs : List Value)
    (each : ∀ v ∈ vs, ∃ b, f v = some b ∧ (b = true ↔ p v)) :
    ∃ b, vs.anyM f = some b ∧ (b = true ↔ ∃ v ∈ vs, p v) := by
  induction vs with
  | nil => exact ⟨false, rfl, by simp⟩
  | cons v vs ih =>
    obtain ⟨b, hb, iff⟩ := each v List.mem_cons_self
    obtain ⟨c, hc, rest⟩ := ih fun w hw => each w (List.mem_cons_of_mem v hw)
    cases b with
    | true => exact ⟨true, by simp [List.anyM, hb], by simp [← iff]⟩
    | false =>
      refine ⟨c, by simp [List.anyM, hb, hc], ?_⟩
      simp only [List.mem_cons, exists_eq_or_imp, rest, ← iff, Bool.false_eq_true, false_or]

theorem reaches_list {p target : Nat} (other : p ≠ target) :
    (Value.list p).Reaches h target ↔ ∃ v ∈ h.elements p, v.Reaches h target := by
  constructor
  · rintro ⟨_, ⟨⟩, path⟩
    rcases path.cases_head with same | ⟨q, holds, rest⟩
    · exact absurd same other
    · exact ⟨.list q, holds, q, rfl, rest⟩
  · rintro ⟨v, element, q, rfl, rest⟩
    exact ⟨p, rfl, .head element rest⟩

theorem reaches_other (target depth : Nat) {v : Value} (other : ∀ p, v ≠ .list p) :
    ∃ b, v.reaches? h target depth = some b ∧ (b = true ↔ v.Reaches h target) := by
  refine ⟨false, ?_, by simpa [Reaches] using fun p hp => absurd hp (other p)⟩
  cases v with
  | list p => exact absurd rfl (other p)
  | _ => simp [reaches?]

/-- The search for a list ends, and finds it if and only if it is there. -/
theorem reaches_some (target depth : Nat) (v : Value) (within : v.Within h depth) :
    ∃ b, v.reaches? h target depth = some b ∧ (b = true ↔ v.Reaches h target) := by
  induction depth generalizing v with
  | zero =>
    cases v with
    | list p => exact (within p rfl).elim
    | _ => exact reaches_other _ _ (by simp)
  | succ depth ih =>
    cases v with
    | list p =>
      by_cases same : p = target
      · exact ⟨true, by simp only [reaches?, if_pos same],
          by simp [Reaches, same, ReflTransGen.refl]⟩
      · simp only [reaches?, if_neg same, reaches_list same]
        exact anyM_some _ fun v hv => ih v (within_elements (within p rfl) hv)
    | _ => exact reaches_other _ _ (by simp)

end Value

namespace Heap

variable {h : Heap}

/-- Edges that lead only to lists of the smaller heap are no way out of it. -/
theorem path_of_old {g : Heap} {size : Nat} (inside : ∀ {p q}, g.Holds p q → q < size)
    (old : ∀ {p q}, p < size → g.Holds p q → h.Holds p q) {p q : Nat} (low : p < size)
    (path : TransGen g.Holds p q) : TransGen h.Holds p q := by
  induction path with
  | single holds => exact .single (old low holds)
  | @tail r s first holds ih =>
    have between : r < size := by
      cases first with
      | single holds => exact inside holds
      | tail _ holds => exact inside holds
    exact .tail ih (old between holds)

theorem elements_push (vs : List Value) (p : Nat) :
    Heap.elements (h.push vs) p = if p = h.size then vs else h.elements p := by
  unfold Heap.elements
  rw [Array.getElem?_push]
  split <;> rfl

theorem has_push {v : Value} (vs : List Value) (has : h.Has v) : Heap.Has (h.push vs) v := by
  intro p hp
  have := has p hp
  simp only [Array.size_push]
  omega

theorem closed_push (closed : h.Closed) {vs : List Value} (has : ∀ v ∈ vs, h.Has v) :
    Heap.Closed (h.push vs) := by
  intro p v hv
  rw [elements_push] at hv
  split at hv
  · exact has_push vs (has v hv)
  · exact has_push vs (closed p v hv)

/-- Nothing holds a list that is new. -/
theorem acyclic_push (acyclic : h.Acyclic) (closed : h.Closed) {vs : List Value}
    (has : ∀ v ∈ vs, h.Has v) : Heap.Acyclic (h.push vs) := by
  have inside : ∀ {p q}, Heap.Holds (h.push vs) p q → q < h.size := by
    intro p q holds
    unfold Holds at holds
    rw [elements_push] at holds
    split at holds
    · exact has _ holds q rfl
    · exact closed p _ holds q rfl
  have old : ∀ {p q}, p < h.size → Heap.Holds (h.push vs) p q → h.Holds p q := by
    intro p q low holds
    unfold Holds at holds
    rw [elements_push, if_neg (by omega)] at holds
    exact holds
  intro p cycle
  -- a cycle comes back to `p`, so something holds `p`
  have low : p < h.size := by
    cases cycle with
    | single holds => exact inside holds
    | tail _ holds => exact inside holds
  exact acyclic p (path_of_old inside old low cycle)

abbrev store (h : Heap) (place k : Nat) (v : Value) : Heap := h.modify place fun vs => vs.set k v

theorem elements_store (place k : Nat) (v : Value) (p : Nat) :
    (h.store place k v).elements p =
      if place = p then (h.elements p).set k v else h.elements p := by
  unfold Heap.elements
  rw [Array.getElem?_modify]
  split
  · cases h[p]? <;> simp
  · rfl

theorem mem_store {place k p : Nat} {v w : Value} (element : w ∈ (h.store place k v).elements p) :
    w ∈ h.elements p ∨ p = place ∧ w = v := by
  rw [elements_store] at element
  split at element
  · rename_i here
    rcases List.mem_or_eq_of_mem_set element with old | new
    · exact .inl old
    · exact .inr ⟨here.symm, new⟩
  · exact .inl element

theorem closed_store (closed : h.Closed) {place k : Nat} {v : Value} (has : h.Has v) :
    (h.store place k v).Closed := by
  intro p w element q hq
  rw [Array.size_modify]
  rcases mem_store element with old | ⟨_, rfl⟩
  · exact closed p w old q hq
  · exact has q hq

/-- A path that is new leads through the new element. -/
theorem path_store {place k : Nat} {v : Value} {p q : Nat}
    (path : TransGen (h.store place k v).Holds p q) :
    TransGen h.Holds p q ∨ ReflTransGen h.Holds p place ∧ v.Reaches h q := by
  induction path with
  | single holds =>
    rcases mem_store holds with old | ⟨rfl, new⟩
    · exact .inl (.single old)
    · exact .inr ⟨.refl, _, new.symm, .refl⟩
  | tail _ holds ih =>
    rcases mem_store holds with old | ⟨rfl, new⟩
    · rcases ih with before | ⟨before, r, hr, after⟩
      · exact .inl (.tail before old)
      · exact .inr ⟨before, r, hr, .tail after old⟩
    · rcases ih with before | ⟨before, _⟩
      · exact .inr ⟨before.to_reflTransGen, _, new.symm, .refl⟩
      · exact .inr ⟨before, _, new.symm, .refl⟩

/-- The check before a store is all it takes. -/
theorem acyclic_store (acyclic : h.Acyclic) {place k : Nat} {v : Value}
    (apart : ¬ v.Reaches h place) : (h.store place k v).Acyclic := by
  intro p cycle
  rcases path_store cycle with old | ⟨before, q, hq, after⟩
  · exact acyclic p old
  · exact apart ⟨q, hq, after.trans before⟩

/-- A path to the list that is stored in does not lead through its elements. -/
theorem reaches_store {place k p : Nat} {v : Value} (path : ReflTransGen h.Holds p place) :
    ReflTransGen (h.store place k v).Holds p place := by
  induction path using ReflTransGen.head_induction_on with
  | refl => exact .refl
  | @head p q holds _ ih =>
    by_cases here : place = p
    · exact here ▸ .refl
    · have kept : (h.store place k v).Holds p q := by
        rw [Holds, elements_store, if_neg here]
        exact holds
      exact .head kept ih

/-- No store that the check refuses would have been harmless. -/
theorem cyclic_store {place k : Nat} {v : Value} (slot : k < (h.elements place).length)
    (reaches : v.Reaches h place) : ¬ (h.store place k v).Acyclic := by
  obtain ⟨p, rfl, path⟩ := reaches
  have holds : (h.store place k (.list p)).Holds place p := by
    rw [Holds, elements_store, if_pos rfl]
    exact List.mem_set slot _
  exact fun acyclic => acyclic place (.head' holds (reaches_store path))

end Heap

namespace Operation

variable {h : Heap}

/-- The check before a store has an answer, which is whether the value reaches the list. -/
theorem closesCycle_reaches (acyclic : h.Acyclic) (closed : h.Closed) {v : Value} (has : h.Has v)
    (place : Nat) : ∃ b, closesCycle h place v = .ok b ∧ (b = true ↔ v.Reaches h place) := by
  obtain ⟨b, answer, iff⟩ :=
    Value.reaches_some place h.size v (Value.within_of_has acyclic closed has)
  exact ⟨b, by simp only [closesCycle, answer], iff⟩

/-- The search for a list in a value ends at any depth from the number of lists on, and always with
the same answer: whether the list is the value or is reached from it. Just then a cycle is closed by
storing the value in a slot of the list. -/
theorem closesCycle_exact (acyclic : h.Acyclic) (closed : h.Closed) {v : Value} (has : h.Has v)
    (place : Nat) :
    ∃ b, closesCycle h place v = .ok b ∧
      (∀ depth, h.size ≤ depth → v.reaches? h place depth = some b) ∧
      (b = true ↔ v.Reaches h place) ∧
      ∀ k < (h.elements place).length, (b = true ↔ ¬ (h.store place k v).Acyclic) := by
  obtain ⟨b, answer, iff⟩ := closesCycle_reaches acyclic closed has place
  refine ⟨b, answer, fun depth enough => ?_, iff, fun k slot => ?_⟩
  · have within : v.Within h depth := fun p list =>
      Heap.within_mono (Value.within_of_has acyclic closed has p list) enough
    obtain ⟨c, found, same⟩ := Value.reaches_some place depth v within
    rw [found, Bool.eq_iff_iff.mpr (same.trans iff.symm)]
  · rw [iff]
    constructor
    · exact Heap.cyclic_store slot
    · intro cyclic
      by_contra apart
      exact cyclic (Heap.acyclic_store acyclic apart)

end Operation

def Heap.twins : Heap := #[[.integer 1], [.integer 1], [.list 0, .list 0]]

theorem Heap.twins_older {p q : Nat} (holds : Heap.twins.Holds p q) : q < p := by
  unfold Holds elements twins at holds
  rcases p with _ | _ | _ | p <;> simp at holds
  omega

/-- The third list holds the first and not the second, equal as they are. -/
theorem Operation.closesCycle_exact_twins :
    (equal Heap.twins (.list 0) (.list 1) = .ok true ∧
      closesCycle Heap.twins 0 (.list 2) = .ok true ∧
      closesCycle Heap.twins 1 (.list 2) = .ok false) ∧
    Heap.twins.Acyclic ∧ Heap.twins.Closed ∧ Heap.twins.Has (.list 2) ∧
      ¬ (Heap.twins.store 0 0 (.list 2)).Acyclic ∧ (Heap.twins.store 1 0 (.list 2)).Acyclic := by
  have acyclic := Heap.acyclic_of_older Heap.twins_older
  have closed := Heap.closed_of_older Heap.twins_older
  have has : Heap.twins.Has (.list 2) := by
    rintro _ ⟨⟩
    decide
  obtain ⟨b, first, -, -, into⟩ := closesCycle_exact acyclic closed has 0
  obtain ⟨c, second, -, -, beside⟩ := closesCycle_exact acyclic closed has 1
  cases first
  cases second
  exact ⟨⟨rfl, rfl, rfl⟩, acyclic, closed, has, (into 0 (by decide)).mp rfl, by
    simpa using beside 0 (by decide)⟩

end Plc

import Mathlib.Data.List.Forall2
import Plc.Proofs.Nesting
import Plc.Proofs.Ordering

/-!
Equality of values. At every depth it is reflexive, symmetric and transitive, also where lists are
compared by their places first, and an answer stays the same at every greater depth. On a heap where
no list reaches itself there always is an answer, and lists are equal exactly if their elements are.
-/

namespace Plc

namespace Value

section

variable {f g : Value → Value → Option Bool} {vs ws : List Value} {b : Bool}

theorem allEqual?_iff :
    allEqual? f vs ws = some true ↔ List.Forall₂ (fun v w => f v w = some true) vs ws := by
  induction vs generalizing ws with
  | nil => cases ws <;> simp [allEqual?]
  | cons v vs ih =>
    cases ws with
    | nil => simp [allEqual?]
    | cons w ws =>
      rw [List.forall₂_cons, ← ih]
      cases first : f v w with
      | none => simp [allEqual?, first]
      | some b => cases b <;> simp [allEqual?, first]

theorem allEqual?_comm (swap : ∀ v w, f v w = f w v) (vs ws : List Value) :
    allEqual? f vs ws = allEqual? f ws vs := by
  induction vs generalizing ws with
  | nil => cases ws <;> rfl
  | cons v vs ih =>
    cases ws with
    | nil => rfl
    | cons w ws => simp only [allEqual?, swap v w, ih ws]

theorem allEqual?_mono (more : ∀ v w b, f v w = some b → g v w = some b)
    (found : allEqual? f vs ws = some b) : allEqual? g vs ws = some b := by
  induction vs generalizing ws with
  | nil => cases ws <;> exact found
  | cons v vs ih =>
    cases ws with
    | nil => exact found
    | cons w ws =>
      cases first : f v w with
      | none => simp [allEqual?, first] at found
      | some c =>
        have same := more v w c first
        cases c with
        | true =>
          simp only [allEqual?, first, same] at found ⊢
          exact ih found
        | false =>
          simp only [allEqual?, first, same] at found ⊢
          exact found

end

section

variable {h : Heap} {depth : Nat} {u v w : Value} {b : Bool}

/-- What is no list is equal to itself only, but for decimals that denote one number. -/
theorem equal?_scalar (scalar : ∀ p, u ≠ .list p) : u.equal? h depth v = some true ↔
    u = v ∨ ∃ a b, u = .decimal a ∧ v = .decimal b ∧ a.compare b = .eq := by
  cases u with
  | list p => exact absurd rfl (scalar p)
  | decimal a =>
    cases v with
    | decimal b =>
      simp only [equal?, Option.some.injEq, beq_iff_eq, decimal.injEq]
      constructor
      · intro same
        exact .inr ⟨a, b, rfl, rfl, same⟩
      · rintro (rfl | ⟨_, _, rfl, rfl, same⟩)
        · exact Std.ReflCmp.compare_self
        · exact same
    | _ => simp [equal?]
  | _ => cases v <;> simp [equal?]

theorem equal?_self (h : Heap) (depth : Nat) (v : Value) : v.equal? h depth v = some true := by
  cases v with
  | list p => cases depth <;> simp [equal?]
  | _ => exact (equal?_scalar (by simp)).mpr (.inl rfl)

theorem equal?_lists (h : Heap) (depth p q : Nat) :
    (list p).equal? h (depth + 1) (list q) = if p = q then some true
      else allEqual? (equal? h depth) (h.elements p) (h.elements q) := by
  rw [equal?]

theorem equal?_scalar_comm (scalar : ∀ p, v ≠ .list p) (h : Heap) (depth : Nat) (w : Value) :
    v.equal? h depth w = w.equal? h depth v := by
  cases v with
  | list p => exact absurd rfl (scalar p)
  | decimal a =>
    cases w with
    | decimal b =>
      have swap : a.compare b = (b.compare a).swap := Std.OrientedCmp.eq_swap
      rw [equal?, equal?, swap]
      cases b.compare a <;> rfl
    | _ => simp [equal?]
  | _ => cases w <;> simp [equal?, Bool.beq_comm]

/-- The places of two lists are compared in the same way from both sides, and so are their
elements one layer down. -/
theorem equal?_comm (h : Heap) (depth : Nat) (v w : Value) :
    v.equal? h depth w = w.equal? h depth v := by
  induction depth generalizing v w with
  | zero =>
    cases v with
    | list p =>
      cases w with
      | list q => simp only [equal?, eq_comm]
      | _ => simp [equal?]
    | _ => exact equal?_scalar_comm (by simp) h _ w
  | succ depth ih =>
    cases v with
    | list p =>
      cases w with
      | list q => simp only [equal?_lists, allEqual?_comm ih (h.elements p), eq_comm]
      | _ => simp [equal?]
    | _ => exact equal?_scalar_comm (by simp) h _ w

theorem equal?_mono (found : v.equal? h depth w = some b) :
    v.equal? h (depth + 1) w = some b := by
  induction depth generalizing v w b with
  | zero =>
    cases v with
    | list p =>
      cases w with
      | list q =>
        by_cases same : p = q
        · simpa [equal?, same] using found
        · simp [equal?, same] at found
      | _ => simpa [equal?] using found
    | _ => cases w <;> simpa [equal?] using found
  | succ depth ih =>
    cases v with
    | list p =>
      cases w with
      | list q =>
        rw [equal?_lists] at found ⊢
        by_cases same : p = q
        · rwa [if_pos same] at found ⊢
        · rw [if_neg same] at found ⊢
          exact allEqual?_mono (fun _ _ _ => ih) found
      | _ => simpa [equal?] using found
    | _ => cases w <;> simpa [equal?] using found

theorem equal?_scalar_trans (scalar : ∀ p, u ≠ .list p) (first : u.equal? h depth v = some true)
    (second : v.equal? h depth w = some true) : u.equal? h depth w = some true := by
  rcases (equal?_scalar scalar).mp first with rfl | ⟨a, b, rfl, rfl, same⟩
  · exact second
  · rcases (equal?_scalar (by simp)).mp second with rfl | ⟨b, c, here, rfl, more⟩
    · exact first
    · cases here
      exact (equal?_scalar scalar).mpr
        (.inr ⟨a, c, rfl, rfl, (Std.TransCmp.congr_left same).trans more⟩)

/-- Lists are equal if they are one list, or if their elements are equal one layer down. -/
theorem equal?_list_iff {p : Nat} : (list p).equal? h depth v = some true ↔ ∃ q, v = list q ∧
    (p = q ∨ ∃ below, depth = below + 1 ∧
      List.Forall₂ (fun v w => v.equal? h below w = some true) (h.elements p) (h.elements q)) := by
  cases v with
  | list q =>
    by_cases same : p = q
    · cases depth <;> simp [equal?, same]
    · cases depth <;> simp [equal?, same, allEqual?_iff]
  | _ => simp [equal?]

theorem forall₂_trans {r : Value → Value → Prop} {us vs ws : List Value}
    (step : ∀ u v w, r u v → r v w → r u w) (first : List.Forall₂ r us vs)
    (second : List.Forall₂ r vs ws) : List.Forall₂ r us ws := by
  induction first generalizing ws with
  | nil => exact second
  | cons here others ih =>
    cases second with
    | cons next more => exact .cons (step _ _ _ here next) (ih more)

/-- Where the first and the last list are one, nothing is to be shown; else all three are compared
by their elements, or two of them are one. -/
theorem equal?_trans (first : u.equal? h depth v = some true)
    (second : v.equal? h depth w = some true) : u.equal? h depth w = some true := by
  induction depth using Nat.strongRecOn generalizing u v w with
  | ind depth ih =>
    cases u with
    | list p =>
      obtain ⟨q, rfl, here⟩ := equal?_list_iff.mp first
      obtain ⟨r, rfl, next⟩ := equal?_list_iff.mp second
      rcases here with rfl | ⟨below, rfl, here⟩
      · exact second
      rcases next with rfl | ⟨lower, same, next⟩
      · exact first
      · obtain rfl : lower = below := by omega
        have step : ∀ u v w : Value, u.equal? h lower v = some true →
            v.equal? h lower w = some true → u.equal? h lower w = some true :=
          fun u v w => ih lower (Nat.lt_succ_self lower)
        exact equal?_list_iff.mpr ⟨r, rfl, .inr ⟨lower, rfl, forall₂_trans step here next⟩⟩
    | _ => exact equal?_scalar_trans (by simp) first second

/-- At the depth of the heap there is an answer, so one layer more or less makes no difference. -/
theorem equal?_list_elements (acyclic : h.Acyclic) (closed : h.Closed) {p : Nat}
    (inside : p < h.size) (q : Nat) : (list p).equal? h h.size (list q) = some true ↔
      List.Forall₂ (fun v w => v.equal? h h.size w = some true) (h.elements p) (h.elements q) := by
  constructor
  · intro equal
    obtain ⟨_, ⟨⟩, here⟩ := equal?_list_iff.mp equal
    rcases here with rfl | ⟨below, size, elements⟩
    · exact List.forall₂_same.mpr fun v _ => equal?_self h h.size v
    · rw [size]
      exact elements.imp fun _ _ => equal?_mono
  · intro elements
    have deeper : (list p).equal? h (h.size + 1) (list q) = some true :=
      equal?_list_iff.mpr ⟨q, rfl, .inr ⟨h.size, rfl, elements⟩⟩
    have within : (list p).Within h h.size := within_of_has acyclic closed fun r same => by
      cases same
      exact inside
    obtain ⟨b, answer⟩ := equal_some h.size (list p) (list q) within
    rw [equal?_mono answer] at deeper
    rw [answer, deeper]

end

end Value

namespace Operation

variable {h : Heap} {v w : Value} {b : Bool}

theorem equal_eq_ok : equal h v w = .ok b ↔ v.equal? h h.size w = some b := by
  unfold equal
  cases v.equal? h h.size w <;> simp

/-- What the laws of an order are for the values on a heap, and what they are for its operators. -/
structure Coherent (h : Heap) : Prop where
  answers : ∀ v w, h.Has v → ∃ b, equal h v w = .ok b
  reflexive : ∀ v, equal h v v = .ok true
  symmetric : ∀ v w, equal h v w = equal h w v
  transitive : ∀ u v w, equal h u v = .ok true → equal h v w = .ok true → equal h u w = .ok true
  /-- Lists are equal if they have equal elements, in one place or in two. -/
  elements : ∀ p q, p < h.size → (equal h (.list p) (.list q) = .ok true ↔
    List.Forall₂ (fun v w => equal h v w = .ok true) (h.elements p) (h.elements q))
  ordered : ∀ v w : Value, (v.compare? w).isSome = true ↔ v.kind = w.kind ∧
    v.kind ∈ [.boolean, .character, .string, .integer, .decimal]
  antisymmetric : ∀ v w : Value, w.compare? v = (v.compare? w).map Ordering.swap
  /-- Two steps of which none goes down make one that goes up unless neither does. -/
  composed : ∀ (u v w : Value) (o p : Ordering), u.compare? v = some o → v.compare? w = some p →
    o.isLE = true → p.isLE = true → u.compare? w = some (o.then p)
  level : ∀ (v w : Value) (o : Ordering), v.compare? w = some o →
    (o = .eq ↔ equal h v w = .ok true)
  /-- However they are written, decimals are compared as numbers. -/
  numeric : ∀ a b : Decimal, Value.compare? (.decimal a) (.decimal b) =
    some (compare a.value b.value)
  /-- Where `<` has an answer, just one of `<`, `==` and `>` is TRUE, and `<=` is TRUE if `>` is
  not. -/
  trichotomy : ∀ (rule : DivisionScale) (v w r : Value), apply rule h .less v w = .ok r →
    ∃ less equal greater : Bool, r = .boolean less ∧
      apply rule h .equal v w = .ok (.boolean equal) ∧
      apply rule h .greater v w = .ok (.boolean greater) ∧
      apply rule h .lessEqual v w = .ok (.boolean !greater) ∧
      [less, equal, greater].count true = 1
  negated : ∀ (rule : DivisionScale) (v w : Value), h.Has v → ∃ b,
    apply rule h .equal v w = .ok (.boolean b) ∧ apply rule h .notEqual v w = .ok (.boolean !b)

/-- The three operators look at one order, and equality agrees with it. -/
theorem apply_of_compared {o : Ordering} (compared : Value.Compared v w o) (rule : DivisionScale) :
    apply rule h .less v w = .ok (.boolean o.isLT) ∧
      apply rule h .equal v w = .ok (.boolean (o == .eq)) ∧
      apply rule h .greater v w = .ok (.boolean o.isGT) ∧
      apply rule h .lessEqual v w = .ok (.boolean o.isLE) := by
  have order := Value.compare?_eq_some.mpr compared
  have same := equal_eq_ok.mpr (Value.equal?_of_compared compared h h.size)
  refine ⟨?_, ?_, ?_, ?_⟩
  · simp only [apply, comparison, order]
    rfl
  · simp only [apply, same]
    rfl
  · simp only [apply, comparison, order]
    rfl
  · simp only [apply, comparison, order]
    rfl

theorem compared_of_less {rule : DivisionScale} {r : Value}
    (answer : apply rule h .less v w = .ok r) : ∃ o, Value.Compared v w o := by
  cases order : v.compare? w with
  | some o => exact ⟨o, Value.compare?_eq_some.mp order⟩
  | none =>
    simp only [apply, comparison, order] at answer
    cases answer

theorem one_of_three (o : Ordering) :
    [o.isLT, o == .eq, o.isGT].count true = 1 ∧ o.isLE = !o.isGT := by
  cases o <;> decide

theorem apply_notEqual (found : equal h v w = .ok b) (rule : DivisionScale) :
    apply rule h .equal v w = .ok (.boolean b) ∧
      apply rule h .notEqual v w = .ok (.boolean !b) := by
  simp only [apply, found]
  exact ⟨rfl, rfl⟩

end Operation

open Operation

/-- On a heap where no list reaches itself, equality and order of all values agree with each other
and with the operators. -/
theorem coherent_of_acyclic (h : Heap) (acyclic : h.Acyclic) (closed : h.Closed) :
    Coherent h := by
  have answers : ∀ v w, h.Has v → ∃ b, equal h v w = .ok b := by
    intro v w has
    obtain ⟨b, found⟩ := Value.equal_some h.size v w (Value.within_of_has acyclic closed has)
    exact ⟨b, equal_eq_ok.mpr found⟩
  constructor
  case answers => exact answers
  case reflexive => exact fun v => equal_eq_ok.mpr (Value.equal?_self h h.size v)
  case symmetric =>
    intro v w
    rw [equal, equal, Value.equal?_comm]
  case transitive =>
    intro u v w first second
    exact equal_eq_ok.mpr (Value.equal?_trans (equal_eq_ok.mp first) (equal_eq_ok.mp second))
  case elements =>
    intro p q inside
    simp only [equal_eq_ok]
    exact Value.equal?_list_elements acyclic closed inside q
  case ordered => exact fun v w => Value.compare?_isSome
  case antisymmetric => exact Value.compare?_swap
  case composed =>
    intro u v w o p first second up more
    exact Value.compare?_eq_some.mpr (Value.compared_trans (Value.compare?_eq_some.mp first)
      (Value.compare?_eq_some.mp second) up more)
  case level =>
    intro v w o order
    rw [equal_eq_ok, Value.equal?_of_compared (Value.compare?_eq_some.mp order) h h.size]
    simp
  case numeric =>
    intro a b
    rw [Value.compare?, Decimal.compare_eq]
  case trichotomy =>
    intro rule v w r answer
    obtain ⟨o, compared⟩ := compared_of_less answer
    obtain ⟨less, same, greater, lessEqual⟩ := apply_of_compared compared rule
    obtain ⟨one, inclusive⟩ := one_of_three o
    rw [less] at answer
    cases answer
    rw [inclusive] at lessEqual
    exact ⟨_, _, _, rfl, same, greater, lessEqual, one⟩
  case negated =>
    intro rule v w has
    obtain ⟨b, found⟩ := answers v w has
    exact ⟨b, apply_notEqual found rule⟩

def Heap.ones : Heap := #[[.decimal ⟨10, 1⟩], [.decimal ⟨100, 2⟩], [.list 0], [.list 1]]

theorem Heap.ones_below {p q : Nat} (holds : Heap.ones.Holds p q) : q + 2 = p := by
  unfold Holds elements ones at holds
  rcases p with _ | _ | _ | _ | p <;> simp at holds
  · omega
  · omega

theorem coherent_of_acyclic_ones :
    Coherent Heap.ones ∧ equal Heap.ones (.list 2) (.list 3) = .ok true := by
  have acyclic : Heap.ones.Acyclic := by
    have below : ∀ p q, Relation.TransGen Heap.ones.Holds p q → q < p := by
      intro p q path
      induction path with
      | single holds =>
        have step := Heap.ones_below holds
        omega
      | tail _ holds ih =>
        have step := Heap.ones_below holds
        omega
    exact fun p cycle => Nat.lt_irrefl p (below p p cycle)
  have closed : Heap.ones.Closed := by
    rintro p _ element q rfl
    have step := Heap.ones_below element
    have size : Heap.ones.size = 4 := rfl
    have inside : p < 4 := by
      by_contra outside
      have none : Heap.ones.elements p = [] := by
        rw [Heap.elements, Array.getElem?_eq_none (by omega)]
        rfl
      rw [none] at element
      cases element
    omega
  constructor
  · exact coherent_of_acyclic Heap.ones acyclic closed
  · rfl

end Plc

import Plc.Proofs.Parts

/-!
How deep the work on a program goes when it has no loops. Each call costs what is said of its name
and its number of arguments; beside that, depth comes only from the nesting of the tree.
-/

namespace Plc

/-- What calls cost, by name and number of arguments. -/
abbrev Costs := String → Nat → Nat

mutual

def Expr.depth (cost : Costs) : Expr → Nat
  | .literal _ _ => 1
  | .group inner _ => inner.depth cost + 1
  | .binary _ left right _ => max (left.depth cost) (right.depth cost) + 2
  | .access _ _ _ => 1
  | .element _ index _ _ => index.depth cost + 1
  | .call name args _ _ => max (Expr.allDepth cost args) (cost name args.length) + 1
  | .list elements _ => Expr.allDepth cost elements + 1

def Expr.allDepth (cost : Costs) : List Expr → Nat
  | [] => 0
  | e :: es => max (e.depth cost) (Expr.allDepth cost es)

end

mutual

def Stmt.depth (cost : Costs) : Stmt → Nat
  | .expression e => e.depth cost + 1
  | .declaration _ _ value _ => (value.map (Expr.depth cost)).getD 0 + 1
  | .assignment receiver value => max (receiver.depth cost) (value.depth cost) + 2
  | .conditional c whenTrue whenFalse =>
    max (c.depth cost) (max (Stmt.allDepth cost whenTrue) (Stmt.allDepth cost whenFalse)) + 2
  | .switch c arms => max (c.depth cost) (Case.allDepth cost arms) + 1
  | .loop c body => max (c.depth cost) (Stmt.allDepth cost body) + 2
  | .return e => e.depth cost + 1

def Stmt.allDepth (cost : Costs) : List Stmt → Nat
  | [] => 0
  | s :: ss => max (s.depth cost) (Stmt.allDepth cost ss)

def Case.depth (cost : Costs) : Case → Nat
  | .arm value body => max ((value.map (Expr.depth cost)).getD 0) (Stmt.allDepth cost body)

def Case.allDepth (cost : Costs) : List Case → Nat
  | [] => 0
  | c :: cs => max (c.depth cost) (Case.allDepth cost cs)

end

def Expr.Calls (e : Expr) (name : String) (arity : Nat) : Prop :=
  ∃ args signature slot, e = .call name args signature slot ∧ args.length = arity

instance (name : String) (arity : Nat) : (e : Expr) → Decidable (e.Calls name arity)
  | .call other args _ _ => decidable_of_iff (other = name ∧ args.length = arity)
    ⟨fun ⟨same, many⟩ => ⟨args, _, _, congrArg (Expr.call · args _ _) same, many⟩,
      fun ⟨_, _, _, is, many⟩ => by
        cases is
        exact ⟨rfl, many⟩⟩
  | .literal .. | .group .. | .binary .. | .access .. | .element .. | .list .. => .isFalse nofun

def Stmt.IsLoop : Stmt → Prop
  | .loop _ _ => True
  | _ => False

instance : (s : Stmt) → Decidable s.IsLoop
  | .loop _ _ => .isTrue trivial
  | .expression .. | .declaration .. | .assignment .. | .conditional .. | .switch .. | .return .. =>
    .isFalse id

def Expr.Within (cost : Costs) (bound : Nat) (es : List Expr) : Prop :=
  ∀ e ∈ es, ∀ x ∈ e.parts, ∀ name arity, x.Calls name arity → cost name arity ≤ bound

section

variable {cost : Costs}

theorem Expr.depth_pos (e : Expr) : 0 < e.depth cost := by
  cases e <;> simp [Expr.depth]

theorem Stmt.depth_pos (s : Stmt) : 0 < s.depth cost := by
  cases s <;> simp [Stmt.depth]

/-- A maximum over a list is one over its members. -/
theorem le_of_maximum {α : Type} {f : α → Nat} {all : List α → Nat}
    (cons : ∀ a as, all (a :: as) = max (f a) (all as)) {a : α} {as : List α} (member : a ∈ as) :
    f a ≤ all as := by
  induction as with
  | nil => cases member
  | cons b as ih =>
    rw [cons]
    rcases List.mem_cons.mp member with rfl | later
    · exact Nat.le_max_left _ _
    · exact Nat.le_trans (ih later) (Nat.le_max_right _ _)

theorem Expr.depth_le_all {e : Expr} {es : List Expr} (member : e ∈ es) :
    e.depth cost ≤ Expr.allDepth cost es := le_of_maximum (fun _ _ => rfl) member

theorem Stmt.depth_le_all {s : Stmt} {ss : List Stmt} (member : s ∈ ss) :
    s.depth cost ≤ Stmt.allDepth cost ss := le_of_maximum (fun _ _ => rfl) member

theorem Case.depth_le_all {c : Case} {cs : List Case} (member : c ∈ cs) :
    c.depth cost ≤ Case.allDepth cost cs := le_of_maximum (fun _ _ => rfl) member

theorem Stmt.allDepth_le_of {ss : List Stmt} {bound : Nat} (each : ∀ s ∈ ss, s.depth cost ≤ bound) :
    Stmt.allDepth cost ss ≤ bound := by
  induction ss with
  | nil => exact Nat.zero_le _
  | cons s ss ih =>
    rw [Stmt.allDepth]
    exact Nat.max_le.mpr ⟨each s List.mem_cons_self, ih fun t member =>
      each t (List.mem_cons_of_mem s member)⟩

theorem Case.body_depth {c : Case} {cs : List Case} (member : c ∈ cs) :
    Stmt.allDepth cost c.body ≤ Case.allDepth cost cs := by
  refine Nat.le_trans ?_ (Case.depth_le_all member)
  obtain ⟨value, body⟩ := c
  rw [Case.depth]
  exact Nat.le_max_right _ _

theorem Case.value_depth {c : Case} {cs : List Case} {e : Expr} (member : c ∈ cs)
    (value : c.value = some e) : e.depth cost ≤ Case.allDepth cost cs := by
  refine Nat.le_trans ?_ (Case.depth_le_all member)
  obtain ⟨_, body⟩ := c
  obtain rfl : _ = some e := value
  rw [Case.depth]
  exact Nat.le_max_left _ _

end

def free : Costs := fun _ _ => 0

section

variable {cost : Costs} {bound : Nat}

mutual

/-- Calls that are not free add at most what the dearest of them costs. -/
theorem Expr.depth_le (e : Expr) (within : Expr.Within cost bound [e]) :
    e.depth cost ≤ e.depth free + bound := by
  have each : ∀ x ∈ e.parts, ∀ name arity, x.Calls name arity → cost name arity ≤ bound :=
    within e List.mem_cons_self
  have sub : ∀ d : Expr, d.parts ⊆ e.parts → Expr.Within cost bound [d] := by
    intro d part c member x inside
    obtain rfl := List.mem_singleton.mp member
    exact each x (part inside)
  cases e with
  | literal value slot => exact Nat.le_add_right _ _
  | group inner slot =>
    have first := Expr.depth_le inner (sub inner Expr.parts_group)
    simp only [Expr.depth]
    omega
  | binary op left right slot =>
    have first := Expr.depth_le left (sub left Expr.parts_left)
    have second := Expr.depth_le right (sub right Expr.parts_right)
    simp only [Expr.depth]
    omega
  | access name record slot => exact Nat.le_add_right _ _
  | element name index record slot =>
    have first := Expr.depth_le index (sub index Expr.parts_index)
    simp only [Expr.depth]
    omega
  | call name args signature slot =>
    have own := each _ (Expr.mem_parts _) name args.length ⟨args, signature, slot, rfl, rfl⟩
    have inner := Expr.allDepth_le args fun d member =>
      sub d (Expr.parts_argument member) d List.mem_cons_self
    simp only [Expr.depth]
    omega
  | list elements slot =>
    have inner := Expr.allDepth_le elements fun d member =>
      sub d (Expr.parts_element member) d List.mem_cons_self
    simp only [Expr.depth]
    omega

theorem Expr.allDepth_le (es : List Expr) (within : Expr.Within cost bound es) :
    Expr.allDepth cost es ≤ Expr.allDepth free es + bound := by
  cases es with
  | nil => exact Nat.zero_le _
  | cons e es =>
    have first := Expr.depth_le e fun d member =>
      within d (List.mem_singleton.mp member ▸ List.mem_cons_self)
    have rest := Expr.allDepth_le es fun d member => within d (List.mem_cons_of_mem e member)
    simp only [Expr.allDepth]
    omega

end

def Stmt.Within (cost : Costs) (bound : Nat) (ss : List Stmt) : Prop :=
  ∀ s ∈ ss, Expr.Within cost bound s.own

theorem Expr.depth_le_own {s : Stmt} (within : Expr.Within cost bound s.own) {e : Expr}
    (own : e ∈ s.own) : e.depth cost ≤ e.depth free + bound := by
  refine Expr.depth_le e fun d member => ?_
  obtain rfl := List.mem_singleton.mp member
  exact within d own

mutual

theorem Stmt.depth_le (s : Stmt) (within : Stmt.Within cost bound s.parts) :
    s.depth cost ≤ s.depth free + bound := by
  have own : ∀ e ∈ s.own, e.depth cost ≤ e.depth free + bound := fun e =>
    Expr.depth_le_own (within s s.mem_parts)
  cases s with
  | expression e =>
    have value := own e List.mem_cons_self
    simp only [Stmt.depth]
    omega
  | declaration name typeName value record =>
    cases value with
    | none => exact Nat.le_add_right _ _
    | some e =>
      have value := own e List.mem_cons_self
      simp only [Stmt.depth, Option.map_some, Option.getD_some]
      omega
  | assignment receiver value =>
    have first := own receiver List.mem_cons_self
    have second := own value (List.mem_cons_of_mem _ List.mem_cons_self)
    simp only [Stmt.depth]
    omega
  | conditional c whenTrue whenFalse =>
    have condition := own c List.mem_cons_self
    have first := Stmt.allDepth_le whenTrue fun t member => within t (Stmt.parts_whenTrue member)
    have second := Stmt.allDepth_le whenFalse fun t member => within t (Stmt.parts_whenFalse member)
    simp only [Stmt.depth]
    omega
  | switch c arms =>
    have condition := own c List.mem_cons_self
    have values : ∀ e ∈ arms.filterMap Case.value, e.depth cost ≤ e.depth free + bound :=
      fun e member => own e (List.mem_cons_of_mem c member)
    have inner := Case.allDepth_le arms values fun t member =>
      within t (List.mem_cons_of_mem _ member)
    simp only [Stmt.depth]
    omega
  | loop c body =>
    have condition := own c List.mem_cons_self
    have inner := Stmt.allDepth_le body fun t member => within t (Stmt.parts_loop member)
    simp only [Stmt.depth]
    omega
  | «return» e =>
    have value := own e List.mem_cons_self
    simp only [Stmt.depth]
    omega

theorem Stmt.allDepth_le (ss : List Stmt) (within : Stmt.Within cost bound (Stmt.allParts ss)) :
    Stmt.allDepth cost ss ≤ Stmt.allDepth free ss + bound := by
  cases ss with
  | nil => exact Nat.zero_le _
  | cons s ss =>
    have first := Stmt.depth_le s fun t member => within t (Stmt.parts_head member)
    have rest := Stmt.allDepth_le ss fun t member => within t (Stmt.parts_tail member)
    simp only [Stmt.allDepth]
    omega

theorem Case.allDepth_le (cs : List Case)
    (values : ∀ e ∈ cs.filterMap Case.value, e.depth cost ≤ e.depth free + bound)
    (within : Stmt.Within cost bound (Case.allParts cs)) :
    Case.allDepth cost cs ≤ Case.allDepth free cs + bound := by
  match cs with
  | [] => exact Nat.zero_le _
  | .arm value body :: others =>
    have inner := Stmt.allDepth_le body fun t member => within t (List.mem_append_left _ member)
    have rest := Case.allDepth_le others
      (fun e member => values e (by cases value <;> simp_all [List.filterMap_cons, Case.value]))
      fun t member => within t (List.mem_append_right _ member)
    cases value with
    | none =>
      simp only [Case.allDepth, Case.depth, Option.map_none, Option.getD_none]
      omega
    | some e =>
      have first := values e List.mem_cons_self
      simp only [Case.allDepth, Case.depth, Option.map_some, Option.getD_some]
      omega

end

end

end Plc

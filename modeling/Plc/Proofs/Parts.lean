import Plc.Evaluation

/-!
The expressions and the statements that a program is made of, at any depth.
-/

namespace Plc

mutual

def Expr.parts : Expr → List Expr
  | .literal value ty => [.literal value ty]
  | .group inner ty => .group inner ty :: inner.parts
  | .binary op left right ty => .binary op left right ty :: (left.parts ++ right.parts)
  | .access name record ty => [.access name record ty]
  | .element name index record ty => .element name index record ty :: index.parts
  | .call name args signature ty => .call name args signature ty :: Expr.allParts args
  | .list elements ty => .list elements ty :: Expr.allParts elements

def Expr.allParts : List Expr → List Expr
  | [] => []
  | e :: es => e.parts ++ Expr.allParts es

end

theorem Expr.mem_parts (e : Expr) : e ∈ e.parts := by
  cases e <;> simp [Expr.parts]

theorem Expr.mem_allParts {es : List Expr} {x : Expr} :
    x ∈ Expr.allParts es ↔ ∃ e ∈ es, x ∈ e.parts := by
  induction es with
  | nil => simp [Expr.allParts]
  | cons e es ih => simp [Expr.allParts, ih]

/-- The expressions that stand in a statement itself. -/
def Stmt.own : Stmt → List Expr
  | .expression e => [e]
  | .declaration _ _ value _ => value.toList
  | .assignment receiver value => [receiver, value]
  | .conditional c _ _ => [c]
  | .switch c arms => c :: arms.filterMap Case.value
  | .loop c _ => [c]
  | .return e => [e]

def Stmt.IsReturn : Stmt → Prop
  | .return _ => True
  | _ => False

mutual

def Stmt.parts : Stmt → List Stmt
  | .expression e => [.expression e]
  | .declaration name typeName value record => [.declaration name typeName value record]
  | .assignment receiver value => [.assignment receiver value]
  | .conditional c whenTrue whenFalse =>
    .conditional c whenTrue whenFalse :: (Stmt.allParts whenTrue ++ Stmt.allParts whenFalse)
  | .switch c arms => .switch c arms :: Case.allParts arms
  | .loop c body => .loop c body :: Stmt.allParts body
  | .return e => [.return e]

def Stmt.allParts : List Stmt → List Stmt
  | [] => []
  | s :: ss => s.parts ++ Stmt.allParts ss

def Case.parts : Case → List Stmt
  | .arm _ body => Stmt.allParts body

def Case.allParts : List Case → List Stmt
  | [] => []
  | c :: cs => c.parts ++ Case.allParts cs

end

theorem Stmt.mem_parts (s : Stmt) : s ∈ s.parts := by
  cases s <;> simp [Stmt.parts]

theorem Stmt.mem_allParts {ss : List Stmt} {x : Stmt} :
    x ∈ Stmt.allParts ss ↔ ∃ s ∈ ss, x ∈ s.parts := by
  induction ss with
  | nil => simp [Stmt.allParts]
  | cons s ss ih => simp [Stmt.allParts, ih]

theorem Case.mem_allParts {cs : List Case} {x : Stmt} :
    x ∈ Case.allParts cs ↔ ∃ c ∈ cs, x ∈ Stmt.allParts c.body := by
  induction cs with
  | nil => simp [Case.allParts]
  | cons c cs ih =>
    obtain ⟨value, body⟩ := c
    simp [Case.allParts, Case.parts, Case.body, ih]

namespace Expr

variable {op : Operator} {inner left right index : Expr} {name : String} {es : List Expr}
  {record : Option Variable} {signature : Option Signature} {slot : Option Ty}

theorem parts_group : inner.parts ⊆ (group inner slot).parts := List.subset_cons_self _ _

theorem parts_left : left.parts ⊆ (binary op left right slot).parts :=
  List.subset_cons_of_subset _ (List.subset_append_left _ _)

theorem parts_right : right.parts ⊆ (binary op left right slot).parts :=
  List.subset_cons_of_subset _ (List.subset_append_right _ _)

theorem parts_index : index.parts ⊆ (element name index record slot).parts :=
  List.subset_cons_self _ _

theorem parts_argument {e : Expr} (member : e ∈ es) :
    e.parts ⊆ (call name es signature slot).parts := fun _ inside =>
  List.mem_cons_of_mem _ (mem_allParts.mpr ⟨e, member, inside⟩)

theorem parts_element {e : Expr} (member : e ∈ es) : e.parts ⊆ (list es slot).parts :=
  fun _ inside => List.mem_cons_of_mem _ (mem_allParts.mpr ⟨e, member, inside⟩)

end Expr

namespace Stmt

variable {c : Expr} {s : Stmt} {ss whenTrue whenFalse : List Stmt} {arms : List Case}

theorem parts_head : s.parts ⊆ allParts (s :: ss) := List.subset_append_left _ _

theorem parts_tail : allParts ss ⊆ allParts (s :: ss) := List.subset_append_right _ _

theorem parts_whenTrue : allParts whenTrue ⊆ (conditional c whenTrue whenFalse).parts :=
  List.subset_cons_of_subset _ (List.subset_append_left _ _)

theorem parts_whenFalse : allParts whenFalse ⊆ (conditional c whenTrue whenFalse).parts :=
  List.subset_cons_of_subset _ (List.subset_append_right _ _)

theorem parts_loop : allParts ss ⊆ (loop c ss).parts := List.subset_cons_self _ _

theorem parts_arm {arm : Case} (member : arm ∈ arms) : allParts arm.body ⊆ (switch c arms).parts :=
  fun _ inside => List.mem_cons_of_mem _ (Case.mem_allParts.mpr ⟨arm, member, inside⟩)

theorem own_value {arm : Case} {e : Expr} (member : arm ∈ arms) (value : arm.value = some e) :
    e ∈ (switch c arms).own :=
  List.mem_cons_of_mem _ (List.mem_filterMap.mpr ⟨arm, member, value⟩)

end Stmt

namespace Eval

variable {arms : List Case} {body : List Stmt}

theorem mem_of_defaultBody (found : defaultBody arms = some body) :
    ∃ arm ∈ arms, arm.body = body := by
  obtain ⟨arm, is, rfl⟩ := Option.map_eq_some_iff.mp found
  exact ⟨arm, List.mem_of_find?_eq_some is, rfl⟩

/-- What a switch runs is the body of one of its arms, when what matches is. -/
theorem mem_of_chosen {found : Option (List Stmt)}
    (among : ∀ body, found = some body → ∃ arm ∈ arms, arm.body = body)
    (chosen : (found <|> defaultBody arms) = some body) : ∃ arm ∈ arms, arm.body = body := by
  cases found with
  | some own =>
    cases chosen
    exact among _ rfl
  | none => exact mem_of_defaultBody chosen

end Eval

def Program.statements (p : Program) : List Stmt :=
  p.functions.flatMap fun f => Stmt.allParts f.body

def Program.expressions (p : Program) : List Expr :=
  (p.globals.filterMap Global.value ++ p.statements.flatMap Stmt.own).flatMap Expr.parts

theorem Program.mem_of_global {p : Program} {g : Global} {v x : Expr} (member : g ∈ p.globals)
    (value : g.value = some v) (inside : x ∈ v.parts) : x ∈ p.expressions := by
  refine List.mem_flatMap.mpr ⟨v, List.mem_append_left _ ?_, inside⟩
  exact List.mem_filterMap.mpr ⟨g, member, value⟩

theorem Program.mem_of_body {p : Program} {f : Function} {s : Stmt} {e x : Expr}
    (member : f ∈ p.functions) (part : s ∈ Stmt.allParts f.body) (own : e ∈ s.own)
    (inside : x ∈ e.parts) : x ∈ p.expressions := by
  refine List.mem_flatMap.mpr ⟨e, List.mem_append_right _ ?_, inside⟩
  exact List.mem_flatMap.mpr ⟨s, List.mem_flatMap.mpr ⟨f, member, part⟩, own⟩

end Plc

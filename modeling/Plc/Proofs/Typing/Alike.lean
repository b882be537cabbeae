import Plc.Program.Erase

/-!
Trees that differ in their slots only: one that erases to the shape of another has that shape
itself, and its parts erase to the same parts.
-/

namespace Plc

section

variable {f e : Expr}

theorem erase_literal {l : Literal} (alike : f.erase = .literal l none) :
    ∃ slot, f = .literal l slot := by
  cases f <;> simp_all [Expr.erase]

theorem erase_group (alike : f.erase = .group e none) :
    ∃ g slot, f = .group g slot ∧ g.erase = e := by
  cases f <;> simp_all [Expr.erase]

theorem erase_binary {op : Operator} {left right : Expr}
    (alike : f.erase = .binary op left right none) :
    ∃ l r slot, f = .binary op l r slot ∧ l.erase = left ∧ r.erase = right := by
  cases f with
  | binary other l r slot =>
    simp only [Expr.erase, Expr.binary.injEq, and_true] at alike
    obtain ⟨rfl, first, second⟩ := alike
    exact ⟨l, r, slot, rfl, first, second⟩
  | _ => simp [Expr.erase] at alike

theorem erase_access {name : String} (alike : f.erase = .access name none none) :
    ∃ record slot, f = .access name record slot := by
  cases f <;> simp_all [Expr.erase]

theorem erase_element {name : String} (alike : f.erase = .element name e none none) :
    ∃ g record slot, f = .element name g record slot ∧ g.erase = e := by
  cases f <;> simp_all [Expr.erase]

theorem erase_call {name : String} {es : List Expr} (alike : f.erase = .call name es none none) :
    ∃ fs signature slot, f = .call name fs signature slot ∧ Expr.eraseAll fs = es := by
  cases f <;> simp_all [Expr.erase]

theorem erase_list {es : List Expr} (alike : f.erase = .list es none) :
    ∃ fs slot, f = .list fs slot ∧ Expr.eraseAll fs = es := by
  cases f <;> simp_all [Expr.erase]

theorem eraseAll_nil {fs : List Expr} (alike : Expr.eraseAll fs = []) : fs = [] := by
  cases fs <;> simp_all [Expr.eraseAll]

theorem eraseAll_cons {fs es : List Expr} (alike : Expr.eraseAll fs = e :: es) :
    ∃ g gs, fs = g :: gs ∧ g.erase = e ∧ Expr.eraseAll gs = es := by
  cases fs with
  | nil => simp [Expr.eraseAll] at alike
  | cons g gs =>
    simp only [Expr.eraseAll, List.cons.injEq] at alike
    exact ⟨g, gs, rfl, alike⟩

theorem length_of_eraseAll {fs es : List Expr} (alike : Expr.eraseAll fs = Expr.eraseAll es) :
    fs.length = es.length := by
  induction es generalizing fs with
  | nil =>
    rw [eraseAll_nil alike]
  | cons e es ih =>
    obtain ⟨g, gs, rfl, -, rest⟩ := eraseAll_cons alike
    rw [List.length_cons, List.length_cons, ih rest]

end

section

variable {f s : Stmt}

theorem erase_expression {e : Expr} (alike : f.erase = .expression e) :
    ∃ g, f = .expression g ∧ g.erase = e := by
  cases f <;> simp_all [Stmt.erase]

theorem erase_declaration {name : String} {typeName : Option String} {value : Option Expr}
    (alike : f.erase = .declaration name typeName value none) :
    ∃ given record, f = .declaration name typeName given record ∧
      given.map Expr.erase = value := by
  cases f <;> simp_all [Stmt.erase]

theorem erase_assignment {receiver value : Expr} (alike : f.erase = .assignment receiver value) :
    ∃ r v, f = .assignment r v ∧ r.erase = receiver ∧ v.erase = value := by
  cases f with
  | assignment r v =>
    simp only [Stmt.erase, Stmt.assignment.injEq] at alike
    exact ⟨r, v, rfl, alike⟩
  | _ => simp [Stmt.erase] at alike

theorem erase_conditional {c : Expr} {whenTrue whenFalse : List Stmt}
    (alike : f.erase = .conditional c whenTrue whenFalse) :
    ∃ g yes no, f = .conditional g yes no ∧ g.erase = c ∧ Stmt.eraseAll yes = whenTrue ∧
      Stmt.eraseAll no = whenFalse := by
  cases f with
  | conditional g yes no =>
    simp only [Stmt.erase, Stmt.conditional.injEq] at alike
    exact ⟨g, yes, no, rfl, alike⟩
  | _ => simp [Stmt.erase] at alike

theorem erase_switch {c : Expr} {arms : List Case} (alike : f.erase = .switch c arms) :
    ∃ g cs, f = .switch g cs ∧ g.erase = c ∧ Case.eraseAll cs = arms := by
  cases f with
  | switch g cs =>
    simp only [Stmt.erase, Stmt.switch.injEq] at alike
    exact ⟨g, cs, rfl, alike⟩
  | _ => simp [Stmt.erase] at alike

theorem erase_loop {c : Expr} {body : List Stmt} (alike : f.erase = .loop c body) :
    ∃ g ss, f = .loop g ss ∧ g.erase = c ∧ Stmt.eraseAll ss = body := by
  cases f with
  | loop g ss =>
    simp only [Stmt.erase, Stmt.loop.injEq] at alike
    exact ⟨g, ss, rfl, alike⟩
  | _ => simp [Stmt.erase] at alike

theorem erase_return {e : Expr} (alike : f.erase = .return e) :
    ∃ g, f = .return g ∧ g.erase = e := by
  cases f <;> simp_all [Stmt.erase]

theorem eraseBlock_nil {fs : List Stmt} (alike : Stmt.eraseAll fs = []) : fs = [] := by
  cases fs <;> simp_all [Stmt.eraseAll]

theorem eraseBlock_cons {fs ss : List Stmt} (alike : Stmt.eraseAll fs = s :: ss) :
    ∃ g gs, fs = g :: gs ∧ g.erase = s ∧ Stmt.eraseAll gs = ss := by
  cases fs with
  | nil => simp [Stmt.eraseAll] at alike
  | cons g gs =>
    simp only [Stmt.eraseAll, List.cons.injEq] at alike
    exact ⟨g, gs, rfl, alike⟩

theorem eraseArms_nil {fs : List Case} (alike : Case.eraseAll fs = []) : fs = [] := by
  cases fs <;> simp_all [Case.eraseAll]

theorem eraseArms_cons {fs cs : List Case} {value : Option Expr} {body : List Stmt}
    (alike : Case.eraseAll fs = .arm value body :: cs) :
    ∃ key ss gs, fs = .arm key ss :: gs ∧ key.map Expr.erase = value ∧
      Stmt.eraseAll ss = body ∧ Case.eraseAll gs = cs := by
  cases fs with
  | nil => simp [Case.eraseAll] at alike
  | cons f fs =>
    obtain ⟨key, ss⟩ := f
    simp only [Case.eraseAll, Case.erase, List.cons.injEq, Case.arm.injEq] at alike
    exact ⟨key, ss, fs, rfl, alike.1.1, alike.1.2, alike.2⟩

end

end Plc

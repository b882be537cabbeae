import Plc.Cursor

/-!
The steps of a cursor as equations: from the list and the place to the outcome.
-/

namespace Plc.Cursor

variable {τ ε α β : Type} {all : List τ} {pos : Nat}

theorem bind_apply (m : Cursor τ ε α) (f : α → Cursor τ ε β) (all : List τ) (pos : Nat) :
    (m >>= f) all pos = match m all pos with
      | some (.ok (a, next)) => f a all next
      | some (.error stop) => some (.error stop)
      | none => none := by
  simp only [bind, ReaderT.bind, StateT.bind, ExceptT.bind, ExceptT.mk]
  rcases m all pos with _ | _ | _ <;> rfl

theorem bind_of_ok {m : Cursor τ ε α} {a : α} {next : Nat}
    (first : m all pos = some (.ok (a, next))) (f : α → Cursor τ ε β) :
    (m >>= f) all pos = f a all next := by
  rw [bind_apply, first]

theorem bind_of_error {m : Cursor τ ε α} {stop : Stop ε}
    (first : m all pos = some (.error stop)) (f : α → Cursor τ ε β) :
    (m >>= f) all pos = some (.error stop) := by
  rw [bind_apply, first]

@[simp] theorem pure_apply (a : α) : (pure a : Cursor τ ε α) all pos = some (.ok (a, pos)) := rfl

@[simp] theorem place_apply : (place : Cursor τ ε Nat) all pos = some (.ok (pos, pos)) := rfl

@[simp] theorem atEnd_apply :
    (atEnd : Cursor τ ε Bool) all pos = some (.ok (decide (all.length ≤ pos), pos)) := rfl

/-- Where there is an entry the place is inside, and behind it are the others. -/
theorem of_drop_eq_cons {x : τ} {xs : List τ} (rest : all.drop pos = x :: xs) :
    all[pos]? = some x ∧ all.drop (pos + 1) = xs ∧ pos < all.length := by
  have here : all[pos]? = some x := by rw [← List.head?_drop, rest, List.head?_cons]
  refine ⟨here, ?_, (List.getElem?_eq_some_iff.mp here).1⟩
  rw [← List.drop_drop, rest, List.drop_one, List.tail_cons]

theorem drop_of_append {xs ys : List τ} (rest : all.drop pos = xs ++ ys) :
    all.drop (pos + xs.length) = ys := by
  rw [← List.drop_drop, rest, List.drop_left]

theorem entry_apply {x : τ} (here : all[pos]? = some x) :
    (entry : Cursor τ ε τ) all pos = some (.ok (x, pos)) := by
  have whole : (read : Cursor τ ε (List τ)) all pos = some (.ok (all, pos)) := rfl
  rw [entry, bind_of_ok place_apply, bind_of_ok whole, here]
  rfl

/-- An entry that is there can be taken. -/
theorem advance_apply {x : τ} {xs : List τ} (rest : all.drop pos = x :: xs) :
    (advance : Cursor τ ε τ) all pos = some (.ok (x, pos + 1)) := by
  rw [advance, bind_of_ok (entry_apply (of_drop_eq_cons rest).1)]
  rfl

theorem since_apply {start : Nat} (before : start ≤ pos) (inside : pos ≤ all.length) :
    (since start : Cursor τ ε (List τ)) all pos =
      some (.ok ((all.take pos).drop start, pos)) := by
  show (if start ≤ pos && pos ≤ all.length then pure ((all.take pos).drop start)
    else throw (.outside pos) : Cursor τ ε (List τ)) all pos = _
  rw [if_pos (by simp [before, inside])]
  rfl

end Plc.Cursor

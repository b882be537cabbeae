import Plc.Proofs.Lines

/-!
Positions of all offsets of a text. With every character the position moves on in reading order, so
that no two offsets have the same one; a character that belongs to no line break stands in the lines
where its position says; and below the last line there is only the end of a text that ends in a
break, or that is empty.
-/

namespace Plc

variable {c : Char} {cs line : List Char} {p q r : Position} {i j : Nat}

namespace Position

def Before (p q : Position) : Prop := p.line < q.line ∨ p.line = q.line ∧ p.column < q.column

theorem before_trans (first : p.Before q) (second : q.Before r) : p.Before r := by
  unfold Before at *
  omega

theorem before_irrefl (p : Position) : ¬ p.Before p := by
  unfold Before
  omega

theorem line_of_before (before : p.Before q) : p.line ≤ q.line := by
  unfold Before at before
  omega

theorem before_after (p : Position) (c : Char) (next : Option Char) :
    p.Before (p.after c next) := by
  unfold after
  split
  · exact .inl (Nat.lt_succ_self _)
  · exact .inr ⟨rfl, Nat.lt_succ_self _⟩

theorem locateFrom_zero (p : Position) (cs : List Char) : p.locateFrom cs 0 = p := by
  cases cs <;> rfl

theorem locateFrom_succ (found : cs[i]? = some c) :
    p.locateFrom cs (i + 1) = (p.locateFrom cs i).after c cs[i + 1]? := by
  induction cs generalizing p i with
  | nil => cases found
  | cons d cs ih =>
    cases i with
    | zero =>
      cases found
      rw [locateFrom, locateFrom_zero, locateFrom_zero, List.getElem?_cons_succ,
        List.head?_eq_getElem?]
    | succ i => exact ih found

/-- Past the end there is only the end. -/
theorem locateFrom_past (past : cs.length ≤ i) :
    p.locateFrom cs i = p.locateFrom cs cs.length := by
  induction cs generalizing p i with
  | nil => cases i <;> rfl
  | cons d cs ih =>
    cases i with
    | zero => simp at past
    | succ i => exact ih (Nat.le_of_succ_le_succ past)

theorem before_next (inside : i < cs.length) : (locate cs i).Before (locate cs (i + 1)) := by
  rw [locate, locate, locateFrom_succ (List.getElem?_eq_getElem inside)]
  exact before_after _ _ _

theorem locate_before (less : i < j) (inside : j ≤ cs.length) :
    (locate cs i).Before (locate cs j) := by
  induction less with
  | refl => exact before_next inside
  | step _ ih => exact before_trans (ih (Nat.le_of_succ_le inside)) (before_next inside)

theorem line_mono (less : i ≤ j) (inside : j ≤ cs.length) :
    (locate cs i).line ≤ (locate cs j).line := by
  rcases Nat.lt_or_eq_of_le less with less | rfl
  · exact line_of_before (locate_before less inside)
  · exact Nat.le_refl _

theorem locate_inj (insideI : i ≤ cs.length) (insideJ : j ≤ cs.length)
    (same : locate cs i = locate cs j) : i = j := by
  rcases Nat.lt_trichotomy i j with less | rfl | more
  · exact absurd (same ▸ locate_before less insideJ) (before_irrefl _)
  · rfl
  · exact absurd (same ▸ locate_before more insideI) (before_irrefl _)

end Position

open Position

def Ended (cs : List Char) : Prop := ∀ c ∈ cs.getLast?, isLineBreak c = true

theorem ended_tail (ended : Ended (c :: cs)) : Ended cs := by
  intro d last
  refine ended d ?_
  rw [Option.mem_def] at last ⊢
  rw [List.getLast?_cons, last]
  rfl

theorem single_of_apart (apart : ∀ more, c = '\r' → cs = '\n' :: more → False) :
    ¬ Joined c cs.head? := by
  rintro ⟨back, feed⟩
  obtain ⟨more, split⟩ := List.head?_eq_some_iff.mp feed
  exact apart more back split

/-- Behind the last break the position is that of a line that is not there. -/
theorem locateFrom_ended (ended : Ended cs) (begun : cs = [] → line = [])
    (column : p.column = line.length + 1) :
    p.locateFrom cs cs.length = ⟨p.line + (linesFrom line cs).length, 1⟩ := by
  fun_induction linesFrom line cs generalizing p with
  | case1 line none =>
    obtain ⟨number, _⟩ := p
    obtain rfl := begun rfl
    obtain rfl := column
    rfl
  | case2 line some => exact absurd (begun rfl) (by simpa using some)
  | case3 line cs ih =>
    have first : ('\r' :: '\n' :: cs).length = cs.length + 2 := rfl
    rw [first, locateFrom, locateFrom, after_break rfl (by simp [Joined])]
    rw [ih (ended_tail (ended_tail ended)) (fun _ => rfl) rfl, List.length_cons, Nat.add_assoc,
      Nat.add_comm 1]
    rfl
  | case4 line c cs apart breaks ih =>
    rw [List.length_cons, locateFrom, after_break breaks (single_of_apart apart)]
    rw [ih (ended_tail ended) (fun _ => rfl) rfl, List.length_cons, Nat.add_assoc, Nat.add_comm 1]
  | case5 line c cs apart plain ih =>
    have plain : isLineBreak c = false := Bool.eq_false_iff.mpr plain
    have further : cs ≠ [] := by
      rintro rfl
      rw [ended c rfl] at plain
      cases plain
    rw [List.length_cons, locateFrom, after_plain plain]
    exact ih (ended_tail ended) (fun none => absurd none further) (by simp [column])

/-- In a text that does not end in a break the position of the end is in the last line. -/
theorem line_of_unended (unended : ¬ Ended cs) :
    (locate cs cs.length).line ≤ (linesOf cs).length := by
  have filled : cs ≠ [] := by
    rintro rfl
    exact unended (by simp [Ended])
  have held : ∀ c ∈ cs.getLast?, isLineBreak c = false := by
    intro c last
    refine Bool.eq_false_iff.mpr fun breaks => unended fun d last' => ?_
    rwa [← Option.some.inj (last.symm.trans last')]
  have reached : Reached cs [] [] := ⟨by simp, fun none => absurd none filled, fun _ => held⟩
  obtain ⟨k, start, text, position⟩ := situated cs [] [] ⟨1, 1⟩ rfl reached
  rw [List.append_nil] at text position
  have inside := (List.getElem?_eq_some_iff.mp text).1
  rw [locate, position]
  exact Nat.add_comm 1 k ▸ inside

theorem locate_ended (ended : Ended cs) :
    locate cs cs.length = ⟨(linesOf cs).length + 1, 1⟩ := by
  rw [locate, locateFrom_ended ended (fun _ => rfl) rfl, Nat.add_comm]
  rfl

/-- Only the end can be below the last line. -/
theorem line_of_inside (inside : i < cs.length) : (locate cs i).line ≤ (linesOf cs).length := by
  by_cases ended : Ended cs
  · -- the last character is a break, and with it the line changes
    obtain ⟨n, length⟩ : ∃ n, cs.length = n + 1 := Nat.exists_eq_add_one_of_ne_zero (by omega)
    obtain ⟨c, found⟩ : ∃ c, cs[n]? = some c := ⟨cs[n], List.getElem?_eq_getElem (by omega)⟩
    have breaks : isLineBreak c = true := by
      refine ended c ?_
      rw [List.getLast?_eq_getElem?, length]
      exact found
    have last : cs[n + 1]? = none := List.getElem?_eq_none (by omega)
    have bottom := locate_ended ended
    rw [length, locate, locateFrom_succ found, last, after_break breaks (by simp [Joined]),
      Position.mk.injEq] at bottom
    exact Nat.succ.inj bottom.1 ▸ line_mono (by omega) (by omega)
  · exact Nat.le_trans (line_mono (Nat.le_of_lt inside) (Nat.le_refl _)) (line_of_unended ended)

/-- A character that belongs to no break is where its position says. -/
theorem locate_plain (found : cs[i]? = some c) (plain : isLineBreak c = false) :
    ∃ k n text, locate cs i = ⟨k + 1, n + 1⟩ ∧ (linesOf cs)[k]? = some text ∧
      text[n]? = some c := by
  obtain ⟨inside, here⟩ := List.getElem?_eq_some_iff.mp found
  have split : cs.take i ++ c :: cs.drop (i + 1) = cs := by
    rw [← here, List.getElem_cons_drop, List.take_append_drop]
  have reached : Reached (cs.take i) (c :: cs.drop (i + 1)) [] := by
    refine ⟨?_, fun _ => .inr (List.cons_ne_nil _ _), nofun⟩
    rintro ⟨-, ⟨⟩⟩
    cases plain
  obtain ⟨k, start, text, position⟩ := situated _ _ _ ⟨1, 1⟩ rfl reached
  rw [split] at text position
  rw [List.length_take, Nat.min_eq_left (Nat.le_of_lt inside)] at position
  refine ⟨k, start.length, _, ?_, text, ?_⟩
  · rw [locate, position, Nat.add_comm]
  · simp [restOfLine, plain]

/-- The positions of the offsets of a text. -/
theorem locate_ordered (cs : List Char) :
    (∀ i j, i < j → j ≤ cs.length → (locate cs i).Before (locate cs j)) ∧
      (∀ i j, i ≤ cs.length → j ≤ cs.length → locate cs i = locate cs j → i = j) ∧
      (∀ i c, cs[i]? = some c → isLineBreak c = false →
        ∃ k n text, locate cs i = ⟨k + 1, n + 1⟩ ∧ (linesOf cs)[k]? = some text ∧
          text[n]? = some c) ∧
      (∀ i, (linesOf cs).length < (locate cs i).line ↔ cs.length ≤ i ∧ Ended cs) ∧
      (∀ i, (linesOf cs).length < (locate cs i).line →
        locate cs i = ⟨(linesOf cs).length + 1, 1⟩) ∧
      ∀ i, cs.length ≤ i → locate cs i = locate cs cs.length := by
  have below (i : Nat) : (linesOf cs).length < (locate cs i).line ↔ cs.length ≤ i ∧ Ended cs := by
    constructor
    · intro below
      have past : cs.length ≤ i :=
        Nat.not_lt.mp fun inside => Nat.not_lt.mpr (line_of_inside inside) below
      refine ⟨past, Classical.byContradiction fun unended => ?_⟩
      rw [locate, locateFrom_past past] at below
      exact Nat.not_lt.mpr (line_of_unended unended) below
    · rintro ⟨past, ended⟩
      rw [locate, locateFrom_past past, ← locate, locate_ended ended]
      exact Nat.lt_succ_self _
  refine ⟨fun i j => locate_before, fun i j => locate_inj, fun i c => locate_plain, below, ?_, ?_⟩
  · intro i beyond
    obtain ⟨past, ended⟩ := (below i).mp beyond
    rw [locate, locateFrom_past past, ← locate, locate_ended ended]
  · exact fun i => locateFrom_past

/-- A lone carriage return, a pair, a line feed, and the end below the last line. -/
example :
    linesOf ['a', '\r', '\r', '\n', '\n'] = [['a'], [], []] ∧
      (List.range 6).map (locate ['a', '\r', '\r', '\n', '\n']) =
        [⟨1, 1⟩, ⟨1, 2⟩, ⟨2, 1⟩, ⟨2, 2⟩, ⟨3, 1⟩, ⟨4, 1⟩] := by
  decide

end Plc

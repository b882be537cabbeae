import Plc.Text.Line

/-!
Positions and lines. Finding the position of an offset and cutting a text into lines are two walks
over the text, each with its own look-ahead for the break of two characters. They agree: an offset
that lies in a line or at its end has the number of that line, and its column counts the characters
of the line in front of it.
-/

namespace Plc

def Joined (c : Char) (next : Option Char) : Prop := c = '\r' ∧ next = some '\n'

def restOfLine (cs : List Char) : List Char := cs.takeWhile fun c => !isLineBreak c

variable {c : Char} {cs line : List Char} {p : Position}

theorem linesFrom_plain (plain : isLineBreak c = false) :
    linesFrom line (c :: cs) = linesFrom (c :: line) cs := by
  rw [linesFrom]
  · rw [plain, if_neg Bool.false_ne_true]
  · rintro _ rfl _
    cases plain

theorem linesFrom_break (breaks : isLineBreak c = true) (single : ¬ Joined c cs.head?) :
    linesFrom line (c :: cs) = line.reverse :: linesFrom [] cs := by
  rw [linesFrom]
  · rw [if_pos breaks]
  · rintro _ rfl rfl
    exact single ⟨rfl, rfl⟩

theorem after_plain (plain : isLineBreak c = false) (next : Option Char) :
    p.after c next = ⟨p.line, p.column + 1⟩ := by
  simp [Position.after, plain]

theorem after_break (breaks : isLineBreak c = true) {next : Option Char}
    (single : ¬ Joined c next) : p.after c next = ⟨p.line + 1, 1⟩ := by
  have alone : (c == '\r' && next == some '\n') = false := by
    simpa [Joined] using single
  rw [Position.after, breaks, alone]
  rfl

/-- The line that is being read goes up to the next break. -/
theorem line_begun (begun : line ≠ [] ∨ cs ≠ []) :
    (linesFrom line cs)[0]? = some (line.reverse ++ restOfLine cs) := by
  induction cs generalizing line with
  | nil =>
    have filled : line ≠ [] := begun.resolve_right fun none => none rfl
    simp [linesFrom, restOfLine, filled]
  | cons c cs ih =>
    cases breaks : isLineBreak c with
    | false =>
      rw [linesFrom_plain breaks, ih (.inl (List.cons_ne_nil c line))]
      simp [restOfLine, breaks]
    | true =>
      have here : restOfLine (c :: cs) = [] := by simp [restOfLine, breaks]
      rw [here, List.append_nil]
      by_cases joined : Joined c cs.head?
      · obtain ⟨rfl, feed⟩ := joined
        obtain ⟨more, rfl⟩ := List.head?_eq_some_iff.mp feed
        rfl
      · rw [linesFrom_break breaks joined]
        rfl

/-- No line has a line break in it. -/
theorem plain_of_lines (begun : ∀ c ∈ line, isLineBreak c = false) {text : List Char}
    (member : text ∈ linesFrom line cs) : ∀ c ∈ text, isLineBreak c = false := by
  fun_induction linesFrom line cs with
  | case1 line none => simp at member
  | case2 line some =>
    rw [List.mem_singleton.mp member]
    simpa using begun
  | case3 line cs ih =>
    rcases List.mem_cons.mp member with rfl | member
    · simpa using begun
    · exact ih (by simp) member
  | case4 line c cs apart breaks ih =>
    rcases List.mem_cons.mp member with rfl | member
    · simpa using begun
    · exact ih (by simp) member
  | case5 line c cs apart breaks ih =>
    refine ih (fun d inside => ?_) member
    rcases List.mem_cons.mp inside with rfl | inside
    · exact Bool.eq_false_iff.mpr breaks
    · exact begun d inside

/-- What is in front of an offset ends in a line that goes on behind it, or that ends there. -/
structure Reached (before after line : List Char) : Prop where
  apart : ¬ (before.getLast? = some '\r' ∧ after.head? = some '\n')
  begun : before = [] → line ≠ [] ∨ after ≠ []
  held : after = [] → ∀ c ∈ before.getLast?, isLineBreak c = false

/-- The offset behind `before` is in line number `k`, counted from the one that is being read, and
`start` of this line is in front of it. -/
structure Situated (before after line : List Char) (p : Position) (k : Nat) (start : List Char) :
    Prop where
  text : (linesFrom line (before ++ after))[k]? = some (start ++ restOfLine after)
  position : p.locateFrom (before ++ after) before.length = ⟨p.line + k, start.length + 1⟩

variable {before after : List Char} {k : Nat} {start : List Char}

theorem Reached.skip {line' : List Char} (passed : List Char)
    (reached : Reached (passed ++ before) after line)
    (begun : before = [] → after = [] → line' ≠ []) : Reached before after line' := by
  have last : ∀ c ∈ before.getLast?, (passed ++ before).getLast? = some c := by
    intro c found
    rw [List.getLast?_append, Option.mem_def.mp found]
    rfl
  constructor
  · rintro ⟨feed, next⟩
    exact reached.apart ⟨last _ feed, next⟩
  · intro none
    by_cases ends : after = []
    · exact .inl (begun none ends)
    · exact .inr ends
  · intro ends c found
    exact reached.held ends c (last c found)

theorem Reached.behind_break {passed : List Char}
    (reached : Reached (passed ++ before) after line) (last : passed.getLast? = some c)
    (breaks : isLineBreak c = true) : Reached before after [] := by
  refine reached.skip passed fun none ends => ?_
  have held := reached.held ends c (by rw [none, List.append_nil, last]; rfl)
  rw [breaks] at held
  cases held

/-- For a break in front of the text the offset is one line further down. -/
theorem Situated.behind_break {passed : List Char}
    (situated : Situated before after [] ⟨p.line + 1, 1⟩ k start)
    (cut : linesFrom line (passed ++ (before ++ after)) =
      line.reverse :: linesFrom [] (before ++ after))
    (moved : p.locateFrom (passed ++ (before ++ after)) (before.length + passed.length) =
      Position.locateFrom ⟨p.line + 1, 1⟩ (before ++ after) before.length) :
    Situated (passed ++ before) after line p (k + 1) start := by
  constructor
  · rw [List.append_assoc, cut, List.getElem?_cons_succ, situated.text]
  · rw [List.append_assoc, List.length_append, Nat.add_comm passed.length, moved,
      situated.position, Nat.add_right_comm, Nat.add_assoc]

/-- The induction is on the length of what is in front, since a break may take two characters. -/
theorem situated (before after line : List Char) (p : Position)
    (column : p.column = line.length + 1) (reached : Reached before after line) :
    ∃ k start, Situated before after line p k start := by
  cases before with
  | nil =>
    refine ⟨0, line.reverse, line_begun (reached.begun rfl), ?_⟩
    rw [List.length_reverse, ← column]
    cases after <;> rfl
  | cons c rest =>
    cases breaks : isLineBreak c with
    | false =>
      obtain ⟨k, start, text, position⟩ := situated rest after (c :: line) ⟨p.line, p.column + 1⟩
        (by rw [column, List.length_cons])
        (reached.skip [c] fun _ _ => List.cons_ne_nil c line)
      refine ⟨k, start, ?_, ?_⟩
      · rw [List.cons_append, linesFrom_plain breaks, text]
      · rw [List.cons_append, List.length_cons, Position.locateFrom, after_plain breaks, position]
    | true =>
      by_cases joined : Joined c (rest ++ after).head?
      · obtain ⟨rfl, feed⟩ := joined
        cases rest with
        | nil => exact absurd ⟨rfl, feed⟩ reached.apart
        | cons d rest =>
          cases feed
          have next : Reached (['\r', '\n'] ++ rest) after line := reached
          obtain ⟨k, start, further⟩ := situated rest after [] ⟨p.line + 1, 1⟩ rfl
            (next.behind_break rfl rfl)
          have whole : Situated (['\r', '\n'] ++ rest) after line p (k + 1) start :=
            further.behind_break rfl rfl
          exact ⟨k + 1, start, whole⟩
      · have next : Reached ([c] ++ rest) after line := reached
        obtain ⟨k, start, further⟩ := situated rest after [] ⟨p.line + 1, 1⟩ rfl
          (next.behind_break rfl breaks)
        have whole : Situated ([c] ++ rest) after line p (k + 1) start := by
          refine further.behind_break (linesFrom_break breaks joined) ?_
          rw [← after_break breaks joined]
          rfl
        exact ⟨k + 1, start, whole⟩
termination_by before.length

end Plc

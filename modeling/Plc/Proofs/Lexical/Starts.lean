import Plc.Proofs.Lexical

/-!
The first character of a lexeme tells most of its kind: only a minus may start two.
-/

namespace Plc.Lexical

def StartOf : Token.Kind → Char → Prop
  | .identifier, c => c = '@' ∨ c.isAlpha = true
  | .integer, c | .decimal, c => c = '-' ∨ c.isDigit = true
  | .character, c => c = '\''
  | .string, c => c = '"'
  | .operator, c => c ∉ blanks ∧ c ∉ quotes ∧ c ≠ '@' ∧ c.isAlpha = false ∧ c.isDigit = false

theorem isAlpha_of_isDigit {c : Char} (digit : c.isDigit = true) : c.isAlpha = false := by
  delta Char.isDigit at digit
  delta Char.isAlpha Char.isUpper Char.isLower
  grind

variable {ds : List Char}

theorem digits_of_counting (counting : Counting ds) : Digits ds := by
  cases counting with
  | digits first nonzero others =>
    intro c member
    rcases List.mem_cons.mp member with rfl | inside
    · exact first
    · exact others c inside

theorem digits_of_whole (whole : Whole ds) : Digits ds := by
  cases whole with
  | zero => simp [Digits]
  | counting digits => exact digits_of_counting digits

theorem ne_nil_of_counting (counting : Counting ds) : ds ≠ [] := by
  cases counting
  simp

theorem ne_nil_of_whole (whole : Whole ds) : ds ≠ [] := by
  cases whole with
  | zero => simp
  | counting digits => exact ne_nil_of_counting digits

theorem start_of_signed {sign : List Char} (signed : Sign sign) (filled : ds ≠ [])
    (digits : Digits ds) (behind : List Char) :
    ∃ c cs, sign ++ (ds ++ behind) = c :: cs ∧ (c = '-' ∨ c.isDigit = true) := by
  obtain ⟨d, ds, rfl⟩ := List.exists_cons_of_ne_nil filled
  rcases signed with rfl | rfl
  · exact ⟨d, ds ++ behind, rfl, .inr (digits d List.mem_cons_self)⟩
  · exact ⟨'-', d :: ds ++ behind, rfl, .inl rfl⟩

variable {kind : Token.Kind} {text cs : List Char} {c : Char}

theorem start_of_lexeme (lexeme : Lexeme kind text) : ∃ c cs, text = c :: cs ∧ StartOf kind c := by
  cases lexeme with
  | identifier first others => exact ⟨_, _, rfl, first⟩
  | zero => exact ⟨_, _, rfl, .inr rfl⟩
  | @integer sign digits signed counting =>
    have found := start_of_signed signed (ne_nil_of_counting counting)
      (digits_of_counting counting) []
    rwa [List.append_nil] at found
  | decimal signed before some behind =>
    exact start_of_signed signed (ne_nil_of_whole before) (digits_of_whole before) _
  | character inner | string inner => exact ⟨_, _, rfl, rfl⟩
  | pair known =>
    simp only [operatorPairs, List.mem_cons, List.not_mem_nil, or_false] at known
    rcases known with rfl | rfl | rfl | rfl <;>
      exact ⟨_, _, rfl, by decide, by decide, by decide, rfl, rfl⟩
  | single solid unquoted start letter digit =>
    exact ⟨_, _, rfl, solid, unquoted, start, letter, digit⟩

/-- A lexeme at the head of a text starts with the first character of the text. -/
theorem start_at_head (lexeme : Lexeme kind text) (start : text <+: c :: cs) :
    StartOf kind c := by
  obtain ⟨d, ds, rfl, first⟩ := start_of_lexeme lexeme
  rw [List.cons_prefix_cons] at start
  exact start.1 ▸ first

theorem length_pos_of_lexeme (lexeme : Lexeme kind text) : 0 < text.length := by
  obtain ⟨c, cs, rfl, -⟩ := start_of_lexeme lexeme
  exact Nat.succ_pos _

/-- No lexeme starts with a blank. -/
theorem solid_of_start (start : StartOf kind c) : c ∉ blanks := by
  intro blank
  cases kind with
  | operator => exact start.1 blank
  | identifier | integer | decimal | character | string =>
    simp only [blanks, List.mem_cons, List.not_mem_nil, or_false] at blank
    rcases blank with rfl | rfl | rfl | rfl | rfl | rfl <;> simp [StartOf] at start

end Plc.Lexical

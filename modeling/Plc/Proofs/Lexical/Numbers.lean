import Plc.Proofs.Lexical.Starts

/-!
Numbers: a sign, digits, and perhaps a point and more digits. Both runs of digits are as long as the
text allows, so any other number that starts the text is no longer.
-/

namespace Plc.Lexical

def Apart (test : Char → Bool) (cs : List Char) : Prop := ∀ c ∈ cs.head?, test c = false

section

variable {test : Char → Bool} {xs ys rest : List Char}

theorem takeWhile_of (all : ∀ c ∈ xs, test c = true) (apart : Apart test rest) :
    (xs ++ rest).takeWhile test = xs := by
  have stop : rest.takeWhile test = [] := by
    cases rest with
    | nil => rfl
    | cons c cs => simp [apart c rfl]
  rw [List.takeWhile_append_of_pos all, stop, List.append_nil]

theorem apart_dropWhile (test : Char → Bool) (cs : List Char) : Apart test (cs.dropWhile test) := by
  intro c head
  simpa [Option.mem_def.mp head] using List.head?_dropWhile_not test cs

/-- A run of a kind that starts the text lies within the whole run. -/
theorem length_le_of_run (all : ∀ c ∈ ys, test c = true) (apart : Apart test rest)
    (start : ys <+: xs ++ rest) : ys.length ≤ xs.length := by
  induction xs generalizing ys with
  | nil =>
    cases ys with
    | nil => exact Nat.le_refl _
    | cons y ys =>
      obtain ⟨more, split⟩ := start
      rw [List.nil_append] at split
      subst split
      exact absurd (all y List.mem_cons_self) (Bool.eq_false_iff.mp (apart y rfl))
  | cons x xs ih =>
    cases ys with
    | nil => exact Nat.zero_le _
    | cons y ys =>
      rw [List.cons_append, List.cons_prefix_cons] at start
      exact Nat.succ_le_succ (ih (fun c member => all c (List.mem_cons_of_mem y member)) start.2)

/-- A run that ends inside the text is the whole run. -/
theorem run_unique {c : Char} {more : List Char} (inside : ∀ c ∈ xs, test c = true)
    (all : ∀ c ∈ ys, test c = true) (other : test c = false) (apart : Apart test rest)
    (start : ys ++ c :: more <+: xs ++ rest) : ys = xs ∧ c :: more <+: rest := by
  induction xs generalizing ys with
  | nil =>
    cases ys with
    | nil => exact ⟨rfl, start⟩
    | cons y ys =>
      obtain ⟨tail, split⟩ := start
      rw [List.nil_append] at split
      subst split
      exact absurd (all y List.mem_cons_self) (Bool.eq_false_iff.mp (apart y rfl))
  | cons x xs ih =>
    cases ys with
    | nil =>
      rw [List.nil_append, List.cons_append, List.cons_prefix_cons] at start
      rw [start.1, inside x List.mem_cons_self] at other
      cases other
    | cons y ys =>
      rw [List.cons_append, List.cons_append, List.cons_prefix_cons] at start
      obtain ⟨same, rest⟩ := ih (fun c member => inside c (List.mem_cons_of_mem x member))
        (fun c member => all c (List.mem_cons_of_mem y member)) start.2
      exact ⟨by rw [start.1, same], rest⟩

end

inductive Behind : List Char → Nat → Prop where
  | places {places rest : List Char} (digits : Digits places) (some : places ≠ [])
      (apart : Apart Char.isDigit rest) : Behind ('.' :: (places ++ rest)) (1 + places.length)
  | none {rest : List Char} (noPlaces : ∀ d ds, rest = '.' :: d :: ds → d.isDigit = false) :
      Behind rest 0

theorem behind_fraction (rest : List Char) : Behind rest (Lexer.fraction rest) := by
  unfold Lexer.fraction
  split
  · next d cs =>
    split
    · next digit =>
      have split : '.' :: d :: cs =
          '.' :: ((d :: cs.takeWhile Char.isDigit) ++ cs.dropWhile Char.isDigit) := by
        rw [List.cons_append, List.takeWhile_append_dropWhile]
      have length : 2 + (cs.takeWhile Char.isDigit).length =
          1 + (d :: cs.takeWhile Char.isDigit).length := by
        rw [List.length_cons]
        omega
      rw [split, length]
      refine .places ?_ (List.cons_ne_nil _ _) (apart_dropWhile Char.isDigit cs)
      intro c member
      rcases List.mem_cons.mp member with rfl | inside
      · exact digit
      · exact List.all_eq_true.mp List.all_takeWhile c inside
    · next other => exact .none fun e es same => by cases same; simpa using other
  · next other => exact .none fun d ds same => absurd same (other d ds)

structure Number (cs sign whole rest : List Char) : Prop where
  split : cs = sign ++ (whole ++ rest)
  signed : Sign sign
  digits : Digits whole
  some : whole ≠ []
  apart : Apart Char.isDigit rest

theorem number_of_body {cs sign : List Char} (body : List Char) (split : cs = sign ++ body)
    (signed : Sign sign) {d : Char} (first : body.head? = some d) (digit : d.isDigit = true) :
    Number cs sign (body.takeWhile Char.isDigit) (body.dropWhile Char.isDigit) := by
  obtain ⟨more, rfl⟩ := List.head?_eq_some_iff.mp first
  refine ⟨?_, signed, List.all_eq_true.mp List.all_takeWhile, ?_, apart_dropWhile _ _⟩
  · rw [split, List.takeWhile_append_dropWhile]
  · simp [digit]

/-- A minus is in front of a number only where no zero is first, or a decimal follows. -/
theorem number_of_start {cs : List Char} (start : Lexer.startsNumber cs = true) :
    ∃ sign whole rest, Number cs sign whole rest ∧ (sign ≠ [] → whole.head? = some '0' →
      whole = ['0'] ∧ ∃ d ds, rest = '.' :: d :: ds ∧ d.isDigit = true) := by
  unfold Lexer.startsNumber at start
  split at start
  · next d ds =>
    refine ⟨['-'], ['0'], '.' :: d :: ds, ⟨rfl, .inr rfl, ?_, List.cons_ne_nil _ _, ?_⟩,
      fun _ _ => ⟨rfl, d, ds, rfl, start⟩⟩
    · simp [Digits]
    · intro c head
      cases head
      rfl
  · next d ds _ =>
    simp only [Bool.and_eq_true, bne_iff_ne] at start
    refine ⟨['-'], _, _, number_of_body (d :: ds) rfl (.inr rfl) rfl start.1, ?_⟩
    intro _ zero
    simp only [List.takeWhile_cons, start.1, if_true, List.head?_cons, Option.some.injEq] at zero
    exact absurd zero start.2
  · next c ds _ _ =>
    exact ⟨[], _, _, number_of_body (c :: ds) rfl (.inl rfl) rfl start,
      fun none => absurd rfl none⟩
  · cases start

variable {cs sign whole rest : List Char}

theorem isDigit_minus {d : Char} (digit : d.isDigit = true) : d ≠ '-' := by
  rintro rfl
  cases digit

theorem number_eq (number : Number cs sign whole rest) : Lexer.number cs =
    if whole.head? = some '0' ∧ 1 < whole.length then .error (.leadingZeros, 0)
    else .ok (if Lexer.fraction rest = 0 then .integer else .decimal,
      sign.length + whole.length + Lexer.fraction rest) := by
  obtain ⟨rfl, signed, digits, filled, apart⟩ := number
  obtain ⟨d, ds, rfl⟩ := List.exists_cons_of_ne_nil filled
  have minus := isDigit_minus (digits d List.mem_cons_self)
  have run := takeWhile_of digits apart
  have behind : (d :: ds ++ rest).drop (d :: ds).length = rest := List.drop_left
  rcases signed with rfl | rfl
  · have head : (d :: ds ++ rest).head? ≠ some '-' := by simpa using minus
    simp only [Lexer.number, List.nil_append, head, if_false, List.drop_zero, run, behind]
    simp
  · have head : (['-'] ++ (d :: ds ++ rest)).head? = some '-' := rfl
    have body : (['-'] ++ (d :: ds ++ rest)).drop 1 = d :: ds ++ rest := rfl
    simp only [Lexer.number, head, if_true, body, run, behind]
    simp

/-- Signs in front of digits are the same or none starts the other's text. -/
theorem sign_unique {other ds : List Char} (number : Number cs sign whole rest)
    (signed : Sign other) (digit : ∀ d ∈ ds.head?, d.isDigit = true) (filled : ds ≠ [])
    (start : other ++ ds <+: cs) : other = sign ∧ ds <+: whole ++ rest := by
  obtain ⟨rfl, signed', digits, filled', -⟩ := number
  obtain ⟨d, ds, rfl⟩ := List.exists_cons_of_ne_nil filled
  obtain ⟨w, ws, rfl⟩ := List.exists_cons_of_ne_nil filled'
  have minus := isDigit_minus (digit d rfl)
  have minus' := isDigit_minus (digits w List.mem_cons_self)
  rcases signed with rfl | rfl <;> rcases signed' with rfl | rfl
  · exact ⟨rfl, start⟩
  · exact absurd (List.cons_prefix_cons.mp start).1 minus
  · exact absurd (List.cons_prefix_cons.mp start).1.symm minus'
  · exact ⟨rfl, (List.cons_prefix_cons.mp start).2⟩

theorem head_of_digits {ds : List Char} (digits : Digits ds) : ∀ d ∈ ds.head?, d.isDigit = true :=
  fun d head => digits d (List.mem_of_mem_head? head)

/-- Places behind the whole of a number are among those that the scan finds. -/
theorem length_le_of_places {places : List Char} {length : Nat} (behind : Behind rest length)
    (filled : places ≠ []) (digits : Digits places) (start : '.' :: places <+: rest) :
    1 + places.length ≤ length := by
  cases behind with
  | places found _ apart =>
    exact Nat.add_le_add_left
      (length_le_of_run digits apart (List.cons_prefix_cons.mp start).2) 1
  | none noPlaces =>
    obtain ⟨more, rfl⟩ := start
    obtain ⟨d, ds, rfl⟩ := List.exists_cons_of_ne_nil filled
    have digit := digits d List.mem_cons_self
    rw [noPlaces d (ds ++ more) rfl] at digit
    cases digit

theorem first_of_pair {pair : List Char} (known : pair ∈ operatorPairs) :
    ∃ c cs, pair = c :: cs ∧ c ∈ ['!', '=', '&', '|'] := by
  simp only [operatorPairs, List.mem_cons, List.not_mem_nil, or_false] at known
  rcases known with rfl | rfl | rfl | rfl <;> exact ⟨_, _, rfl, by decide⟩

/-- A minus or a digit starts no lexeme but a number and the operator that is a minus. -/
theorem number_longest (number : Number cs sign whole rest) {kind : Token.Kind}
    {more : List Char} (start : more <+: cs) (lexeme : Lexeme kind more) :
    more.length ≤ sign.length + whole.length + Lexer.fraction rest := by
  have filled : 0 < whole.length := List.length_pos_iff.mpr number.some
  obtain ⟨c, tail, split, first⟩ := start_of_signed number.signed number.some number.digits rest
  rw [← number.split] at split
  have head := start_at_head lexeme (split ▸ start)
  cases lexeme with
  | identifier letter others =>
    rcases first with rfl | digit
    · simp [StartOf] at head
    · rcases head with rfl | letter
      · cases digit
      · rw [isAlpha_of_isDigit digit] at letter
        cases letter
  | zero =>
    simp only [List.length_singleton]
    omega
  | integer signed counting =>
    have digits := digits_of_counting counting
    obtain ⟨rfl, start⟩ := sign_unique number signed (head_of_digits digits)
      (ne_nil_of_counting counting) start
    have shorter := length_le_of_run digits number.apart start
    simp only [List.length_append]
    omega
  | @decimal _ before places signed whole' some behind =>
    have digits := digits_of_whole whole'
    have head : ∀ d ∈ (before ++ '.' :: places).head?, d.isDigit = true := by
      obtain ⟨d, ds, rfl⟩ := List.exists_cons_of_ne_nil (ne_nil_of_whole whole')
      exact fun c head => digits c (by cases head; exact List.mem_cons_self)
    obtain ⟨rfl, start⟩ := sign_unique number signed head (by simp) start
    obtain ⟨same, start⟩ := run_unique number.digits digits (by decide) number.apart start
    have shorter := length_le_of_places (behind_fraction rest) some behind start
    subst same
    simp only [List.length_append, List.length_cons]
    omega
  | character inner | string inner =>
    cases head
    rcases first with same | digit
    · cases same
    · cases digit
  | pair known =>
    have minus : c = '-' := by
      rcases first with minus | digit
      · exact minus
      · rw [head.2.2.2.2] at digit
        cases digit
    obtain ⟨d, ds, rfl, among⟩ := first_of_pair known
    rw [split, List.cons_prefix_cons, minus] at start
    rw [start.1] at among
    simp at among
  | single =>
    simp only [List.length_singleton]
    omega

theorem counting_of_head {d : Char} {ds : List Char} (digits : Digits (d :: ds))
    (nonzero : d ≠ '0') : Counting (d :: ds) :=
  .digits (digits d List.mem_cons_self) nonzero fun c member =>
    digits c (List.mem_cons_of_mem d member)

/-- Digits with no zero too many. -/
theorem whole_of_digits {ds : List Char} (digits : Digits ds) (filled : ds ≠ [])
    (clean : ¬ (ds.head? = some '0' ∧ 1 < ds.length)) : Whole ds := by
  obtain ⟨d, ds, rfl⟩ := List.exists_cons_of_ne_nil filled
  by_cases zero : d = '0'
  · subst zero
    have alone : ds = [] := Classical.byContradiction fun more =>
      clean ⟨rfl, Nat.succ_lt_succ (List.length_pos_iff.mpr more)⟩
    subst alone
    exact .zero
  · exact .counting (counting_of_head digits zero)

theorem leadingZeros_iff (number : Number cs sign whole rest)
    (signed : sign ≠ [] → whole.head? = some '0' → whole = ['0']) :
    LeadingZeros cs ↔ whole.head? = some '0' ∧ 1 < whole.length := by
  obtain ⟨rfl, sign', digits, filled, apart⟩ := number
  obtain ⟨w, ws, rfl⟩ := List.exists_cons_of_ne_nil filled
  constructor
  · rintro ⟨d, ds, split, digit⟩
    rcases sign' with rfl | rfl
    · cases ws with
      | nil =>
        cases split
        rw [apart d rfl] at digit
        cases digit
      | cons v ws =>
        cases split
        exact ⟨rfl, by simp⟩
    · cases split
  · rintro ⟨zero, many⟩
    cases zero
    rcases sign' with rfl | rfl
    · cases ws with
      | nil => simp at many
      | cons v ws => exact ⟨v, ws ++ rest, rfl, digits v (by simp)⟩
    · have alone := signed (by simp) rfl
      rw [alone] at many
      simp at many

/-- With no zero too many, what the scan takes is a lexeme. -/
theorem number_found (number : Number cs sign whole rest) (before : Whole whole)
    (signed : sign ≠ [] → whole = ['0'] → ∃ d ds, rest = '.' :: d :: ds ∧ d.isDigit = true) :
    ∃ text, Longest cs (if Lexer.fraction rest = 0 then .integer else .decimal) text ∧
      text.length = sign.length + whole.length + Lexer.fraction rest := by
  have longest : ∀ other more, more <+: cs → Lexeme other more →
      more.length ≤ sign.length + whole.length + Lexer.fraction rest :=
    fun other more => number_longest number
  have behind := behind_fraction rest
  generalize Lexer.fraction rest = length at behind longest
  cases behind with
  | @places places rest digits filled apart =>
    have length : (sign ++ (whole ++ '.' :: places)).length =
        sign.length + whole.length + (1 + places.length) := by
      simp only [List.length_append, List.length_cons]
      omega
    rw [if_neg (by omega)]
    refine ⟨sign ++ (whole ++ '.' :: places), ⟨⟨rest, ?_⟩, ?_, length ▸ longest⟩, length⟩
    · simp [number.split]
    · exact .decimal number.signed before filled digits
  | none noPlaces =>
    have length : (sign ++ whole).length = sign.length + whole.length + 0 := List.length_append
    rw [if_pos rfl]
    refine ⟨sign ++ whole, ⟨⟨rest, ?_⟩, ?_, length ▸ longest⟩, length⟩
    · rw [number.split, List.append_assoc]
    · cases before with
      | counting digits => exact .integer number.signed digits
      | zero =>
        rcases number.signed with rfl | rfl
        · exact .zero
        · obtain ⟨d, ds, split, digit⟩ := signed (by simp) rfl
          rw [noPlaces d ds split] at digit
          cases digit

theorem number_spec (start : Lexer.startsNumber cs = true) :
    (LeadingZeros cs ∧ Lexer.number cs = .error (.leadingZeros, 0)) ∨
      (¬ LeadingZeros cs ∧ ∃ kind text, Longest cs kind text ∧
        Lexer.number cs = .ok (kind, text.length)) := by
  obtain ⟨sign, whole, rest, number, minus⟩ := number_of_start start
  have zeros := leadingZeros_iff number fun some zero => (minus some zero).1
  rw [number_eq number]
  by_cases bad : whole.head? = some '0' ∧ 1 < whole.length
  · exact .inl ⟨zeros.mpr bad, if_pos bad⟩
  · have before := whole_of_digits number.digits number.some bad
    obtain ⟨text, longest, length⟩ := number_found number before
      fun some zero => (minus some (zero ▸ rfl)).2
    exact .inr ⟨mt zeros.mp bad, _, text, longest, by rw [if_neg bad, length]⟩

end Plc.Lexical

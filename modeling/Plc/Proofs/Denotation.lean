import Mathlib.Data.List.Induction
import Mathlib.Data.List.TakeWhile
import Plc.Literal

/-!
What the text of a literal denotes, as relations: digits their number in base ten, with gaps between
them; a number of any sign, with a point and an exponent; and between quotes the characters that are
written there, each as it is or behind a backslash. The readers of literals accept just these texts,
with just these values.
-/

namespace Plc

/-- Digits of a number in base ten, with gaps anywhere behind the first. -/
inductive Numeral : List Char → Nat → Prop where
  | digit {d : Nat} (small : d < 10) : Numeral [d.digitChar] d
  | more {cs : List Char} {n d : Nat} (front : Numeral cs n) (small : d < 10) :
      Numeral (cs ++ [d.digitChar]) (10 * n + d)
  | gap {cs : List Char} {n : Nat} (front : Numeral cs n) : Numeral (cs ++ ['_']) n

inductive IntegerText : List Char → Int → Prop where
  | plain {cs : List Char} {n : Nat} (digits : Numeral cs n) : IntegerText cs n
  | plus {cs : List Char} {n : Nat} (digits : Numeral cs n) : IntegerText ('+' :: cs) n
  | minus {cs : List Char} {n : Nat} (digits : Numeral cs n) : IntegerText ('-' :: cs) (-n)

/-- A decimal without an exponent. The digits on both sides of the point are those of the unscaled
integer. -/
inductive PlainText : List Char → Decimal → Prop where
  | integer {cs : List Char} {n : Int} (digits : IntegerText cs n) : PlainText cs ⟨n, 0⟩
  | point {whole fraction : List Char} {n : Int} (digits : IntegerText (whole ++ fraction) n) :
      PlainText (whole ++ '.' :: fraction) ⟨n, fraction.countP (· ≠ '_')⟩

inductive DecimalText : List Char → Decimal → Prop where
  | plain {cs : List Char} {d : Decimal} (front : PlainText cs d) : DecimalText cs d
  | exponent {cs ds : List Char} {mark : Char} {d : Decimal} {e : Int} (front : PlainText cs d)
      (letter : mark = 'e' ∨ mark = 'E') (digits : IntegerText ds e) (gapless : '_' ∉ ds)
      (fits : FitsInt64 (d.scale - e)) : DecimalText (cs ++ mark :: ds) ⟨d.unscaled, d.scale - e⟩

inductive EscapeOf : Char → Char → Prop where
  | backspace : EscapeOf 'b' '\x08'
  | lineFeed : EscapeOf 'n' '\n'
  | carriageReturn : EscapeOf 'r' '\r'
  | tab : EscapeOf 't' '\t'
  | apostrophe : EscapeOf '\'' '\''
  | mark : EscapeOf '"' '"'
  | backslash : EscapeOf '\\' '\\'

/-- The characters that a text between quotes means. A backslash says nothing of what is no letter
of an escape, and nothing at the end. -/
inductive Means : List Char → List Char → Prop where
  | nil : Means [] []
  | plain {c : Char} {cs vs : List Char} (other : c ≠ '\\') (rest : Means cs vs) :
      Means (c :: cs) (c :: vs)
  | escape {letter c : Char} {cs vs : List Char} (known : EscapeOf letter c) (rest : Means cs vs) :
      Means ('\\' :: letter :: cs) (c :: vs)
  | unknown {c : Char} {cs vs : List Char} (none : ∀ d, ¬ EscapeOf c d) (rest : Means cs vs) :
      Means ('\\' :: c :: cs) (c :: vs)
  | last : Means ['\\'] ['\\']

inductive Between : List Char → List Char → Prop where
  | short {cs : List Char} (few : cs.length ≤ 1) : Between cs []
  | quotes {first last : Char} {cs : List Char} : Between (first :: (cs ++ [last])) cs

section

variable {cs ds : List Char} {c x : Char} {n m d : Nat}

theorem isDigit_digitChar (small : d < 10) : d.digitChar.isDigit = true := by
  have all : ∀ d < 10, d.digitChar.isDigit = true := by decide
  exact all d small

theorem toNat_digitChar (small : d < 10) : d.digitChar.toNat - 48 = d := by
  have all : ∀ d < 10, d.digitChar.toNat - 48 = d := by decide
  exact all d small

theorem digitChar_of_isDigit (digit : c.isDigit = true) : ∃ d < 10, c = d.digitChar := by
  have bounds : 48 ≤ c.toNat ∧ c.toNat ≤ 57 := Char.isDigit_iff_toNat.mp digit
  refine ⟨c.toNat - 48, by omega, ?_⟩
  have all : ∀ n < 58, 48 ≤ n → Char.ofNat n = (n - 48).digitChar := by decide
  rw [← all c.toNat (by omega) bounds.1, Char.ofNat_toNat]

theorem digits?_single : digits? [c] = some n ↔ n < 10 ∧ c = n.digitChar := by
  constructor
  · intro read
    cases digit : c.isDigit with
    | false => simp [digits?, digit] at read
    | true =>
      obtain ⟨d, small, rfl⟩ := digitChar_of_isDigit digit
      obtain rfl : d = n := by simpa [digits?, digit, toNat_digitChar small] using read
      exact ⟨small, rfl⟩
  · rintro ⟨small, rfl⟩
    simp [digits?, isDigit_digitChar small, toNat_digitChar small]

theorem digits?_concat (filled : ds ≠ []) : digits? (ds ++ [x]) = some n ↔
    ∃ m d, digits? ds = some m ∧ d < 10 ∧ x = d.digitChar ∧ n = 10 * m + d := by
  constructor
  · intro read
    unfold digits? at read ⊢
    split at read
    · cases read
    · next all =>
      obtain ⟨front, digit⟩ : ds.all Char.isDigit = true ∧ x.isDigit = true := by
        simpa [filled] using all
      obtain ⟨d, small, rfl⟩ := digitChar_of_isDigit digit
      refine ⟨_, d, if_neg (by simp [filled, front]), small, rfl, ?_⟩
      simpa [toNat_digitChar small, eq_comm] using read
  · rintro ⟨m, d, read, small, rfl, rfl⟩
    unfold digits? at read ⊢
    split at read
    · cases read
    · next all =>
      cases read
      have front : ds.all Char.isDigit = true := by simpa [filled] using all
      simp [front, isDigit_digitChar small, toNat_digitChar small]

theorem numeral?_single : numeral? [c] = some n ↔ n < 10 ∧ c = n.digitChar := by
  rw [← digits?_single]
  by_cases same : c = gap
  · subst same
    have none : digits? [gap] = none := rfl
    simp [numeral?, none]
  · simp [numeral?, same]

theorem numeral?_concat (filled : cs ≠ []) : numeral? (cs ++ [x]) = some n ↔
    (x = gap ∧ numeral? cs = some n) ∨
      ∃ m d, numeral? cs = some m ∧ d < 10 ∧ x = d.digitChar ∧ n = 10 * m + d := by
  obtain ⟨c, cs, rfl⟩ := List.exists_cons_of_ne_nil filled
  by_cases start : c = gap
  · simp [numeral?, start]
  simp only [List.cons_append, numeral?, if_neg start, List.filter_append]
  by_cases same : x = gap
  · have none : ∀ d < 10, gap ≠ d.digitChar := by decide
    subst same
    simp only [ne_eq, decide_not, decide_true, Bool.not_true, Bool.false_eq_true,
      not_false_eq_true, List.filter_cons_of_neg, List.filter_nil, List.append_nil, true_and]
    constructor
    · exact .inl
    · rintro (read | ⟨m, d, -, small, is, -⟩)
      · exact read
      · exact absurd is (none d small)
  · have kept : [x].filter (fun c => decide (c ≠ gap)) = [x] := by simp [same]
    rw [kept, ← List.cons_append, digits?_concat (List.cons_ne_nil _ _)]
    simp [same]

theorem numeral?_eq_some_iff : numeral? cs = some n ↔ Numeral cs n := by
  constructor
  · intro read
    induction cs using List.reverseRecOn generalizing n with
    | nil => cases read
    | append_singleton cs x ih =>
      by_cases filled : cs = []
      · subst filled
        obtain ⟨small, rfl⟩ := numeral?_single.mp read
        exact .digit small
      · rcases (numeral?_concat filled).mp read with ⟨rfl, front⟩ | ⟨m, d, front, small, rfl, rfl⟩
        · exact .gap (ih front)
        · exact .more (ih front) small
  · intro digits
    have filled : ∀ {cs n}, numeral? cs = some n → cs ≠ [] := by
      rintro _ _ read rfl
      cases read
    induction digits with
    | digit small => exact numeral?_single.mpr ⟨small, rfl⟩
    | more front small ih =>
      exact (numeral?_concat (filled ih)).mpr (.inr ⟨_, _, ih, small, rfl, rfl⟩)
    | gap front ih => exact (numeral?_concat (filled ih)).mpr (.inl ⟨rfl, ih⟩)

/-- The first character is a digit. -/
theorem Numeral.front (digits : Numeral cs n) : ∃ d ds, cs = d :: ds ∧ d.isDigit = true := by
  induction digits with
  | digit small => exact ⟨_, [], rfl, isDigit_digitChar small⟩
  | more front small ih =>
    obtain ⟨d, ds, rfl, digit⟩ := ih
    exact ⟨d, _, rfl, digit⟩
  | gap front ih =>
    obtain ⟨d, ds, rfl, digit⟩ := ih
    exact ⟨d, _, rfl, digit⟩

theorem Numeral.mem (digits : Numeral cs n) (member : c ∈ cs) : c.isDigit = true ∨ c = '_' := by
  induction digits with
  | digit small =>
    rw [List.mem_singleton] at member
    exact .inl (member ▸ isDigit_digitChar small)
  | more front small ih =>
    rcases List.mem_append.mp member with inside | last
    · exact ih inside
    · rw [List.mem_singleton] at last
      exact .inl (last ▸ isDigit_digitChar small)
  | gap front ih =>
    rcases List.mem_append.mp member with inside | last
    · exact ih inside
    · exact .inr (List.mem_singleton.mp last)

theorem Numeral.splitSign (digits : Numeral cs n) : Plc.splitSign cs = (false, cs) := by
  obtain ⟨d, ds, rfl, digit⟩ := digits.front
  unfold Plc.splitSign
  split
  · next is =>
    cases is
    cases digit
  · next is =>
    cases is
    cases digit
  · rfl

theorem integer?_eq_some_iff {n : Int} : integer? cs = some n ↔ IntegerText cs n := by
  constructor
  · intro read
    unfold integer? splitSign at read
    obtain ⟨m, digits, rfl⟩ := Option.map_eq_some_iff.mp read
    have digits := numeral?_eq_some_iff.mp digits
    split at digits
    · exact .minus digits
    · exact .plus digits
    · exact .plain digits
  · rintro (digits | digits | digits)
    · simp [integer?, digits.splitSign, numeral?_eq_some_iff.mpr digits, signed]
    · simp [integer?, splitSign, numeral?_eq_some_iff.mpr digits, signed]
    · simp [integer?, splitSign, numeral?_eq_some_iff.mpr digits, signed]

theorem IntegerText.mem {n : Int} (text : IntegerText cs n) (member : c ∈ cs) :
    c.isDigit = true ∨ c ∈ ['_', '+', '-'] := by
  have inner : ∀ {cs n}, Numeral cs n → c ∈ cs → c.isDigit = true ∨ c ∈ ['_', '+', '-'] := by
    intro cs n digits inside
    rcases digits.mem inside with digit | rfl
    · exact .inl digit
    · exact .inr List.mem_cons_self
  cases text with
  | plain digits => exact inner digits member
  | plus digits | minus digits =>
    rcases List.mem_cons.mp member with rfl | inside
    · exact .inr (by decide)
    · exact inner digits inside

theorem IntegerText.ne_point {n : Int} (text : IntegerText cs n) (member : c ∈ cs) : c ≠ '.' := by
  rintro rfl
  exact absurd (text.mem member) (by decide)

theorem takeWhile_front {p : Char → Bool} (pass : ∀ c ∈ cs, p c = true) (stop : p x = false) :
    (cs ++ x :: ds).takeWhile p = cs := by
  rw [List.takeWhile_append_of_pos pass, List.takeWhile_cons_of_neg (by simp [stop]),
    List.append_nil]

namespace Decimal

variable {front : List Char} {mark : Char} {d : Decimal}

theorem mantissa?_whole (pointless : '.' ∉ cs) :
    mantissa? cs = (integer? cs).map fun n => ⟨n, 0⟩ := by
  have all : ∀ c ∈ cs, decide (c ≠ '.') = true := fun c member =>
    decide_eq_true fun point => pointless (point ▸ member)
  have none : cs.drop (cs.length + 1) = [] := List.drop_eq_nil_of_le (Nat.le_succ _)
  rw [mantissa?, List.takeWhile_eq_self_iff.mpr all, none, List.append_nil]
  rfl

theorem mantissa?_point (pointless : '.' ∉ cs) : mantissa? (cs ++ '.' :: ds) =
    (integer? (cs ++ ds)).map fun n => ⟨n, ds.countP (· ≠ gap)⟩ := by
  have all : ∀ c ∈ cs, decide (c ≠ '.') = true := fun c member =>
    decide_eq_true fun point => pointless (point ▸ member)
  have behind : (cs ++ '.' :: ds).drop (cs.length + 1) = ds := by simp [List.drop_append]
  rw [mantissa?, takeWhile_front all (decide_eq_false fun other => other rfl), behind]

theorem mantissa?_eq_some_iff : mantissa? cs = some d ↔ PlainText cs d := by
  constructor
  · intro read
    by_cases point : '.' ∈ cs
    · obtain ⟨whole, fraction, rfl, pointless⟩ := List.eq_append_cons_of_mem point
      rw [mantissa?_point pointless] at read
      obtain ⟨n, digits, rfl⟩ := Option.map_eq_some_iff.mp read
      exact .point (integer?_eq_some_iff.mp digits)
    · rw [mantissa?_whole point] at read
      obtain ⟨n, digits, rfl⟩ := Option.map_eq_some_iff.mp read
      exact .integer (integer?_eq_some_iff.mp digits)
  · rintro (digits | digits)
    · rw [mantissa?_whole fun member => digits.ne_point member rfl,
        integer?_eq_some_iff.mpr digits]
      rfl
    · next whole fraction n =>
      have pointless : '.' ∉ whole := fun member =>
        digits.ne_point (List.mem_append_left fraction member) rfl
      rw [mantissa?_point pointless, integer?_eq_some_iff.mpr digits]
      rfl

theorem exponent?_eq_some_iff {e : Int} : exponent? cs = some e ↔ IntegerText cs e ∧ '_' ∉ cs := by
  rw [← integer?_eq_some_iff, exponent?]
  split
  · next gaps => simp [show '_' ∈ cs from gaps]
  · next gapless => simp [show '_' ∉ cs from gapless]

theorem isExponentMark_iff : isExponentMark mark = true ↔ mark = 'e' ∨ mark = 'E' := by
  simp [isExponentMark]

/-- No mark of an exponent stands in the rest of a number. -/
theorem unmarked (text : PlainText cs d) : ∀ c ∈ cs, (!isExponentMark c) = true := by
  have inner : ∀ {cs n c}, IntegerText cs n → c ∈ cs → (!isExponentMark c) = true := by
    intro cs n c digits inside
    rw [Bool.not_eq_true', Bool.eq_false_iff, ne_eq, isExponentMark_iff]
    rintro (rfl | rfl)
    · exact absurd (digits.mem inside) (by decide)
    · exact absurd (digits.mem inside) (by decide)
  intro c member
  cases text with
  | integer digits => exact inner digits member
  | point digits =>
    rcases List.mem_append.mp member with whole | behind
    · exact inner digits (List.mem_append_left _ whole)
    rcases List.mem_cons.mp behind with rfl | fraction
    · rfl
    · exact inner digits (List.mem_append_right _ fraction)

theorem ofText?_unmarked (all : ∀ c ∈ cs, (!isExponentMark c) = true) :
    ofText? cs = mantissa? cs := by
  unfold ofText?
  simp only [List.takeWhile_eq_self_iff.mpr all, List.drop_length]

theorem ofText?_marked (all : ∀ c ∈ front, (!isExponentMark c) = true)
    (letter : isExponentMark mark = true) : ofText? (front ++ mark :: ds) = (do
      let d ← mantissa? front
      let e ← exponent? ds
      let scale ← int64? (d.scale - e)
      some ⟨d.unscaled, scale⟩) := by
  have stop : (!isExponentMark mark) = false := by rw [letter, Bool.not_true]
  unfold ofText?
  simp only [takeWhile_front all stop, List.drop_left]

theorem ofText?_eq_some_iff : ofText? cs = some d ↔ DecimalText cs d := by
  constructor
  · intro read
    cases found : cs.find? isExponentMark with
    | none =>
      have all : ∀ c ∈ cs, (!isExponentMark c) = true := by simpa using found
      rw [ofText?_unmarked all] at read
      exact .plain (mantissa?_eq_some_iff.mp read)
    | some mark =>
      obtain ⟨letter, front, ds, rfl, all⟩ := List.find?_eq_some_iff_append.mp found
      rw [ofText?_marked all letter] at read
      simp only [Option.bind_eq_bind, Option.bind_eq_some_iff] at read
      obtain ⟨a, plain, e, exponent, scale, sized, is⟩ := read
      obtain ⟨fits, rfl⟩ := int64?_eq_some_iff.mp sized
      obtain ⟨digits, gapless⟩ := exponent?_eq_some_iff.mp exponent
      cases is
      exact .exponent (mantissa?_eq_some_iff.mp plain) (isExponentMark_iff.mp letter) digits
        gapless fits
  · rintro (plain | ⟨plain, letter, digits, gapless, fits⟩)
    · rw [ofText?_unmarked (unmarked plain), mantissa?_eq_some_iff.mpr plain]
    · rw [ofText?_marked (unmarked plain) (isExponentMark_iff.mpr letter)]
      simp only [mantissa?_eq_some_iff.mpr plain, int64?_of_fits fits,
        exponent?_eq_some_iff.mpr ⟨digits, gapless⟩, Option.bind_eq_bind, Option.bind_some]

end Decimal

theorem meaning_of_escape (known : EscapeOf x c) : Escape.meaning x = c := by
  cases known <;> rfl

theorem escape_of_entry (entry : (x, c) ∈ Escape.table) : EscapeOf x c := by
  simp only [Escape.table, List.mem_cons, Prod.mk.injEq, List.not_mem_nil, or_false] at entry
  rcases entry with ⟨rfl, rfl⟩ | ⟨rfl, rfl⟩ | ⟨rfl, rfl⟩ | ⟨rfl, rfl⟩ | ⟨rfl, rfl⟩ | ⟨rfl, rfl⟩ |
    ⟨rfl, rfl⟩
  · exact .backspace
  · exact .lineFeed
  · exact .carriageReturn
  · exact .tab
  · exact .apostrophe
  · exact .mark
  · exact .backslash

theorem meaning_of_unknown (none : ∀ d, ¬ EscapeOf c d) : Escape.meaning c = c := by
  rw [Escape.meaning]
  cases found : Escape.table.lookup c with
  | none => rfl
  | some d =>
    obtain ⟨before, behind, split, -⟩ := List.lookup_eq_some_iff.mp found
    have entry : (c, d) ∈ Escape.table := split ▸ List.mem_append_right _ List.mem_cons_self
    exact absurd (escape_of_entry entry) (none d)

theorem escape_or_unknown (c : Char) : EscapeOf c (Escape.meaning c) ∨ ∀ d, ¬ EscapeOf c d := by
  by_cases known : ∃ d, EscapeOf c d
  · obtain ⟨d, escape⟩ := known
    exact .inl ((meaning_of_escape escape).symm ▸ escape)
  · exact .inr fun d escape => known ⟨d, escape⟩

theorem means_decode (cs : List Char) : Means cs (Escape.decode cs) := by
  fun_induction Escape.decode cs with
  | case1 => exact .nil
  | case2 c cs ih =>
    rcases escape_or_unknown c with known | none
    · exact .escape known ih
    · rw [meaning_of_unknown none]
      exact .unknown none ih
  | case3 c cs single ih =>
    by_cases slash : c = '\\'
    · cases cs with
      | nil =>
        subst slash
        exact .last
      | cons d ds => exact (single d ds slash rfl).elim
    · exact .plain slash ih

theorem decode_of_means {vs : List Char} (means : Means cs vs) : Escape.decode cs = vs := by
  induction means with
  | nil => rfl
  | plain other rest ih =>
    rw [Escape.decode, ih]
    rintro d ds rfl
    exact absurd rfl other
  | escape known rest ih => rw [Escape.decode, ih, meaning_of_escape known]
  | unknown none rest ih => rw [Escape.decode, ih, meaning_of_unknown none]
  | last => rfl

theorem between_unquoted (text : String) : Between text.toList (Literal.unquoted text) := by
  rw [Literal.unquoted]
  cases text.toList with
  | nil => exact .short (Nat.zero_le _)
  | cons first behind =>
    rw [List.drop_one, List.tail_cons]
    rcases List.eq_nil_or_concat behind with rfl | ⟨cs, last, rfl⟩
    · exact .short (Nat.le_refl _)
    · rw [List.concat_eq_append, List.dropLast_concat]
      exact .quotes

theorem unquoted_of_between {text : String} (between : Between text.toList cs) :
    Literal.unquoted text = cs := by
  rw [Literal.unquoted]
  generalize text.toList = all at between
  cases between with
  | short few =>
    cases all with
    | nil => rfl
    | cons c ds =>
      obtain rfl : ds = [] := List.length_eq_zero_iff.mp (by simpa using few)
      rfl
  | quotes => simp

namespace Literal

variable {text : String} {l : Literal}

theorem ofInteger?_eq_some_iff : ofInteger? text = some l ↔
    ∃ n, IntegerText text.toList n ∧ .integer n = l := by
  simp only [ofInteger?, Option.map_eq_some_iff, integer?_eq_some_iff]

theorem ofDecimal?_eq_some_iff : ofDecimal? text = some l ↔
    ∃ d, DecimalText text.toList d ∧ .decimal d = l := by
  simp only [ofDecimal?, Option.map_eq_some_iff, Decimal.ofText?_eq_some_iff]

theorem ofCharacter?_eq_some_iff : ofCharacter? text = some l ↔
    ∃ c inner, Between text.toList inner ∧ Means inner [c] ∧ .character c = l := by
  unfold ofCharacter?
  constructor
  · intro read
    split at read
    · next c decoded =>
      cases read
      exact ⟨c, _, between_unquoted text, decoded ▸ means_decode _, rfl⟩
    · cases read
  · rintro ⟨c, inner, between, means, rfl⟩
    rw [unquoted_of_between between, decode_of_means means]

theorem ofString_eq_iff : ofString text = l ↔
    ∃ s inner, Between text.toList inner ∧ Means inner s.toList ∧ .string s = l := by
  unfold ofString
  constructor
  · rintro rfl
    refine ⟨_, _, between_unquoted text, ?_, rfl⟩
    rw [String.toList_ofList]
    exact means_decode _
  · rintro ⟨s, inner, between, means, rfl⟩
    rw [unquoted_of_between between, decode_of_means means, String.ofList_toList]

end Literal

end

end Plc

import Plc.Proofs.Literals
import Plc.Value

/-!
Numbers as they are printed. The digits of a number have no zero too many, and where a decimal is
cut at its point there is exactly one digit in front of it or the first of them is not zero, so that
what is printed is one token. Read back, it is the number at its scale.
-/

namespace Plc

open Lexical

section

variable {n : Nat}

theorem digitsOf_eq (n : Nat) : digitsOf n = Nat.toDigits 10 n := Nat.toList_repr

theorem digits_digitsOf (n : Nat) : Digits (digitsOf n) := by
  intro c member
  rw [digitsOf_eq] at member
  exact Nat.isDigit_of_mem_toDigits (by decide) (Nat.le_refl 10) member

theorem digitsOf_ne_nil (n : Nat) : digitsOf n ≠ [] := by
  rw [digitsOf_eq]
  exact List.ne_nil_of_length_pos Nat.length_toDigits_pos

theorem number_of_digitsOf (n : Nat) : Nat.ofDigitChars 10 (digitsOf n) 0 = n := by
  rw [digitsOf_eq, Nat.ofDigitChars_ten_toDigits]

theorem digitChar_ne_zero (small : n < 10) (positive : 0 < n) : n.digitChar ≠ '0' := by
  have all : ∀ m < 10, 0 < m → m.digitChar ≠ '0' := by decide
  exact all n small positive

theorem counting_append {ds es : List Char} (front : Counting ds) (behind : Digits es) :
    Counting (ds ++ es) := by
  cases front with
  | digits first nonzero others =>
    exact .digits first nonzero (List.forall_mem_append.mpr ⟨others, behind⟩)

/-- The first digit stays the same as digits are added at the end, and alone it is not zero. -/
theorem counting_digitsOf (positive : 0 < n) : Counting (digitsOf n) := by
  induction n using Nat.strongRecOn with
  | ind n ih =>
    have digits := digits_digitsOf n
    by_cases small : n < 10
    · rw [digitsOf_eq, Nat.toDigits_of_lt_base small] at digits ⊢
      exact counting_of_head digits (digitChar_ne_zero small positive)
    · have front := ih (n / 10) (by omega) (by omega)
      rw [digitsOf_eq] at front digits ⊢
      rw [Nat.toDigits_of_base_le (by decide) (by omega)] at digits ⊢
      exact counting_append front fun c member => digits c (List.mem_append_right _ member)

theorem counting_take {ds : List Char} {k : Nat} (counting : Counting ds) (some : 0 < k) :
    Counting (ds.take k) := by
  cases counting with
  | @digits d ds first nonzero others =>
    obtain ⟨k, rfl⟩ := Nat.exists_eq_succ_of_ne_zero (Nat.ne_of_gt some)
    exact .digits first nonzero fun c member => others c (List.mem_of_mem_take member)

end

section

variable (n places : Nat)

theorem digits_padded : Digits (Decimal.paddedDigits n places) := by
  intro c member
  rcases List.mem_append.mp member with zero | digit
  · rw [List.eq_of_mem_replicate zero]
    rfl
  · exact digits_digitsOf n c digit

theorem number_of_padded : Nat.ofDigitChars 10 (Decimal.paddedDigits n places) 0 = n := by
  rw [Decimal.paddedDigits, Nat.ofDigitChars_append, Decimal.zeros,
    Nat.ofDigitChars_replicate_zero, Nat.mul_zero, number_of_digitsOf]

theorem length_padded : places < (Decimal.paddedDigits n places).length := by
  simp only [Decimal.paddedDigits, Decimal.zeros, List.length_append, List.length_replicate]
  omega

/-- Where there is padding, one zero of it stands in front of the point. -/
theorem whole_front (some : 0 < places) : Whole ((Decimal.paddedDigits n places).take
    ((Decimal.paddedDigits n places).length - places)) := by
  by_cases padded : (digitsOf n).length ≤ places
  · obtain ⟨k, pad⟩ : ∃ k, places + 1 - (digitsOf n).length = k + 1 :=
      ⟨places - (digitsOf n).length, by omega⟩
    have length : (Decimal.paddedDigits n places).length - places = 1 := by
      simp only [Decimal.paddedDigits, Decimal.zeros, List.length_append, List.length_replicate]
      omega
    rw [length, Decimal.paddedDigits, pad]
    exact .zero
  · have long : 1 < (digitsOf n).length := by omega
    have bare : Decimal.paddedDigits n places = digitsOf n := by
      have pad : places + 1 - (digitsOf n).length = 0 := by omega
      rw [Decimal.paddedDigits, pad]
      rfl
    have positive : 0 < n := by
      apply Nat.pos_of_ne_zero
      rintro rfl
      exact absurd long (by decide)
    rw [bare]
    exact .counting (counting_take (counting_digitsOf positive) (by omega))

end

def signText (n : Int) : List Char := if n < 0 then ['-'] else []

variable {n : Int} {d : Decimal}

theorem sign_signText (n : Int) : Sign (signText n) := by
  unfold signText Sign
  split <;> simp

theorem signed_natAbs (n : Int) : signed (decide (signText n = ['-'])) n.natAbs = n := by
  by_cases negative : n < 0
  · have text : signText n = ['-'] := if_pos negative
    rw [decide_eq_true text, signed, if_pos rfl]
    omega
  · have text : signText n = [] := if_neg negative
    rw [text, signed, if_neg (by simp)]
    omega

theorem toList_toString (n : Int) : (toString n).toList = signText n ++ digitsOf n.natAbs := by
  rw [Int.toString_eq_repr, Int.repr_eq_if, signText, digitsOf]
  by_cases negative : n < 0
  · have same : (-n).toNat = n.natAbs := by omega
    rw [if_neg (by omega), if_pos negative, same]
    simp
  · have same : n.toNat = n.natAbs := by omega
    rw [if_pos (by omega), if_neg negative, same]
    simp

/-- There is no minus in front of a zero. -/
theorem lexeme_integer (n : Int) : Lexeme .integer (signText n ++ digitsOf n.natAbs) := by
  by_cases zero : n = 0
  · subst zero
    exact .zero
  · exact .integer (sign_signText n) (counting_digitsOf (Int.natAbs_pos.mpr zero))

theorem readsAs_integer (n : Int) : ReadsAs (toString n) .integer (.integer n) := by
  have denotes := integerText_signed (sign_signText n) (digits_digitsOf n.natAbs)
    (digitsOf_ne_nil n.natAbs)
  rw [number_of_digitsOf, signed_natAbs] at denotes
  have reads := readsAs_of_lexeme (lexeme_integer n) (literalOf_integer denotes)
  rwa [← toList_toString, String.ofList_toList] at reads

theorem text_of_scale (positive : 1 ≤ d.scale) : ∃ whole places, Whole whole ∧ Digits places ∧
    places.length = d.scale.toNat ∧ Nat.ofDigitChars 10 (whole ++ places) 0 = d.unscaled.natAbs ∧
    d.text = String.ofList (signText d.unscaled ++ (whole ++ '.' :: places)) := by
  have some : 0 < d.scale.toNat := by omega
  have longer := length_padded d.unscaled.natAbs d.scale.toNat
  have digits := digits_padded d.unscaled.natAbs d.scale.toNat
  have front := whole_front d.unscaled.natAbs d.scale.toNat some
  have number := number_of_padded d.unscaled.natAbs d.scale.toNat
  have shape : d.text = String.ofList (signText d.unscaled ++ ((Decimal.paddedDigits
      d.unscaled.natAbs d.scale.toNat).take ((Decimal.paddedDigits d.unscaled.natAbs
      d.scale.toNat).length - d.scale.toNat) ++ '.' :: (Decimal.paddedDigits d.unscaled.natAbs
      d.scale.toNat).drop ((Decimal.paddedDigits d.unscaled.natAbs d.scale.toNat).length -
      d.scale.toNat))) := by
    rw [Decimal.text, if_neg (by omega), ← List.append_assoc]
    rfl
  generalize Decimal.paddedDigits d.unscaled.natAbs d.scale.toNat = ds at *
  refine ⟨_, _, front, fun c member => digits c (List.mem_of_mem_drop member), ?_, ?_, shape⟩
  · rw [List.length_drop]
    omega
  · rw [List.take_append_drop, number]

theorem readsAs_decimal (positive : 1 ≤ d.scale) : ReadsAs d.text .decimal (.decimal d) := by
  obtain ⟨whole, places, before, behind, length, number, shape⟩ := text_of_scale positive
  have filled : places ≠ [] := by
    apply List.ne_nil_of_length_pos
    omega
  have sign := sign_signText d.unscaled
  have lexeme : Lexeme .decimal (signText d.unscaled ++ (whole ++ '.' :: places)) :=
    .decimal sign before filled behind
  have denotes := decimalText_signed sign (digits_of_whole before) (ne_nil_of_whole before) behind
  have scale : (d.scale.toNat : Int) = d.scale := by omega
  rw [number, signed_natAbs, length, scale] at denotes
  rw [shape]
  exact readsAs_of_lexeme lexeme (literalOf_decimal denotes)

/-- Only digits and one point, behind a minus if the number is below zero. -/
theorem plain_decimal (positive : 1 ≤ d.scale) :
    ∃ body, d.text.toList = signText d.unscaled ++ body ∧ body.count '.' = 1 ∧
      ∀ c ∈ body, c.isDigit = true ∨ c = '.' := by
  obtain ⟨whole, places, before, behind, -, -, shape⟩ := text_of_scale positive
  have point : ∀ cs : List Char, Digits cs → cs.count '.' = 0 := by
    intro cs digits
    apply List.count_eq_zero.mpr
    intro member
    cases digits '.' member
  refine ⟨whole ++ '.' :: places, ?_, ?_, ?_⟩
  · rw [shape, String.toList_ofList]
  · rw [List.count_append, List.count_cons_self, point whole (digits_of_whole before),
      point places behind]
  · intro c member
    rcases List.mem_append.mp member with inside | inside
    · exact .inl (digits_of_whole before c inside)
    rcases List.mem_cons.mp inside with rfl | inside
    · exact .inr rfl
    · exact .inl (behind c inside)

theorem text_of_zero_scale (zero : d.scale = 0) : d.text = toString d.unscaled := by
  simp [Decimal.text, Decimal.zeros, zero]

/-- What is printed of a number is one token that is read back as the same number, at the scale that
it has. A decimal has no exponent, and a minus only if it is below zero. -/
theorem numbers_read_back (h : Heap) (depth : Nat) :
    (∀ n : Int, Value.text? h depth (.integer n) = some (toString n) ∧
      ReadsAs (toString n) .integer (.integer n)) ∧
    (∀ d : Decimal, 1 ≤ d.scale → Value.text? h depth (.decimal d) = some d.text ∧
      ReadsAs d.text .decimal (.decimal d) ∧
      ∃ body, d.text.toList = (if d.unscaled < 0 then ['-'] else []) ++ body ∧
        body.count '.' = 1 ∧ ∀ c ∈ body, c.isDigit = true ∨ c = '.') ∧
    ∀ d : Decimal, d.scale = 0 →
      Value.text? h depth (.decimal d) = some (toString d.unscaled) := by
  constructor
  · intro n
    constructor
    · rw [Value.text?]
    · exact readsAs_integer n
  constructor
  · intro d positive
    constructor
    · rw [Value.text?]
    · exact ⟨readsAs_decimal positive, plain_decimal positive⟩
  · intro d zero
    rw [Value.text?, text_of_zero_scale zero]

/-- Minus five hundredths at a scale of three, and ten at a scale of zero. -/
theorem numbers_read_back_small : ReadsAs "-0.050" .decimal (.decimal ⟨-50, 3⟩) ∧
    Value.text? #[] 0 (.decimal ⟨10, 0⟩) = some "10" := by
  obtain ⟨-, decimals, plain⟩ := numbers_read_back #[] 0
  constructor
  · exact (decimals ⟨-50, 3⟩ (by decide)).2.1
  · exact plain ⟨10, 0⟩ rfl

end Plc

import Mathlib.Algebra.Order.Field.Basic
import Mathlib.Algebra.Order.Field.Rat
import Mathlib.Tactic.FieldSimp
import Mathlib.Tactic.Linarith
import Mathlib.Tactic.Positivity
import Mathlib.Tactic.Ring
import Plc.Proofs.Operands

/-!
Division of decimals. The quotient stands at the scale that was asked for and is the decimal there
that is nearest to the quotient of the two numbers; of two nearest it is the one farther from zero.
There is no quotient only where the point would move by more places than 32 bits can count, and none
either where 64 bits are too few for that number of places.
-/

namespace Plc

theorem maxUInt32_eq : maxUInt32 = 2 ^ 32 - 1 := rfl

theorem fitsInt64_iff {n : Int} : FitsInt64 n ↔ -2 ^ 63 ≤ n ∧ n < 2 ^ 63 := Iff.rfl

namespace Decimal

def value (d : Decimal) : ℚ := d.unscaled * 10 ^ (-d.scale)

/-- Of the decimals at this scale, `q` is nearest to `x`, and of two nearest the one farther from
zero. -/
structure Rounds (x : ℚ) (scale : Int) (q : Decimal) : Prop where
  placed : q.scale = scale
  near : |q.value - x| ≤ 10 ^ (-scale) / 2
  tie : |q.value - x| = 10 ^ (-scale) / 2 → |x| < |q.value|

theorem cast_tenTo (n : Nat) : ((tenTo n : Int) : ℚ) = 10 ^ n := by
  simp [tenTo]

def roundedMagnitude (n d : Nat) : Nat := (2 * n + d) / (2 * d)

/-- At most half a divisor is missing or too much, and where it is just half of it, it is too
much. -/
theorem roundedMagnitude_bounds (n : Nat) {d : Nat} (positive : 0 < d) :
    2 * n < 2 * (d * roundedMagnitude n d) + d ∧ 2 * (d * roundedMagnitude n d) ≤ 2 * n + d := by
  have low := Nat.div_mul_le_self (2 * n + d) (2 * d)
  have high := Nat.lt_div_mul_add (a := 2 * n + d) (show 0 < 2 * d by omega)
  have same : (2 * n + d) / (2 * d) * (2 * d) = 2 * (d * roundedMagnitude n d) := by
    rw [roundedMagnitude]
    ring
  rw [same] at low high
  omega

/-- Multiplied by the divisor again, the quotient has the sign of the dividend. -/
theorem roundedQuotient_mul (n d : Int) :
    roundedQuotient n d * d = n.sign * (d.natAbs * roundedMagnitude n.natAbs d.natAbs : Nat) := by
  have divisor : d.sign * d = d.natAbs := Int.sign_mul_self_eq_natAbs d
  calc roundedQuotient n d * d
      = n.sign * (d.sign * d) * roundedMagnitude n.natAbs d.natAbs := by
        rw [roundedQuotient, roundedMagnitude]
        ring
    _ = n.sign * (d.natAbs * roundedMagnitude n.natAbs d.natAbs : Nat) := by
        rw [divisor]
        push_cast
        ring

theorem roundedQuotient_near (n : Int) {d : Int} (nonzero : d ≠ 0) :
    2 * |roundedQuotient n d * d - n| ≤ |d| ∧
      (2 * |roundedQuotient n d * d - n| = |d| → |n| < |roundedQuotient n d * d|) := by
  have bounds := roundedMagnitude_bounds n.natAbs (Int.natAbs_pos.mpr nonzero)
  rw [roundedQuotient_mul]
  simp only [Int.abs_eq_natAbs]
  generalize d.natAbs * roundedMagnitude n.natAbs d.natAbs = product at bounds
  rcases lt_trichotomy n 0 with negative | rfl | positive
  · rw [Int.sign_eq_neg_one_of_neg negative]
    omega
  · rw [Int.sign_zero]
    omega
  · rw [Int.sign_eq_one_of_pos positive]
    omega

theorem roundedQuotient_near_cast (n : Int) {d : Int} (nonzero : d ≠ 0) :
    |(roundedQuotient n d : ℚ) - n / d| ≤ 1 / 2 ∧
      (|(roundedQuotient n d : ℚ) - n / d| = 1 / 2 →
        |(n : ℚ) / d| < |(roundedQuotient n d : ℚ)|) := by
  obtain ⟨near, tie⟩ := roundedQuotient_near n nonzero
  have divisor : (0 : ℚ) < |(d : ℚ)| := abs_pos.mpr (by exact_mod_cast nonzero)
  have different : (d : ℚ) ≠ 0 := by exact_mod_cast nonzero
  have distance : |(roundedQuotient n d : ℚ) - n / d| * |(d : ℚ)| =
      |((roundedQuotient n d * d - n : Int) : ℚ)| := by
    rw [← abs_mul, sub_mul, div_mul_cancel₀ _ different]
    push_cast
    rfl
  constructor
  · rw [← mul_le_mul_iff_of_pos_right divisor, distance]
    have near : 2 * |((roundedQuotient n d * d - n : Int) : ℚ)| ≤ |(d : ℚ)| := by
      exact_mod_cast near
    linarith
  · intro half
    rw [half] at distance
    have exact : 2 * |roundedQuotient n d * d - n| = |d| := by
      have twice : 2 * |((roundedQuotient n d * d - n : Int) : ℚ)| = |(d : ℚ)| := by linarith
      exact_mod_cast twice
    rw [← mul_lt_mul_iff_of_pos_right divisor, ← abs_mul, ← abs_mul, div_mul_cancel₀ _ different]
    exact_mod_cast tie exact

/-- The quotient toward zero, and one more where the remainder is at least half the divisor. -/
theorem roundedMagnitude_eq (n : Nat) {d : Nat} (positive : 0 < d) :
    roundedMagnitude n d = n / d + if d ≤ 2 * (n % d) then 1 else 0 := by
  have parts := Nat.div_add_mod n d
  have small := Nat.mod_lt n positive
  have split : 2 * n + d = 2 * d * (n / d) + (2 * (n % d) + d) := by
    calc 2 * n + d = 2 * (d * (n / d) + n % d) + d := by rw [parts]
      _ = 2 * d * (n / d) + (2 * (n % d) + d) := by ring
  rw [roundedMagnitude, split, Nat.mul_add_div (show 0 < 2 * d by omega)]
  congr 1
  split_ifs with half
  · exact Nat.div_eq_of_lt_le (by omega) (by omega)
  · exact Nat.div_eq_of_lt (by omega)

theorem tdiv_eq_sign_mul (n d : Int) :
    n.tdiv d = n.sign * d.sign * (n.natAbs / d.natAbs : Nat) := by
  rw [← Int.sign_mul_natAbs (n.tdiv d), Int.sign_tdiv, Int.natAbs_tdiv]
  split
  · next less => simp [Nat.div_eq_of_lt less]
  · rfl

/-- The same by truncation: the quotient toward zero, and one farther from it where the remainder is
at least half the divisor. -/
theorem roundedQuotient_eq_tdiv (n : Int) {d : Int} (nonzero : d ≠ 0) :
    roundedQuotient n d =
      if |d| ≤ 2 * |n.tmod d| then
        if n < 0 ↔ d < 0 then n.tdiv d + 1 else n.tdiv d - 1
      else n.tdiv d := by
  have magnitude := roundedMagnitude_eq n.natAbs (Int.natAbs_pos.mpr nonzero)
  have rest : n.natAbs % d.natAbs = (n.tmod d).natAbs := (Int.natAbs_tmod n d).symm
  rw [roundedQuotient, ← roundedMagnitude, magnitude, rest, tdiv_eq_sign_mul]
  simp only [Int.abs_eq_natAbs]
  norm_cast
  split_ifs with half same
  · rcases lt_trichotomy n 0 with hn | rfl | hn
    · have hd := same.mp hn
      simp [Int.sign_eq_neg_one_of_neg, hn, hd]
    · simp at half
      omega
    · have hd : 0 < d := by omega
      simp [Int.sign_eq_one_of_pos, hn, hd]
  · rcases lt_trichotomy n 0 with hn | rfl | hn
    · have hd : 0 < d := by omega
      simp [Int.sign_eq_neg_one_of_neg, Int.sign_eq_one_of_pos, hn, hd]
      omega
    · simp at half
      omega
    · have hd : d < 0 := by omega
      simp [Int.sign_eq_neg_one_of_neg, Int.sign_eq_one_of_pos, hn, hd]
      omega
  · rfl

theorem roundedQuotient_neg_left (n d : Int) : roundedQuotient (-n) d = -roundedQuotient n d := by
  simp [roundedQuotient]

theorem roundedQuotient_neg_right (n d : Int) : roundedQuotient n (-d) = -roundedQuotient n d := by
  simp [roundedQuotient]

section

variable {a b : Decimal} {scale : Int}

/-- The integers whose quotient is that of `a` and `b`, in units of the last place at this scale. -/
def terms (a b : Decimal) (scale : Int) : Int × Int :=
  let shift := scale - a.scale + b.scale
  let factor := tenTo shift.natAbs
  if 0 ≤ shift then (a.unscaled * factor, b.unscaled) else (a.unscaled, b.unscaled * factor)

def quotient (a b : Decimal) (scale : Int) : Decimal :=
  ⟨roundedQuotient (terms a b scale).1 (terms a b scale).2, scale⟩

theorem divide_eq (a b : Decimal) (scale : Int) :
    a.divide b scale =
      if ShiftFits a b scale then
        if (scale - a.scale + b.scale).natAbs ≤ maxUInt32 then .ok (quotient a b scale)
        else .error .tooFar
      else .error .overflow := by
  split
  · next fits =>
    have same : shiftedQuotient a.unscaled b.unscaled (scale - a.scale + b.scale) =
        roundedQuotient (terms a b scale).1 (terms a b scale).2 := by
      unfold shiftedQuotient terms
      by_cases right : 0 ≤ scale - a.scale + b.scale
      · simp only [if_pos right]
      · simp only [if_neg right]
    rw [divide_of_fits fits, same, quotient]
  · next large => exact divide_eq_overflow_iff.mpr large

theorem terms_nonzero (nonzero : b.unscaled ≠ 0) : (terms a b scale).2 ≠ 0 := by
  have factor (n : Nat) : tenTo n ≠ 0 := by simp [tenTo]
  unfold terms
  dsimp only
  split
  · exact nonzero
  · exact mul_ne_zero nonzero (factor _)

theorem value_div_value (a b : Decimal) (scale : Int) : a.value / b.value =
    a.unscaled / b.unscaled * 10 ^ (scale - a.scale + b.scale) * 10 ^ (-scale) := by
  have ten : (10 : ℚ) ≠ 0 := by norm_num
  have places : -a.scale - -b.scale = scale - a.scale + b.scale + -scale := by omega
  rw [value, value, mul_div_mul_comm, ← zpow_sub₀ ten, places, zpow_add₀ ten, mul_assoc]

/-- The quotient of the terms is the quotient of the numbers. -/
theorem terms_quotient (a b : Decimal) (scale : Int) : a.value / b.value =
    ((terms a b scale).1 : ℚ) / ((terms a b scale).2 : ℚ) * 10 ^ (-scale) := by
  rw [value_div_value a b scale, terms]
  generalize scale - a.scale + b.scale = shift
  congr 1
  split
  · next right =>
    have places : (shift.natAbs : Int) = shift := by omega
    push_cast [cast_tenTo]
    rw [← zpow_natCast, places]
    ring
  · next left =>
    have places : (shift.natAbs : Int) = -shift := by omega
    push_cast [cast_tenTo]
    rw [← zpow_natCast, places, zpow_neg]
    field_simp

theorem rounds_quotient (nonzero : b.unscaled ≠ 0) :
    Rounds (a.value / b.value) scale (quotient a b scale) := by
  rw [terms_quotient a b scale, quotient]
  have divisor : (terms a b scale).2 ≠ 0 := terms_nonzero nonzero
  obtain ⟨near, tie⟩ := roundedQuotient_near_cast (terms a b scale).1 divisor
  generalize (terms a b scale).1 = n, (terms a b scale).2 = d at near tie
  have unit : (0 : ℚ) < 10 ^ (-scale) := zpow_pos (by norm_num) _
  have distance : |(⟨roundedQuotient n d, scale⟩ : Decimal).value - n / d * 10 ^ (-scale)| =
      |(roundedQuotient n d : ℚ) - n / d| * 10 ^ (-scale) := by
    rw [value, ← sub_mul, abs_mul, abs_of_pos unit]
  refine ⟨rfl, ?_, fun half => ?_⟩
  · rw [distance]
    calc |(roundedQuotient n d : ℚ) - n / d| * 10 ^ (-scale) ≤ 1 / 2 * 10 ^ (-scale) :=
          mul_le_mul_of_nonneg_right near unit.le
      _ = 10 ^ (-scale) / 2 := by ring
  · rw [distance] at half
    have exact : |(roundedQuotient n d : ℚ) - n / d| = 1 / 2 := by
      apply mul_right_cancel₀ unit.ne'
      rw [half]
      ring
    rw [value, abs_mul, abs_mul]
    exact mul_lt_mul_of_pos_right (tie exact) (abs_pos.mpr unit.ne')

theorem terms_neg_left (a b : Decimal) (scale : Int) :
    terms a.neg b scale = (-(terms a b scale).1, (terms a b scale).2) := by
  have sign : a.neg.unscaled = -a.unscaled := rfl
  have place : a.neg.scale = a.scale := rfl
  by_cases right : 0 ≤ scale - a.scale + b.scale
  · simp only [terms, place, if_pos right, sign, Int.neg_mul]
  · simp only [terms, place, if_neg right, sign]

theorem terms_neg_right (a b : Decimal) (scale : Int) :
    terms a b.neg scale = ((terms a b scale).1, -(terms a b scale).2) := by
  have sign : b.neg.unscaled = -b.unscaled := rfl
  have place : b.neg.scale = b.scale := rfl
  by_cases right : 0 ≤ scale - a.scale + b.scale
  · simp only [terms, place, if_pos right, sign]
  · simp only [terms, place, if_neg right, sign, Int.neg_mul]

/-- Whether there is a quotient depends on the scales alone, and those have no sign. -/
theorem divide_of_quotient_neg {a' b' : Decimal} (left : a'.scale = a.scale)
    (right : b'.scale = b.scale) (sign : quotient a' b' scale = (quotient a b scale).neg) :
    a'.divide b' scale = (a.divide b scale).map neg := by
  have same : ShiftFits a' b' scale ↔ ShiftFits a b scale := by
    unfold ShiftFits
    rw [left, right]
  rw [divide_eq, divide_eq, left, right, sign, if_congr same rfl rfl]
  split
  · split <;> rfl
  · rfl

theorem divide_neg_left (a b : Decimal) (scale : Int) :
    a.neg.divide b scale = (a.divide b scale).map neg :=
  divide_of_quotient_neg rfl rfl (by
    rw [quotient, terms_neg_left, roundedQuotient_neg_left]
    rfl)

theorem divide_neg_right (a b : Decimal) (scale : Int) :
    a.divide b.neg scale = (a.divide b scale).map neg :=
  divide_of_quotient_neg rfl rfl (by
    rw [quotient, terms_neg_right, roundedQuotient_neg_right]
    rfl)

end

end Decimal

/-- Wherever the point moves by no more places than 32 bits can count, the quotient rounds that of
the two numbers; elsewhere there is an error, and where 64 bits are too few on the way to that
number, the division breaks off. A sign on either side is a sign in front. -/
theorem division_rounded (rule : DivisionScale) (a b : Decimal) (scale : Int)
    (nonzero : b.unscaled ≠ 0) :
    (a.ShiftFits b scale →
      if |scale - a.scale + b.scale| ≤ 2 ^ 32 - 1 then
        ∃ q, a.divide b scale = .ok q ∧ q.Rounds (a.value / b.value) scale ∧
          (rule.scaleFor a = scale → Operation.decimals rule .divide a b = .ok (.decimal q))
      else
        a.divide b scale = .error .tooFar ∧
          (rule.scaleFor a = scale → ∃ e, Operation.decimals rule .divide a b = .error (.error e) ∧
            e.message = "Decimal division exceeds the supported scale")) ∧
      (¬ a.ShiftFits b scale → a.divide b scale = .error .overflow ∧
        (rule.scaleFor a = scale → Operation.decimals rule .divide a b = .error .overflow)) ∧
      a.neg.divide b scale = (a.divide b scale).map Decimal.neg ∧
      a.divide b.neg scale = (a.divide b scale).map Decimal.neg := by
  have limit : |scale - a.scale + b.scale| ≤ 2 ^ 32 - 1 ↔
      (scale - a.scale + b.scale).natAbs ≤ maxUInt32 := by
    rw [maxUInt32_eq, Int.abs_eq_natAbs]
    omega
  have zero : b.isZero = false := by simpa [Decimal.isZero] using nonzero
  have known := Decimal.divide_eq a b scale
  refine ⟨fun fits => ?_, fun large => ?_, Decimal.divide_neg_left a b scale,
    Decimal.divide_neg_right a b scale⟩
  · rw [if_pos fits] at known
    split
    · next near =>
      rw [if_pos (limit.mp near)] at known
      refine ⟨_, known, Decimal.rounds_quotient nonzero, fun asked => ?_⟩
      simp only [Operation.decimals, zero, Bool.false_eq_true, if_false, asked, known]
    · next far =>
      rw [if_neg fun near => far (limit.mpr near)] at known
      refine ⟨known, fun asked => ⟨.divisionScale, ?_, rfl⟩⟩
      simp only [Operation.decimals, zero, Bool.false_eq_true, if_false, asked, known]
  · rw [if_neg large] at known
    refine ⟨known, fun asked => ?_⟩
    simp only [Operation.decimals, zero, Bool.false_eq_true, if_false, asked, known]

/-- An eighth at two places lies halfway between two decimals. -/
theorem division_rounded_eighth :
    (⟨13, 2⟩ : Decimal).Rounds ((⟨1, 0⟩ : Decimal).value / (⟨8, 0⟩ : Decimal).value) 2 ∧
      (⟨-1, 0⟩ : Decimal).divide ⟨8, 0⟩ 2 = .ok ⟨-13, 2⟩ ∧
      (⟨1, 0⟩ : Decimal).divide ⟨-8, 0⟩ 2 = .ok ⟨-13, 2⟩ := by
  have known : (⟨1, 0⟩ : Decimal).divide ⟨8, 0⟩ 2 = .ok ⟨13, 2⟩ := by decide
  obtain ⟨rounded, -, left, right⟩ := division_rounded (.fixed 2) ⟨1, 0⟩ ⟨8, 0⟩ 2 (by decide)
  have rounded := rounded (by decide)
  rw [if_pos (by decide)] at rounded
  obtain ⟨q, found, rounds, -⟩ := rounded
  rw [known] at found left right
  cases found
  exact ⟨rounds, left, right⟩

end Plc

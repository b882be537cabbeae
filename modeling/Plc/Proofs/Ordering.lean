import Plc.Proofs.Rounding

/-!
The order of values. Decimals are compared as the numbers that they denote, however they are
written. Two values have an order exactly if they are of one kind and that kind is ordered; the laws
of the order are those of the orders of the kinds.
-/

namespace Plc

namespace Decimal

theorem natAbs_lt_tenTo {b : Int} {k : Nat} (short : b.natAbs.log2 < k) :
    (b.natAbs : Int) < tenTo k := by
  have power : b.natAbs < 2 ^ k := by
    by_cases zero : b.natAbs = 0
    · rw [zero]
      exact Nat.two_pow_pos k
    · exact (Nat.log2_lt zero).mp short
  have ten : 2 ^ k ≤ 10 ^ k := Nat.pow_le_pow_left (by decide) k
  have cast : tenTo k = ((10 ^ k : Nat) : Int) := rfl
  omega

/-- Where the power alone exceeds the other number, the sign decides. -/
theorem compareShifted_eq (a b : Int) (k : Nat) : compareShifted a b k =
    Ord.compare (a * tenTo k) b := by
  unfold compareShifted
  split
  · next zero => rw [zero, Int.zero_mul]
  split
  · next nonzero short =>
    have less := natAbs_lt_tenTo short
    symm
    rcases lt_or_gt_of_ne nonzero with negative | positive
    · rw [compare_lt_iff_lt.mpr negative, compare_lt_iff_lt]
      nlinarith [abs_le.mp (le_of_eq (Int.abs_eq_natAbs b))]
    · rw [compare_gt_iff_gt.mpr positive, compare_gt_iff_gt]
      nlinarith [abs_le.mp (le_of_eq (Int.abs_eq_natAbs b))]
  · rfl

/-- At a scale that is no smaller, the unscaled number is multiplied by a power of ten. -/
theorem value_at (a : Decimal) {scale : Int} (larger : a.scale ≤ scale) :
    a.value = (a.unscaled * tenTo (scale - a.scale).toNat : Int) * (10 : ℚ) ^ (-scale) := by
  have same : ((scale - a.scale).toNat : Int) = scale - a.scale := by omega
  have power : (10 : ℚ) ^ (scale - a.scale).toNat * 10 ^ (-scale) = 10 ^ (-a.scale) := by
    rw [← zpow_natCast, same, ← zpow_add₀ (by norm_num)]
    congr 1
    ring
  rw [Int.cast_mul, cast_tenTo, mul_assoc, power, value]

theorem compare_mul (a b : Int) {factor : ℚ} (positive : 0 < factor) :
    Ord.compare (a * factor) (b * factor) = Ord.compare a b := by
  rcases lt_trichotomy a b with less | rfl | greater
  · have scaled : (a : ℚ) * factor < b * factor :=
      mul_lt_mul_of_pos_right (by exact_mod_cast less) positive
    rw [compare_lt_iff_lt.mpr less, compare_lt_iff_lt.mpr scaled]
  · rw [compare_eq_iff_eq.mpr rfl, compare_eq_iff_eq.mpr rfl]
  · have scaled : (b : ℚ) * factor < a * factor :=
      mul_lt_mul_of_pos_right (by exact_mod_cast greater) positive
    rw [compare_gt_iff_gt.mpr greater, compare_gt_iff_gt.mpr scaled]

theorem compareShifted_value {a b : Decimal} (ordered : a.scale ≤ b.scale) :
    compareShifted a.unscaled b.unscaled (b.scale - a.scale).toNat =
      Ord.compare a.value b.value := by
  have positive : (0 : ℚ) < 10 ^ (-b.scale) := zpow_pos (by norm_num) _
  rw [compareShifted_eq, value_at a ordered, value, compare_mul _ _ positive]

/-- The comparison is that of the numbers. -/
theorem compare_eq (a b : Decimal) : a.compare b = Ord.compare a.value b.value := by
  unfold compare
  split
  · next ordered => exact compareShifted_value ordered
  · next other =>
    rw [compareShifted_value (by omega)]
    exact Std.OrientedOrd.eq_swap.symm

instance : Std.TransCmp Decimal.compare where
  eq_swap := by
    intro a b
    rw [compare_eq, compare_eq]
    exact Std.OrientedOrd.eq_swap
  isLE_trans := by
    intro a b c first second
    rw [compare_eq] at first second ⊢
    exact Std.TransOrd.isLE_trans first second

end Decimal

namespace Value

/-- Two values of one kind that is ordered, and their order. -/
inductive Compared : Value → Value → Ordering → Prop where
  | boolean (a b : Bool) : Compared (.boolean a) (.boolean b) (compare a b)
  | character (a b : Char) : Compared (.character a) (.character b) (compare a b)
  | string (a b : String) : Compared (.string a) (.string b) (compare a b)
  | integer (a b : Int) : Compared (.integer a) (.integer b) (compare a b)
  | decimal (a b : Decimal) : Compared (.decimal a) (.decimal b) (a.compare b)

def Kind.ordered : List Kind := [.boolean, .character, .string, .integer, .decimal]

variable {u v w : Value} {o p : Ordering}

theorem compare?_eq_some : v.compare? w = some o ↔ Compared v w o := by
  constructor
  · intro found
    cases v <;> cases w <;> cases found <;> constructor
  · intro compared
    cases compared <;> rfl

theorem compare?_isSome :
    (v.compare? w).isSome = true ↔ v.kind = w.kind ∧ v.kind ∈ Kind.ordered := by
  cases v <;> cases w <;> simp [compare?, kind, Kind.ordered]

theorem compared_swap (compared : Compared v w o) : Compared w v o.swap := by
  cases compared with
  | boolean a b =>
    rw [← Std.OrientedOrd.eq_swap]
    exact .boolean b a
  | character a b =>
    rw [← Std.OrientedOrd.eq_swap]
    exact .character b a
  | string a b =>
    rw [← Std.OrientedOrd.eq_swap]
    exact .string b a
  | integer a b =>
    rw [← Std.OrientedOrd.eq_swap]
    exact .integer b a
  | decimal a b =>
    rw [← Std.OrientedCmp.eq_swap]
    exact .decimal b a

/-- Compared the other way around, the order is the opposite one. -/
theorem compare?_swap (v w : Value) : w.compare? v = (v.compare? w).map Ordering.swap := by
  cases found : v.compare? w with
  | some o => exact compare?_eq_some.mpr (compared_swap (compare?_eq_some.mp found))
  | none =>
    cases back : w.compare? v with
    | none => rfl
    | some o =>
      have there := compare?_eq_some.mpr (compared_swap (compare?_eq_some.mp back))
      rw [found] at there
      cases there

/-- Of two steps upward at least one of which goes up, the whole goes up. -/
theorem then_of_isLE {α : Type} {cmp : α → α → Ordering} [Std.TransCmp cmp] {a b c : α}
    (first : (cmp a b).isLE = true) (second : (cmp b c).isLE = true) :
    cmp a c = (cmp a b).then (cmp b c) := by
  cases step : cmp a b with
  | lt => exact Std.TransCmp.lt_of_lt_of_isLE step second
  | eq => exact Std.TransCmp.congr_left step
  | gt =>
    rw [step] at first
    cases first

theorem compared_trans (first : Compared u v o) (second : Compared v w p) (up : o.isLE = true)
    (more : p.isLE = true) : Compared u w (o.then p) := by
  cases first with
  | boolean a b =>
    cases second with
    | boolean _ c =>
      rw [← then_of_isLE up more]
      exact .boolean a c
  | character a b =>
    cases second with
    | character _ c =>
      rw [← then_of_isLE up more]
      exact .character a c
  | string a b =>
    cases second with
    | string _ c =>
      rw [← then_of_isLE up more]
      exact .string a c
  | integer a b =>
    cases second with
    | integer _ c =>
      rw [← then_of_isLE up more]
      exact .integer a c
  | decimal a b =>
    cases second with
    | decimal _ c =>
      rw [← then_of_isLE up more]
      exact .decimal a c

/-- Values of ordered kinds are equal exactly if neither is before the other. -/
theorem equal?_of_compared (compared : Compared v w o) (h : Heap) (depth : Nat) :
    v.equal? h depth w = some (o == .eq) := by
  have answer : ∀ {α : Type} [Ord α] [Std.LawfulEqOrd α] [BEq α] [LawfulBEq α] (a b : α),
      (a == b) = (Ord.compare a b == .eq) := by
    intro α _ _ _ _ a b
    rw [Bool.eq_iff_iff, beq_iff_eq, beq_iff_eq, Std.LawfulEqOrd.compare_eq_iff_eq]
  cases compared with
  | boolean a b => rw [equal?, answer]
  | character a b => rw [equal?, answer]
  | string a b => rw [equal?, answer]
  | integer a b => rw [equal?, answer]
  | decimal a b => rw [equal?]

end Value

end Plc

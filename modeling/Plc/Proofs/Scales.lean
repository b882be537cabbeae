import Mathlib.Data.List.MinMax
import Plc.Proofs.Literals
import Plc.Proofs.Overflow
import Plc.Proofs.Rounding
import Plc.Proofs.Syntax.Written

/-!
How large the scales of decimals get. Sums, differences and quotients are written at a scale that
is there already. Only a product may have a larger one, at most twice the largest. So the places
that a program and its division scale start from are doubled at most once for each product of
decimals. As long as this stays below `2 ^ 62`, no sum of scales is too large for its 64 bits and no
run breaks off. Repeated squaring does reach that bound, and the run breaks off at the next product.
-/

namespace Plc

def DivisionScale.places : DivisionScale → Nat
  | .dividend => 0
  | .fixed scale => scale

def Expr.places : Expr → Nat
  | .literal (.decimal d) _ => d.scale.toNat
  | _ => 0

/-- The most places that a literal of the program has, or a quotient gets. -/
def Program.places (p : Program) (rule : DivisionScale) : Nat :=
  max rule.places ((p.expressions.map Expr.places).foldr max 0)

def Event.multiplies : Event → Bool
  | .evaluated (.binary .multiply _ _ _) (.decimal _) => true
  | _ => false

def products (moments : List Moment) : Nat := moments.countP fun x => x.event.multiplies

namespace Decimal

def Fits (d : Decimal) (places : Nat) : Prop := 0 ≤ d.scale ∧ d.scale ≤ places

variable {a b : Decimal} {places : Nat}

theorem fits_mono {more : Nat} (fits : a.Fits places) (le : places ≤ more) : a.Fits more :=
  ⟨fits.1, fits.2.trans (Int.ofNat_le.mpr le)⟩

theorem fits_ofInt (n : Int) (places : Nat) : (ofInt n).Fits places :=
  ⟨Int.le_refl 0, Int.natCast_nonneg places⟩

theorem fits_common (first : a.Fits places) (second : b.Fits places) :
    0 ≤ commonScale a b ∧ commonScale a b ≤ places :=
  ⟨first.1.trans (Int.le_max_left _ _), Int.max_le.mpr ⟨first.2, second.2⟩⟩

theorem fits_add (first : a.Fits places) (second : b.Fits places) : (a.add b).Fits places :=
  fits_common first second

theorem fits_sub (first : a.Fits places) (second : b.Fits places) : (a.sub b).Fits places := by
  unfold sub
  split
  · exact first
  · split
    · exact second
    · exact fits_common first second

/-- A product has the scale of a factor or one that is computed, which has 64 bits. -/
theorem fits_mul {d : Decimal} {cap : Nat} (large : 2 ^ 63 - 1 ≤ cap)
    (first : a.Fits (min places cap)) (second : b.Fits (min places cap))
    (product : a.mul? b = some d) : d.Fits (min (2 * places) cap) := by
  have wider : min places cap ≤ min (2 * places) cap := by omega
  unfold mul? at product
  split at product
  · cases product
    exact fits_mono second wider
  · split at product
    · cases product
      exact fits_mono first wider
    · obtain ⟨scale, sized, rfl⟩ := Option.map_eq_some_iff.mp product
      obtain ⟨fits, rfl⟩ := int64?_eq_some_iff.mp sized
      obtain ⟨low, high⟩ := first
      obtain ⟨low', high'⟩ := second
      obtain ⟨-, most⟩ := fitsInt64_iff.mp fits
      refine ⟨Int.add_nonneg low low', ?_⟩
      dsimp only
      omega

theorem scale_of_divide {scale : Int} {q : Decimal} (quotient : a.divide b scale = .ok q) :
    q.scale = scale := by
  rw [divide_eq] at quotient
  split at quotient
  · split at quotient <;> cases quotient
    rfl
  · cases quotient

end Decimal

theorem DivisionScale.fits_scaleFor {rule : DivisionScale} {a : Decimal} {places : Nat}
    (enough : rule.places ≤ places) (fits : a.Fits places) :
    0 ≤ rule.scaleFor a ∧ rule.scaleFor a ≤ places := by
  cases rule with
  | dividend => exact fits
  | fixed scale => exact ⟨Int.natCast_nonneg scale, Int.ofNat_le.mpr enough⟩

def Operator.growth : Operator → Nat
  | .multiply => 2
  | _ => 1

theorem Operator.le_growth (op : Operator) (places : Nat) : places ≤ op.growth * places :=
  Nat.le_mul_of_pos_left places (by cases op <;> decide)

theorem Value.fits_of_denotes {v : Value} {d : Decimal} {places : Nat} (denotes : v.Denotes d)
    (fits : ∀ a, v = .decimal a → a.Fits places) : d.Fits places := by
  rcases denotes with is | ⟨n, -, rfl⟩
  · exact fits d is
  · exact Decimal.fits_ofInt n places

namespace Operation

variable {rule : DivisionScale} {h : Heap} {op : Operator} {places cap : Nat} {d : Decimal}

theorem decimals_fits {a b : Decimal} (enough : rule.places ≤ min places cap)
    (large : 2 ^ 63 - 1 ≤ cap) (first : a.Fits (min places cap)) (second : b.Fits (min places cap))
    (result : decimals rule op a b = .ok (.decimal d)) : d.Fits (min (op.growth * places) cap) := by
  have grown : min places cap ≤ min (op.growth * places) cap := by
    have most := Operator.le_growth op places
    omega
  unfold decimals at result
  split at result
  · cases result
    exact Decimal.fits_mono (Decimal.fits_sub first second) grown
  · split at result
    · next product =>
      cases result
      exact Decimal.fits_mul large first second product
    · cases result
  · split at result
    · cases result
    · split at result
      · next q quotient =>
        cases result
        have scale := Decimal.scale_of_divide quotient
        have fits := DivisionScale.fits_scaleFor enough first
        exact Decimal.fits_mono ⟨scale ▸ fits.1, scale ▸ fits.2⟩ grown
      · cases result
      · cases result

/-- A decimal comes from two decimals, which integers may stand for. -/
theorem decimals_of_apply {l r : Value} (result : apply rule h op l r = .ok (.decimal d)) :
    ∃ a b, l.Denotes a ∧ r.Denotes b ∧
      (d = a.add b ∨ decimals rule op a b = .ok (.decimal d)) := by
  have strict : op.IsStrict := by
    cases op with
    | and | or => cases result
    | _ => trivial
  have right : RightOrStopped op l.kind r.kind (apply rule h op l r) := apply_right strict l r
  rw [result] at right
  change op.resultKind? l.kind r.kind = some .decimal at right
  cases op with
  | and | or => exact strict.elim
  | equal | notEqual => cases right
  | less | lessEqual | greater | greaterEqual => cases l <;> cases r <;> cases right
  | power => cases l <;> cases r <;> cases right
  | add =>
    cases l <;> cases r <;> cases right
    next a b =>
      cases result
      exact ⟨a, b, .inl rfl, .inl rfl, .inl rfl⟩
  | subtract | multiply | divide =>
    cases l <;> cases r <;> cases right
    · next n b => exact ⟨_, b, .inr ⟨n, rfl, rfl⟩, .inl rfl, .inr result⟩
    · next a n => exact ⟨a, _, .inl rfl, .inr ⟨n, rfl, rfl⟩, .inr result⟩
    · next a b => exact ⟨a, b, .inl rfl, .inl rfl, .inr result⟩

theorem apply_fits {l r : Value} (enough : rule.places ≤ min places cap) (large : 2 ^ 63 - 1 ≤ cap)
    (first : ∀ a, l = .decimal a → a.Fits (min places cap))
    (second : ∀ b, r = .decimal b → b.Fits (min places cap))
    (result : apply rule h op l r = .ok (.decimal d)) : d.Fits (min (op.growth * places) cap) := by
  obtain ⟨a, b, left, right, result⟩ := decimals_of_apply result
  have first := Value.fits_of_denotes left first
  have second := Value.fits_of_denotes right second
  rcases result with rfl | result
  · refine Decimal.fits_mono (Decimal.fits_add first second) ?_
    have most := Operator.le_growth op places
    omega
  · exact decimals_fits enough large first second result

end Operation

def reach (places : Nat) (moments : List Moment) : Nat := places * 2 ^ products moments

theorem reach_cons (places : Nat) (x : Moment) (moments : List Moment) :
    reach places (x :: moments) = (if x.event.multiplies then 2 else 1) * reach places moments := by
  unfold reach products
  rw [List.countP_cons]
  split
  · rw [Nat.pow_succ]
    ring
  · simp

theorem reach_le_cons (places : Nat) (x : Moment) (moments : List Moment) :
    reach places moments ≤ reach places (x :: moments) := by
  rw [reach_cons]
  split <;> omega

theorem reach_product (places : Nat) (op : Operator) (left right : Expr) (slot : Option Ty)
    (d : Decimal) (m : Machine) (moments : List Moment) :
    reach places (⟨.evaluated (.binary op left right slot) (.decimal d), m⟩ :: moments) =
      op.growth * reach places moments := by
  rw [reach_cons]
  cases op <;> rfl

theorem le_reach (places : Nat) (moments : List Moment) : places ≤ reach places moments :=
  Nat.le_mul_of_pos_right places (Nat.two_pow_pos _)

/-- The most places that there may be after these moments, as large as 64 bits allow if there were
not more at first. -/
def room (places : Nat) (moments : List Moment) : Nat :=
  min (reach places moments) (max places (2 ^ 63 - 1))

theorem le_room (places : Nat) (moments : List Moment) : places ≤ room places moments :=
  Nat.le_min.mpr ⟨le_reach places moments, Nat.le_max_left _ _⟩

theorem room_le_cons (places : Nat) (x : Moment) (moments : List Moment) :
    room places moments ≤ room places (x :: moments) :=
  min_le_min_right _ (reach_le_cons places x moments)

def ValueLaw.scales (rule : DivisionScale) (places : Nat) (enough : rule.places ≤ places) :
    ValueLaw rule where
  code e := ∀ d slot, e = .literal (.decimal d) slot → d.Fits places
  valid moments v := ∀ d, v = .decimal d → d.Fits (room places moments)
  lasts x fits d is := Decimal.fits_mono (fits d is) (room_le_cons places x _)
  nil _ _ := nofun
  boolean _ _ _ := nofun
  list _ _ _ := nofun
  literal {l slot} m moments code d is := by
    cases l with
    | decimal a =>
      cases is
      exact Decimal.fits_mono (code d slot rfl) (le_room places _)
    | _ => cases is
  operation {op _ _ _ _ _ _ _} m {moments} first second result d is := by
    subst is
    rw [room, reach_product]
    exact Operation.apply_fits (enough.trans (le_room places moments)) (Nat.le_max_right _ _) first
      second result
  broken _ := True
  overflow _ _ _ := trivial
  later _ _ := trivial

theorem Program.le_places (p : Program) (rule : DivisionScale) : rule.places ≤ p.places rule :=
  Nat.le_max_left _ _

theorem fits_of_check {source : String} {q : Program} (accepted : Source.check source = .ok q)
    (rule : DivisionScale) {d : Decimal} {slot : Option Ty}
    (member : .literal (.decimal d) slot ∈ q.expressions) : d.Fits (q.places rule) := by
  obtain ⟨ts, tokens, t, written, denotes⟩ := written_of_check accepted member
  have positive := scale_of_token tokens written denotes
  have among : d.scale.toNat ∈ q.expressions.map Expr.places := List.mem_map_of_mem member
  have most : d.scale.toNat ≤ q.places rule :=
    (List.le_max_of_le' 0 among (Nat.le_refl _)).trans (Nat.le_max_right rule.places _)
  exact ⟨positive, by omega⟩

theorem fits_of_arises {source : String} {q : Program} (accepted : Source.check source = .ok q)
    (rule : DivisionScale) (fuel : Nat) {moments : List Moment}
    (past : moments <:+ (Machine.fresh.history rule fuel q).moments) {d : Decimal}
    (arises : Arises moments d) : d.Fits (room (q.places rule) moments) := by
  have told : (ValueLaw.scales rule (q.places rule) (q.le_places rule)).Told
      (Machine.fresh.history rule fuel q).moments :=
    ValueLaw.told_run _ fuel fun e member d slot is => fits_of_check accepted rule (is ▸ member)
  rcases arises with ⟨x, member, shows⟩ | ⟨n, rfl⟩
  · -- The law is about the moment that shows it; nothing after that takes places away.
    obtain ⟨later, earlier, rfl⟩ := List.append_of_mem member
    have here : x :: earlier <:+ later ++ x :: earlier := List.suffix_append later _
    have valid := (ValueLaw.told_suffix (here.trans past) told).1 _ shows
    exact ValueLaw.valid_suffix here valid d rfl
  · exact Decimal.fits_ofInt n _

/-- Below half of what 64 bits can count, no product and no quotient breaks off. -/
theorem Operator.not_overflows {rule : DivisionScale} {op : Operator} {a b : Decimal} {places : Nat}
    (few : places < 2 ^ 62) (enough : rule.places ≤ places) (first : a.Fits places)
    (second : b.Fits places) :
    FitsInt64 (a.scale + b.scale) ∧ a.ShiftFits b (rule.scaleFor a) ∧ ¬ op.Overflows rule a b := by
  obtain ⟨scaled, scaled'⟩ := DivisionScale.fits_scaleFor enough first
  obtain ⟨low, high⟩ := first
  obtain ⟨low', high'⟩ := second
  have sum : FitsInt64 (a.scale + b.scale) := fitsInt64_iff.mpr (by omega)
  have shift : a.ShiftFits b (rule.scaleFor a) :=
    ⟨fitsInt64_iff.mpr (by omega), fitsInt64_iff.mpr (by omega)⟩
  refine ⟨sum, shift, fun overflows => ?_⟩
  cases op with
  | multiply => exact overflows.2.2 sum
  | divide => exact overflows.2 shift
  | _ => exact overflows

/-- A decimal never has a negative scale, and none that is larger than its products have made it. As
long as a program has not multiplied decimals too often, no scale overflows: neither the sums that
multiplication computes of two of them, nor the places by which division moves the point; and a run
that has not done so at its end has not broken off. -/
theorem scales_fit {source : String} {q : Program} (accepted : Source.check source = .ok q)
    (rule : DivisionScale) (fuel : Nat) :
    (∀ moments, moments <:+ (Machine.fresh.history rule fuel q).moments → ∀ a b,
      Arises moments a → Arises moments b →
        (0 ≤ a.scale ∧ a.scale ≤ q.places rule * 2 ^ products moments) ∧
        (q.places rule < 2 ^ 63 → a.scale < 2 ^ 63) ∧
        (q.places rule * 2 ^ products moments < 2 ^ 62 →
          FitsInt64 (a.scale + b.scale) ∧ FitsInt64 (rule.scaleFor a - a.scale) ∧
            FitsInt64 (rule.scaleFor a - a.scale + b.scale))) ∧
      ((q.run rule fuel).ending = .overflow →
        2 ^ 62 ≤ q.places rule * 2 ^ products (Machine.fresh.history rule fuel q).moments) := by
  have within : ∀ {moments}, q.places rule * 2 ^ products moments < 2 ^ 62 →
      room (q.places rule) moments < 2 ^ 62 := fun few => (Nat.min_le_left _ _).trans_lt few
  have enough := fun moments => (q.le_places rule).trans (le_room (q.places rule) moments)
  constructor
  · intro moments past a b first second
    have fits := fits_of_arises accepted rule fuel past first
    have fits' := fits_of_arises accepted rule fuel past second
    have reached : room (q.places rule) moments ≤ q.places rule * 2 ^ products moments :=
      Nat.min_le_left _ _
    have capped : room (q.places rule) moments ≤ max (q.places rule) (2 ^ 63 - 1) :=
      Nat.min_le_right _ _
    refine ⟨Decimal.fits_mono fits reached, fun few => ?_, fun few => ?_⟩
    · have most := fits.2
      omega
    · have calm : _ ∧ _ ∧ ¬ Operator.multiply.Overflows rule a b :=
        Operator.not_overflows (within few) (enough moments) fits fits'
      exact ⟨calm.1, calm.2.1⟩
  · intro broken
    by_contra few
    obtain ⟨op, a, b, first, second, overflows⟩ := overflown_of_ending broken
    have fits := fits_of_arises accepted rule fuel List.suffix_rfl first
    have fits' := fits_of_arises accepted rule fuel List.suffix_rfl second
    exact (Operator.not_overflows (within (Nat.lt_of_not_le few)) (enough _) fits fits').2.2
      overflows

def Event.decimal? : Event → Option Decimal
  | .evaluated _ (.decimal d) => some d
  | _ => none

theorem arises_of_decimal? {moments : List Moment} {d : Decimal}
    (shown : ∃ x ∈ moments, x.event.decimal? = some d) : Arises moments d := by
  obtain ⟨x, member, known⟩ := shown
  refine .inl ⟨x, member, .inr (.inr (.inr (.inl ?_)))⟩
  unfold Event.decimal? at known
  split at known
  · next e d event =>
    cases known
    exact ⟨e, event⟩
  · cases known

def twice : String :=
  "FUN main(): Integer DO LET d = 0.1; d = d * d; d = d * d; RETURN 0; END"

/-- Both products are as long as they may be. -/
theorem scales_fit_twice : ∃ q, Source.check twice = .ok q ∧
    q.places .dividend * 2 ^ products (Machine.fresh.history .dividend 20 q).moments = 4 ∧
    ∃ d : Decimal, d.scale = 4 ∧ Arises (Machine.fresh.history .dividend 20 q).moments d ∧
      FitsInt64 (d.scale + d.scale) ∧
      FitsInt64 (DivisionScale.scaleFor .dividend d - d.scale + d.scale) := by
  have known : ∃ q ∈ (Source.check twice).toOption,
      q.places .dividend * 2 ^ products (Machine.fresh.history .dividend 20 q).moments = 4 ∧
        ∃ x ∈ (Machine.fresh.history .dividend 20 q).moments,
          x.event.decimal? = some ⟨1, 4⟩ := by decide +kernel
  obtain ⟨q, accepted, four, shown⟩ := exists_ok known
  have arises := arises_of_decimal? shown
  have few := ((scales_fit accepted .dividend 20).1 _ List.suffix_rfl _ _ arises arises).2.2
  obtain ⟨sum, -, moved⟩ := few (by omega)
  exact ⟨q, accepted, four, ⟨1, 4⟩, rfl, arises, sum, moved⟩

/-- Whatever `d` is, it is less than one. -/
def squaring : String :=
  "FUN main(): Integer DO LET d = 0.1; LET i = 0; WHILE i < 63 DO d = d * d; i = i + 1; END " ++
    "IF d < 1.0 DO RETURN 0; ELSE RETURN 1; END END"

/-- The last product adds two scales of `2 ^ 62`, and the run breaks off. -/
theorem scales_overflow_squaring : ∃ q, Source.check squaring = .ok q ∧
    (∃ d, Arises (Machine.fresh.history .dividend 100 q).moments d ∧
      ¬ FitsInt64 (d.scale + d.scale)) ∧
    (q.run .dividend 100).ending = .overflow := by
  have known : ∃ q ∈ (Source.check squaring).toOption,
      (∃ x ∈ (Machine.fresh.history .dividend 100 q).moments,
        x.event.decimal? = some ⟨1, 2 ^ 62⟩) ∧
      (q.run .dividend 100).ending = .overflow := by decide +kernel
  obtain ⟨q, accepted, shown, ends⟩ := exists_ok known
  exact ⟨q, accepted, ⟨_, arises_of_decimal? shown, by decide⟩, ends⟩

end Plc

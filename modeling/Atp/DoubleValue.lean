import Atp.Rounding

/-!
Arithmetic on finite numbers: the value of a bit pattern, the number nearest to
a rational one, which is what an operation returns, and the conversion to an
integer, which drops the fraction.  The whole part of the nearest number is that of the
rational one, unless that lies less than half a unit below a whole number.
-/

namespace Atp

namespace Double

/-- The value of a finite number. -/
def value (x : Double) : ℚ :=
  (if x.negative then -1 else 1) * (x.numerator / denominator)

/-- The number nearest to `q`, or nothing if that is out of range. -/
def nearest (q : ℚ) : Option Double := ofRatio (q < 0) q.num.natAbs q.den

/-- The whole part of a value. -/
def truncate (q : ℚ) : Int := q.num.tdiv q.den

@[simp] theorem truncate_intCast (k : Int) : truncate k = k := by simp [truncate]

theorem exists_nearest_intCast {k : Int} (hk : k.natAbs < 2 ^ 53) :
    ∃ x, nearest k = some x ∧ x.value = k := by
  have hdenominator : (denominator : ℚ) ≠ 0 := Nat.cast_ne_zero.mpr denominator_ne_zero
  have hnearest : nearest (k : ℚ) = ofRatio (decide (k < 0)) k.natAbs 1 := by
    simp [nearest]
  rw [hnearest]
  rcases Nat.eq_zero_or_pos k.natAbs with hzero | hpos
  · rw [Int.natAbs_eq_zero] at hzero
    subst hzero
    have hnumerator : numerator ⟨0⟩ = 0 := by decide +kernel
    refine ⟨⟨0⟩, by decide +kernel, ?_⟩
    rw [value, hnumerator, Nat.cast_zero, zero_div, mul_zero, Int.cast_zero]
  · obtain ⟨x, hx, hnegative, hnumerator⟩ := exists_ofRatio (decide (k < 0)) hpos hk
    refine ⟨x, hx, ?_⟩
    rw [value, hnegative, hnumerator, Nat.cast_mul, mul_div_cancel_right₀ _ hdenominator]
    rcases lt_or_ge k 0 with hneg | hnonneg
    · have habs : (k.natAbs : ℚ) = -k := by
        rw [← Int.cast_natCast, Int.ofNat_natAbs_of_nonpos hneg.le, Int.cast_neg]
      simp [hneg, habs]
    · have habs : (k.natAbs : ℚ) = k := by
        rw [← Int.cast_natCast, Int.natAbs_of_nonneg hnonneg]
      simp [hnonneg.not_gt, habs]

/-! ### The whole part -/

/-- Half a unit in the last place of a number in the binade of `q`. -/
def halfUlp (q : ℚ) : ℚ := 2 ^ Nat.log2 ⌊q⌋₊ / 2 ^ 53

/-- The whole part of the number nearest to `q`. -/
def wholePart (q : ℚ) : Int := ⌊q + halfUlp q⌋

theorem natAbs_num_div_den {q : ℚ} (hq : 0 ≤ q) : (q.num.natAbs : ℚ) / q.den = q := by
  have habs : (q.num.natAbs : ℚ) = q.num := by
    rw [← Int.cast_natCast, Int.natAbs_of_nonneg (Rat.num_nonneg.mpr hq)]
  rw [habs, Rat.num_div_den]

theorem natFloor_eq {q : ℚ} (hq : 0 ≤ q) : ⌊q⌋₊ = q.num.natAbs / q.den := by
  conv_lhs => rw [← natAbs_num_div_den hq]
  exact Nat.floor_div_eq_div _ _

theorem one_le_div {q : ℚ} (hlow : 1 ≤ q) : 1 ≤ q.num.natAbs / q.den := by
  rw [← natFloor_eq (zero_le_one.trans hlow)]
  exact Nat.le_floor (by exact_mod_cast hlow)

theorem div_lt {q : ℚ} (hq : 0 ≤ q) (hhigh : q < 2 ^ 52) : q.num.natAbs / q.den < 2 ^ 52 := by
  rw [← natFloor_eq hq]
  exact (Nat.floor_lt hq).mpr (by exact_mod_cast hhigh)

theorem truncate_of_nonneg {q : ℚ} (hq : 0 ≤ q) : truncate q = ⌊q⌋ := by
  rw [truncate, Int.tdiv_eq_ediv_of_nonneg (Rat.num_nonneg.mpr hq), Rat.floor_def']

theorem value_of_nearest {q : ℚ} (hq : 0 ≤ q) {x : Double} (hx : nearest q = some x) :
    x.value = (rounded q.num.natAbs q.den * 2 ^ scaleOf q.num.natAbs q.den : Nat) /
      denominator := by
  obtain ⟨hnegative, hnumerator⟩ := of_ofRatio q.den_pos hx
  rw [value, hnegative, hnumerator, decide_eq_false hq.not_gt, if_neg Bool.false_ne_true,
    one_mul]

theorem halfUlp_nonneg (q : ℚ) : 0 ≤ halfUlp q := by
  unfold halfUlp
  positivity

/-- Half a unit is half of the scale. -/
theorem halfUlp_eq {q : ℚ} (hlow : 1 ≤ q) :
    halfUlp q = (2 ^ scaleOf q.num.natAbs q.den : Nat) / (2 * denominator : Nat) := by
  have hq : 0 ≤ q := zero_le_one.trans hlow
  have hdenominator : 2 * denominator = 2 ^ 53 * 2 ^ 1023 := by
    rw [denominator, ← Nat.pow_succ', ← Nat.pow_add]
  have hne : ((2 ^ 1023 : Nat) : ℚ) ≠ 0 := Nat.cast_ne_zero.mpr (Nat.two_pow_pos 1023).ne'
  rw [halfUlp, natFloor_eq hq, scaleOf_eq q.den_pos (one_le_div hlow), hdenominator, Nat.pow_add,
    Nat.cast_mul, Nat.cast_mul, mul_div_mul_right _ _ hne]
  push_cast
  rfl

theorem le_value_iff {q : ℚ} (hlow : 1 ≤ q) (hhigh : q < 2 ^ 52) {x : Double}
    (hx : nearest q = some x) (k : ℕ) : (k : ℚ) ≤ x.value ↔ (k : ℚ) ≤ q + halfUlp q := by
  have hq : 0 ≤ q := zero_le_one.trans hlow
  have hrounded := le_rounded_iff q.den_pos (one_le_div hlow) (div_lt hq hhigh) k
  have hD : (0 : ℚ) < denominator := Nat.cast_pos.mpr (Nat.pos_of_ne_zero denominator_ne_zero)
  have hd : (0 : ℚ) < q.den := Nat.cast_pos.mpr q.den_pos
  have hcast (m : ℕ) : (k : ℚ) * denominator ≤ (m : ℚ) ↔ k * denominator ≤ m := by
    rw [← Nat.cast_mul, Nat.cast_le]
  have h2D : (0 : ℚ) < 2 * denominator := mul_pos two_pos hD
  have hsum : q + (2 ^ scaleOf q.num.natAbs q.den : Nat) / (2 * denominator : Nat) =
      (q.num.natAbs * (2 * denominator) + q.den * (2 ^ scaleOf q.num.natAbs q.den : Nat)) /
        (q.den * (2 * denominator)) := by
    rw [← div_add_div _ _ hd.ne' h2D.ne', natAbs_num_div_den hq, Nat.cast_mul, Nat.cast_ofNat]
  rw [value_of_nearest hq hx, le_div_iff₀ hD, halfUlp_eq hlow, hcast, hrounded, hsum,
    le_div_iff₀ (mul_pos hd h2D), ← @Nat.cast_le ℚ]
  generalize scaleOf q.num.natAbs q.den = scale
  push_cast
  refine iff_of_eq (congrArg₂ _ ?_ ?_)
  · ring
  · ring

theorem truncate_nearest {q : ℚ} (hlow : 1 ≤ q) (hhigh : q < 2 ^ 52) :
    ∃ x, nearest q = some x ∧ truncate x.value = wholePart q := by
  have hq : 0 ≤ q := zero_le_one.trans hlow
  obtain ⟨x, hx⟩ :=
    exists_ofRatio_of_lt q.den_pos (one_le_div hlow) ((div_lt hq hhigh).trans (by decide))
      (decide (q < 0))
  have hnonneg : 0 ≤ x.value := by
    rw [value_of_nearest hq hx]
    exact div_nonneg (Nat.cast_nonneg _) (Nat.cast_nonneg _)
  have hsum : 0 ≤ q + halfUlp q := add_nonneg hq (halfUlp_nonneg q)
  have hfloor : ⌊x.value⌋₊ = ⌊q + halfUlp q⌋₊ := by
    apply Nat.le_antisymm
    · exact Nat.le_floor ((le_value_iff hlow hhigh hx _).mp (Nat.floor_le hnonneg))
    · exact Nat.le_floor ((le_value_iff hlow hhigh hx _).mpr (Nat.floor_le hsum))
  refine ⟨x, hx, ?_⟩
  rw [truncate_of_nonneg hnonneg, wholePart, ← Int.natCast_floor_eq_floor hnonneg,
    ← Int.natCast_floor_eq_floor hsum, hfloor]

/-! ### The nearest number is not far off -/

theorem value_nonpos {q : ℚ} (hq : q < 0) {x : Double} (hx : nearest q = some x) :
    x.value ≤ 0 := by
  obtain ⟨hnegative, -⟩ := of_ofRatio q.den_pos hx
  have hnumerator : (0 : ℚ) ≤ x.numerator / denominator :=
    div_nonneg (Nat.cast_nonneg _) (Nat.cast_nonneg _)
  rw [value, hnegative, decide_eq_true hq, if_pos rfl, neg_one_mul]
  exact neg_nonpos.mpr hnumerator

/-- The nearest number is not far off. -/
theorem value_bounds {q : ℚ} (hq : 0 ≤ q) {x : Double} (hx : nearest q = some x) :
    q ≤ 2 * x.value + 1 ∧ 2 * x.value ≤ 3 * q + 1 := by
  obtain ⟨hlow, hhigh⟩ := rounded_bounds q.num.natAbs q.den_pos
  have hunit := two_mul_unit_le q.num.natAbs q.den_pos
  have hD : (0 : ℚ) < denominator := Nat.cast_pos.mpr (Nat.pos_of_ne_zero denominator_ne_zero)
  have hd : (0 : ℚ) < q.den := Nat.cast_pos.mpr q.den_pos
  have hvalue := value_of_nearest hq hx
  rw [eq_div_iff hD.ne'] at hvalue
  have hratio := natAbs_num_div_den hq
  rw [div_eq_iff hd.ne'] at hratio
  rw [← @Nat.cast_le ℚ] at hlow hhigh hunit
  push_cast at hlow hhigh hunit hvalue
  rw [hratio, ← hvalue] at hlow hhigh
  rw [hratio] at hunit
  have hpos : (0 : ℚ) < q.den * denominator := mul_pos hd hD
  constructor
  · refine le_of_mul_le_mul_right ?_ hpos
    nlinarith
  · refine le_of_mul_le_mul_right ?_ hpos
    nlinarith

end Double

end Atp

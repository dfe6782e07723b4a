import Atp.Double

/-!
Rounding to a whole number of units, ties to even, and which number is nearest to a
ratio: a whole number of units of its binade.  Whole numbers below `2 ^ 53` are exact.
-/

namespace Atp

theorem roundQuot_le {n d k : Nat} (h : 2 * n < (2 * k + 1) * d) : roundQuot n d ≤ k := by
  have hd : 0 < d := Nat.pos_of_ne_zero (by rintro rfl; simp at h)
  have hdiv := Nat.div_add_mod n d
  have hmod := Nat.mod_lt n hd
  have hle : n / d ≤ k := by
    by_contra hlt
    have hmul : d * (k + 1) ≤ d * (n / d) := Nat.mul_le_mul_left d (Nat.lt_of_not_le hlt)
    have hle := Nat.mul_div_le n d
    nlinarith
  have hlast : n / d = k → 2 * (n % d) < d := by
    intro heq
    rw [heq] at hdiv
    nlinarith
  unfold roundQuot
  dsimp only
  split_ifs <;> omega

theorem le_roundQuot {n d k : Nat} (hd : 0 < d) (h : k * d ≤ n) : k ≤ roundQuot n d := by
  have hle : k ≤ n / d := (Nat.le_div_iff_mul_le hd).mpr h
  unfold roundQuot
  dsimp only
  split_ifs <;> omega

theorem roundQuot_le_of_lt {n d k : Nat} (hd : 0 < d) (h : n < k * d) : roundQuot n d ≤ k :=
  roundQuot_le (by nlinarith)

theorem roundQuot_mul_self (n : Nat) {d : Nat} (hd : 0 < d) : roundQuot (n * d) d = n := by
  simp [roundQuot, hd]

/-- Ties go up to even numbers. -/
theorem le_roundQuot_iff_of_even {n d m : Nat} (hd : 0 < d) (hm : m % 2 = 0) :
    m ≤ roundQuot n d ↔ 2 * m * d ≤ 2 * n + d := by
  have hsplit := Nat.div_add_mod n d
  have hrest := Nat.mod_lt n hd
  rw [Nat.mul_comm] at hsplit
  rcases Nat.lt_trichotomy m (n / d + 1) with hlt | rfl | hgt
  · have hle : m * d ≤ n / d * d := Nat.mul_le_mul_right d (by omega)
    refine iff_of_true ?_ ?_
    · exact le_roundQuot hd (by omega)
    · rw [Nat.mul_assoc]
      omega
  · rw [Nat.mul_assoc, Nat.add_mul, Nat.one_mul]
    unfold roundQuot
    dsimp only
    split_ifs <;> omega
  · have hle : (n / d + 2) * d ≤ m * d := Nat.mul_le_mul_right d (by omega)
    rw [Nat.add_mul] at hle
    refine iff_of_false ?_ ?_
    · have hround : roundQuot n d ≤ n / d + 1 :=
        roundQuot_le_of_lt hd (by rw [Nat.add_mul]; omega)
      omega
    · rw [Nat.mul_assoc]
      omega

namespace Double

theorem denominator_ne_zero : denominator ≠ 0 := pow_ne_zero 1075 two_ne_zero

/-- The fields of the pattern put together from an exponent and a fraction. -/
theorem fields_of_bits (negative : Bool) {scale fraction : Nat} (hscale : scale < 2047)
    (hfraction : fraction < 2 ^ 52) :
    let x : Double :=
      ⟨UInt64.ofNat (if negative then 2 ^ 63 + (scale * 2 ^ 52 + fraction)
        else scale * 2 ^ 52 + fraction)⟩
    x.negative = negative ∧ x.exponent = scale ∧ x.fraction = fraction := by
  have hlt : scale * 2 ^ 52 + fraction < 2 ^ 63 := by omega
  have hbits : (UInt64.ofNat (if negative then 2 ^ 63 + (scale * 2 ^ 52 + fraction)
      else scale * 2 ^ 52 + fraction)).toNat =
      if negative then 2 ^ 63 + (scale * 2 ^ 52 + fraction) else scale * 2 ^ 52 + fraction := by
    rw [UInt64.toNat_ofNat']
    apply Nat.mod_eq_of_lt
    split_ifs <;> omega
  simp only [Double.negative, Double.exponent, Double.fraction, hbits]
  cases negative <;> simp <;> omega

def scaleOf (n d : Nat) : Nat := Nat.max 1 (Nat.log2 (n * denominator / d) - 52)

/-- The number of units nearest to `n / d`. -/
def rounded (n d : Nat) : Nat := roundQuot (n * denominator) (d * 2 ^ scaleOf n d)

theorem ofRatio_eq (negative : Bool) (n d : Nat) :
    ofRatio negative n d =
      if (scaleOf n d - 1) * 2 ^ 52 + rounded n d < 2047 * 2 ^ 52 then
        some ⟨UInt64.ofNat (if negative then 2 ^ 63 + ((scaleOf n d - 1) * 2 ^ 52 + rounded n d)
          else (scaleOf n d - 1) * 2 ^ 52 + rounded n d)⟩
      else none := rfl

theorem exists_ofRatio_iff (negative : Bool) (n d : Nat) :
    (∃ x, ofRatio negative n d = some x) ↔
      (scaleOf n d - 1) * 2 ^ 52 + rounded n d < 2047 * 2 ^ 52 := by
  simp only [ofRatio_eq, Option.ite_none_right_eq_some, exists_and_left, Option.some.injEq,
    exists_eq', and_true]

theorem lt_two_pow_scaleOf (n : Nat) {d : Nat} (hd : 0 < d) :
    n * denominator < 2 ^ 53 * (d * 2 ^ scaleOf n d) := by
  have hlog : n * denominator / d < 2 ^ (Nat.log2 (n * denominator / d) + 1) := Nat.lt_log2_self
  have hle : Nat.log2 (n * denominator / d) + 1 ≤ 53 + scaleOf n d := by
    have hmax : Nat.log2 (n * denominator / d) - 52 ≤ scaleOf n d := Nat.le_max_right _ _
    omega
  have hpow : n * denominator / d < 2 ^ (53 + scaleOf n d) :=
    hlog.trans_le (Nat.pow_le_pow_right (by decide) hle)
  have hmul := (Nat.div_lt_iff_lt_mul hd).mp hpow
  calc n * denominator < 2 ^ (53 + scaleOf n d) * d := hmul
    _ = 2 ^ 53 * (d * 2 ^ scaleOf n d) := by ring

/-- Above the smallest numbers, a unit is the last of 53 bits. -/
theorem two_pow_scaleOf_le {n d : Nat} (hd : 0 < d) (hscale : scaleOf n d ≠ 1) :
    2 ^ 52 * (d * 2 ^ scaleOf n d) ≤ n * denominator := by
  have hmax : scaleOf n d = Nat.log2 (n * denominator / d) - 52 := by
    unfold scaleOf at hscale ⊢
    rcases Nat.le_total 1 (Nat.log2 (n * denominator / d) - 52) with h | h
    · exact Nat.max_eq_right h
    · exact absurd (Nat.max_eq_left h) hscale
  have hone : 1 ≤ scaleOf n d := Nat.le_max_left _ _
  have hne : n * denominator / d ≠ 0 := by
    intro hzero
    rw [hzero] at hmax
    have hlog : Nat.log2 0 = 0 := by decide
    omega
  have hlow : 2 ^ Nat.log2 (n * denominator / d) ≤ n * denominator / d := Nat.log2_self_le hne
  have hsum : 52 + scaleOf n d = Nat.log2 (n * denominator / d) := by omega
  rw [← hsum] at hlow
  calc 2 ^ 52 * (d * 2 ^ scaleOf n d) = 2 ^ (52 + scaleOf n d) * d := by ring
    _ ≤ n * denominator := (Nat.le_div_iff_mul_le hd).mp hlow

theorem rounded_le (n : Nat) {d : Nat} (hd : 0 < d) : rounded n d ≤ 2 ^ 53 :=
  roundQuot_le_of_lt (Nat.mul_pos hd (Nat.two_pow_pos _)) (lt_two_pow_scaleOf n hd)

theorem le_rounded {n d : Nat} (hd : 0 < d) (hscale : scaleOf n d ≠ 1) :
    2 ^ 52 ≤ rounded n d :=
  le_roundQuot (Nat.mul_pos hd (Nat.two_pow_pos _)) (two_pow_scaleOf_le hd hscale)

/-- The fields put together give back the number of units. -/
theorem of_ofRatio {negative : Bool} {n d : Nat} (hd : 0 < d) {x : Double}
    (hx : ofRatio negative n d = some x) :
    x.negative = negative ∧ x.numerator = rounded n d * 2 ^ scaleOf n d := by
  have hone : 1 ≤ scaleOf n d := Nat.le_max_left _ _
  have hle := rounded_le n hd
  rw [ofRatio_eq, Option.ite_none_right_eq_some] at hx
  obtain ⟨hfits, hx⟩ := hx
  obtain rfl := Option.some.inj hx
  rcases Nat.lt_or_ge (rounded n d) (2 ^ 52) with hsmall | hlarge
  · -- below the normal numbers
    have hscale : scaleOf n d = 1 := by
      by_contra hne
      exact absurd (le_rounded hd hne) (by omega)
    obtain ⟨hnegative, hexponent, hfraction⟩ := @fields_of_bits negative 0 _ (by decide) hsmall
    rw [hscale]
    refine ⟨hnegative, ?_⟩
    rw [numerator, hexponent, hfraction, if_pos rfl]
    rfl
  · rcases Nat.lt_or_eq_of_le hle with hlt | heq
    · have hsum : (scaleOf n d - 1) * 2 ^ 52 + rounded n d =
          scaleOf n d * 2 ^ 52 + (rounded n d - 2 ^ 52) := by omega
      obtain ⟨hnegative, hexponent, hfraction⟩ :=
        @fields_of_bits negative (scaleOf n d) (rounded n d - 2 ^ 52) (by omega) (by omega)
      rw [hsum]
      refine ⟨hnegative, ?_⟩
      rw [numerator, hexponent, hfraction, if_neg (by omega), Nat.add_sub_cancel' hlarge]
    · -- rounded up to the next binade
      have hsum : (scaleOf n d - 1) * 2 ^ 52 + rounded n d =
          (scaleOf n d + 1) * 2 ^ 52 + 0 := by omega
      obtain ⟨hnegative, hexponent, hfraction⟩ :=
        @fields_of_bits negative (scaleOf n d + 1) 0 (by omega) (by decide)
      rw [hsum]
      refine ⟨hnegative, ?_⟩
      rw [numerator, hexponent, hfraction, if_neg (by omega), heq, Nat.pow_succ]
      ring

section

variable (n : Nat) {d : Nat} (hd : 0 < d)

include hd

theorem rounded_bounds :
    n * denominator ≤ rounded n d * 2 ^ scaleOf n d * d + d * 2 ^ scaleOf n d ∧
      rounded n d * 2 ^ scaleOf n d * d ≤ n * denominator + d * 2 ^ scaleOf n d := by
  have hunit : 0 < d * 2 ^ scaleOf n d := Nat.mul_pos hd (Nat.two_pow_pos _)
  have hsplit := Nat.div_add_mod (n * denominator) (d * 2 ^ scaleOf n d)
  have hrest := Nat.mod_lt (n * denominator) hunit
  have hlow : n * denominator / (d * 2 ^ scaleOf n d) ≤ rounded n d :=
    le_roundQuot hunit (Nat.div_mul_le_self _ _)
  have hhigh : rounded n d ≤ n * denominator / (d * 2 ^ scaleOf n d) + 1 := by
    apply roundQuot_le_of_lt hunit
    rw [Nat.add_mul, Nat.one_mul, Nat.mul_comm (n * denominator / _)]
    omega
  have hcomm : rounded n d * 2 ^ scaleOf n d * d = d * 2 ^ scaleOf n d * rounded n d := by ring
  rw [hcomm]
  have hlow' := Nat.mul_le_mul_left (d * 2 ^ scaleOf n d) hlow
  have hhigh' := Nat.mul_le_mul_left (d * 2 ^ scaleOf n d) hhigh
  rw [Nat.mul_add] at hhigh'
  constructor
  · omega
  · omega

theorem two_mul_unit_le : 2 * (d * 2 ^ scaleOf n d) ≤ d * denominator + n * denominator := by
  by_cases hscale : scaleOf n d = 1
  · have hsmall : 2 ^ 2 ≤ denominator := by
      rw [denominator]
      exact Nat.pow_le_pow_right (by decide) (by omega)
    have hmul := Nat.mul_le_mul_left d hsmall
    rw [hscale]
    omega
  · have hunit := two_pow_scaleOf_le hd hscale
    omega

end

/-! ### Ratios above one -/

section

variable {n d : Nat} (hd : 0 < d) (hone : 1 ≤ n / d)

include hd hone

theorem log2_scaled : Nat.log2 (n * denominator / d) = Nat.log2 (n / d) + 1075 := by
  have hne : n / d ≠ 0 := by omega
  have hlow : 2 ^ Nat.log2 (n / d) * d ≤ n :=
    (Nat.le_div_iff_mul_le hd).mp (Nat.log2_self_le hne)
  have hhigh : n < 2 ^ (Nat.log2 (n / d) + 1) * d :=
    (Nat.div_lt_iff_lt_mul hd).mp Nat.lt_log2_self
  have hpow (k : Nat) : 2 ^ (k + 1075) = 2 ^ k * denominator := by rw [Nat.pow_add, denominator]
  have hle : 2 ^ (Nat.log2 (n / d) + 1075) ≤ n * denominator / d := by
    rw [Nat.le_div_iff_mul_le hd, hpow, Nat.mul_right_comm]
    exact Nat.mul_le_mul_right _ hlow
  have hlt : n * denominator / d < 2 ^ (Nat.log2 (n / d) + 1075 + 1) := by
    rw [Nat.div_lt_iff_lt_mul hd, Nat.add_right_comm, hpow, Nat.mul_right_comm]
    exact Nat.mul_lt_mul_of_pos_right hhigh (Nat.pos_of_ne_zero denominator_ne_zero)
  have hpos : 0 < 2 ^ (Nat.log2 (n / d) + 1075) := Nat.two_pow_pos _
  exact (Nat.log2_eq_iff (by omega)).mpr ⟨hle, hlt⟩

theorem scaleOf_eq : scaleOf n d = Nat.log2 (n / d) + 1023 := by
  rw [scaleOf, log2_scaled hd hone]
  exact (Nat.max_eq_right (by omega)).trans (by omega)

theorem exists_ofRatio_of_lt (hlt : n / d < 2 ^ 53) (negative : Bool) :
    ∃ x, ofRatio negative n d = some x := by
  have hlog : Nat.log2 (n / d) < 53 := (Nat.log2_lt (by omega)).mpr hlt
  have hscale := scaleOf_eq hd hone
  have hle := rounded_le n hd
  apply (exists_ofRatio_iff negative n d).mpr
  omega

variable (hlt : n / d < 2 ^ 52)

include hlt

omit hd in
theorem log2_lt : Nat.log2 (n / d) < 52 :=
  (Nat.log2_lt (by omega)).mpr hlt

/-- A whole number is at most the rounded ratio if it is at most half a unit above the
ratio. -/
theorem le_rounded_iff (k : Nat) : k * denominator ≤ rounded n d * 2 ^ scaleOf n d ↔
    2 * (k * denominator * d) ≤ 2 * (n * denominator) + d * 2 ^ scaleOf n d := by
  have hlog := log2_lt hone hlt
  have hscale := scaleOf_eq hd hone
  obtain ⟨j, hj⟩ : ∃ j, Nat.log2 (n / d) + j = 51 := ⟨51 - Nat.log2 (n / d), by omega⟩
  have hdenominator : denominator = 2 * 2 ^ j * 2 ^ scaleOf n d := by
    have hsum : 1075 = 1 + j + scaleOf n d := by omega
    rw [denominator, hsum, Nat.pow_add, Nat.pow_add]
  have hpos : 0 < 2 ^ scaleOf n d := Nat.two_pow_pos _
  have hunits : k * denominator ≤ rounded n d * 2 ^ scaleOf n d ↔
      2 * (k * 2 ^ j) ≤ rounded n d := by
    have hassoc : k * (2 * 2 ^ j * 2 ^ scaleOf n d) = 2 * (k * 2 ^ j) * 2 ^ scaleOf n d := by
      ring
    rw [hdenominator, hassoc, Nat.mul_le_mul_right_iff hpos]
  rw [hunits, rounded, le_roundQuot_iff_of_even (Nat.mul_pos hd hpos) (by omega)]
  have heq : 2 * (2 * (k * 2 ^ j)) * (d * 2 ^ scaleOf n d) = 2 * (k * denominator * d) := by
    rw [hdenominator]
    ring
  rw [heq]

end

/-! ### Whole numbers -/

theorem rounded_whole {n : Nat} (hpos : 0 < n) (hn : n < 2 ^ 53) :
    rounded n 1 * 2 ^ scaleOf n 1 = n * denominator := by
  have hscale := scaleOf_eq Nat.one_pos (hpos.trans_eq (Nat.div_one n).symm)
  rw [Nat.div_one] at hscale
  have hlog : Nat.log2 n < 53 := (Nat.log2_lt hpos.ne').mpr hn
  obtain ⟨k, hk⟩ : ∃ k, k + scaleOf n 1 = 1075 := ⟨1075 - scaleOf n 1, by omega⟩
  have hdenominator : n * denominator = n * 2 ^ k * 2 ^ scaleOf n 1 := by
    rw [denominator, ← hk, Nat.pow_add, Nat.mul_assoc]
  rw [rounded, hdenominator, Nat.one_mul, roundQuot_mul_self _ (Nat.two_pow_pos _)]

/-- A whole number of at most 53 bits is represented exactly. -/
theorem exists_ofRatio (negative : Bool) {n : Nat} (hpos : 0 < n) (hn : n < 2 ^ 53) :
    ∃ x, ofRatio negative n 1 = some x ∧ x.negative = negative ∧
      x.numerator = n * denominator := by
  have hone : 1 ≤ n / 1 := hpos.trans_eq (Nat.div_one n).symm
  have hlt : n / 1 < 2 ^ 53 := (Nat.div_one n).trans_lt hn
  obtain ⟨x, hx⟩ := exists_ofRatio_of_lt Nat.one_pos hone hlt negative
  obtain ⟨hnegative, hnumerator⟩ := of_ofRatio Nat.one_pos hx
  exact ⟨x, hx, hnegative, hnumerator.trans (rounded_whole hpos hn)⟩

end Double

end Atp

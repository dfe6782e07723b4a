import Atp.LexicalCast
import Atp.Rounding
import Mathlib.Tactic.Linarith
import Mathlib.Tactic.Ring

/-!
What an `ostream` writes for a number is read back by a lexical cast without an
exception: it is a numeral, and six significant digits do not carry a finite
number out of range.
-/

namespace Atp.DoubleText

open Double

/-! ### The range -/

/-- The largest number of six significant digits below the overflow threshold. -/
def sixDigitMax : Nat := 179769 * 10 ^ 303

theorem sixDigitMax_bound :
    2 * sixDigitMax * denominator < (2 * (2 ^ 53 - 1) + 1) * 2 ^ 2046 := by
  decide +kernel

theorem mul_lt_mul_of_bound {n d a b c m : Nat} (hbound : 2 * m * a < b * c) (hd : 0 < d)
    (h : n ≤ m * d) : 2 * (n * a) < b * (d * c) := by
  calc 2 * (n * a) ≤ 2 * (m * d * a) := by gcongr
    _ = 2 * m * a * d := by ring
    _ < b * c * d := by gcongr
    _ = b * (d * c) := by ring

theorem log2_lt_of_lt {n k : Nat} (hk : 0 < k) (h : n < 2 ^ k) : Nat.log2 n < k := by
  rcases Nat.eq_zero_or_pos n with rfl | hpos
  · exact hk
  · exact (Nat.log2_lt hpos.ne').mpr h

theorem isSome_ofRatio (negative : Bool) {n d : Nat} (hd : 0 < d) (h : n ≤ sixDigitMax * d) :
    (ofRatio negative n d).isSome := by
  have hbound := mul_lt_mul_of_bound sixDigitMax_bound hd h
  have hle : scaleOf n d ≤ 2046 := by
    have hlog : Nat.log2 (n * denominator / d) < 53 + 2046 := by
      apply log2_lt_of_lt (by decide)
      rw [Nat.div_lt_iff_lt_mul hd, pow_add, Nat.mul_assoc, Nat.mul_comm _ d]
      generalize d * 2 ^ 2046 = t at hbound
      omega
    exact Nat.max_le.mpr ⟨by decide, by omega⟩
  apply Option.isSome_iff_exists.mpr
  apply (exists_ofRatio_iff negative n d).mpr
  rcases Nat.lt_or_eq_of_le hle with hlt | heq
  · have hmax := rounded_le n hd
    omega
  · rw [rounded, heq]
    have hmax := roundQuot_le hbound
    omega

/-! ### Numerals -/

def tail (x : Option Int) : Text := x.elim [] exponentText

theorem span_digits {xs rest : Text} (hxs : ∀ c ∈ xs, c.isDigit = true)
    (hrest : ∀ c ∈ rest.head?, c.isDigit = false) :
    (xs ++ rest).span Char.isDigit = (xs, rest) := by
  rw [List.span_eq_takeWhile_dropWhile, List.takeWhile_append_of_pos hxs,
    List.dropWhile_append_of_pos hxs]
  cases rest with
  | nil => simp
  | cons c rest => simp [hrest c rfl]

theorem exponent_exponentText (x : Int) : LexicalCast.exponent (exponentText x) = .ok x := by
  have hdigits : LexicalCast.digitsValue
      (if x.natAbs < 10 then '0' :: decimal x.natAbs else decimal x.natAbs) =
        .ok x.natAbs := by
    split_ifs
    · rw [LexicalCast.digitsValue_of_digits _ (List.cons_ne_nil _ _)]
      · exact congrArg _ Nat.ofDigitChars_ten_toDigits
      · intro c hc
        rcases List.mem_cons.mp hc with rfl | hc
        · rfl
        · exact Text.isDigit_of_mem_decimal hc
    · exact LexicalCast.digitsValue_decimal _
  rcases lt_or_ge x 0 with hx | hx
  · have habs : -(x.natAbs : Int) = x := by omega
    simp only [exponentText, hx, ↓reduceIte, LexicalCast.exponent, LexicalCast.takeSign,
      true_or, hdigits]
    exact congrArg Except.ok habs
  · have habs : (x.natAbs : Int) = x := by omega
    simp only [exponentText, not_lt.mpr hx, ↓reduceIte, LexicalCast.exponent,
      LexicalCast.takeSign, true_or, hdigits]
    exact congrArg Except.ok habs

theorem exponent_tail (x : Option Int) : LexicalCast.exponent (tail x) = .ok (x.getD 0) := by
  cases x with
  | none => rfl
  | some x => exact exponent_exponentText x

theorem not_isDigit_head_tail (x : Option Int) : ∀ c ∈ (tail x).head?, c.isDigit = false := by
  cases x with
  | none => simp [tail]
  | some x => simp [tail, exponentText]

theorem takeFraction_withPoint {frac : Text} (hfrac : ∀ c ∈ frac, c.isDigit = true)
    (x : Option Int) :
    LexicalCast.takeFraction (withPoint [] frac ++ tail x) = (frac, tail x) := by
  unfold withPoint
  split_ifs with hnil
  · subst hnil
    cases x <;> rfl
  · exact span_digits hfrac (not_isDigit_head_tail x)

theorem unsignedDouble_numeral (negative : Bool) {whole frac : Text}
    (hwhole : ∀ c ∈ whole, c.isDigit = true) (hne : whole ≠ [])
    (hfrac : ∀ c ∈ frac, c.isDigit = true) (x : Option Int) :
    LexicalCast.unsignedDouble negative (withPoint whole frac ++ tail x) =
      LexicalCast.ofDecimal negative (Nat.ofDigitChars 10 (whole ++ frac) 0)
        (x.getD 0 - frac.length) := by
  have hpoint : withPoint whole frac ++ tail x = whole ++ (withPoint [] frac ++ tail x) := by
    unfold withPoint
    split_ifs <;> simp
  have hhead : ∀ c ∈ (withPoint [] frac ++ tail x).head?, c.isDigit = false := by
    unfold withPoint
    split_ifs
    · exact not_isDigit_head_tail x
    · rintro c ⟨⟩
      rfl
  rw [LexicalCast.unsignedDouble, hpoint, span_digits hwhole hhead]
  simp only [takeFraction_withPoint hfrac, exponent_tail]
  rw [if_neg (List.append_ne_nil_of_left_ne_nil hne _)]
  rfl

/-! ### Numerals in range -/

theorem pow_le_sixDigitMax : 10 ^ 308 ≤ sixDigitMax := by decide +kernel

theorem isOk_ofDecimal_of_le (negative : Bool) {p x : Nat}
    (h : p * 10 ^ x ≤ sixDigitMax) :
    ∃ y, LexicalCast.ofDecimal negative p x = .ok y := by
  rw [← Nat.mul_one sixDigitMax] at h
  obtain ⟨y, hy⟩ := Option.isSome_iff_exists.mp (isSome_ofRatio negative Nat.one_pos h)
  refine ⟨y, ?_⟩
  rw [LexicalCast.ofDecimal, if_pos (Int.natCast_nonneg x), Int.toNat_natCast, hy]
  rfl

theorem isOk_ofDecimal (negative : Bool) {p k : Nat} {x : Int} (hp : p < 10 ^ k)
    (hx : x + k ≤ 308) : ∃ y, LexicalCast.ofDecimal negative p x = .ok y := by
  rcases lt_or_ge x 0 with hneg | hpos
  · have hle : p ≤ sixDigitMax * 10 ^ (-x).toNat := by
      calc p ≤ 10 ^ k := hp.le
        _ ≤ 10 ^ (308 + (-x).toNat) := Nat.pow_le_pow_right (by decide) (by omega)
        _ = 10 ^ 308 * 10 ^ (-x).toNat := pow_add _ _ _
        _ ≤ sixDigitMax * 10 ^ (-x).toNat := Nat.mul_le_mul_right _ pow_le_sixDigitMax
    obtain ⟨y, hy⟩ := Option.isSome_iff_exists.mp
      (isSome_ofRatio negative (Nat.pow_pos (by decide)) hle)
    refine ⟨y, ?_⟩
    rw [LexicalCast.ofDecimal, if_neg (not_le.mpr hneg), hy]
    rfl
  · obtain ⟨x, rfl⟩ := Int.eq_ofNat_of_zero_le hpos
    apply isOk_ofDecimal_of_le
    calc p * 10 ^ x ≤ 10 ^ k * 10 ^ x := Nat.mul_le_mul_right _ hp.le
      _ = 10 ^ (k + x) := (pow_add _ _ _).symm
      _ ≤ 10 ^ 308 := pow_le_pow_right₀ (by decide) (by omega)
      _ ≤ sixDigitMax := pow_le_sixDigitMax

/-- The largest six digits at the largest exponent stay in range, whatever zeros
at the end are left out. -/
theorem isOk_ofDecimal_of_front (negative : Bool) {n k : Nat} {ds rest : Text}
    (hn : n ≤ 179769) (hds : ds ++ rest = decimal n) (hlen : (decimal n).length = 6)
    (hk : ds.length = k + 1) :
    ∃ y, LexicalCast.ofDecimal negative (Nat.ofDigitChars 10 ds 0) (308 - k) = .ok y := by
  have hlen' : rest.length = 5 - k ∧ k ≤ 5 := by
    have := congrArg List.length hds
    rw [List.length_append, hlen] at this
    omega
  have hvalue : 10 ^ rest.length * Nat.ofDigitChars 10 ds 0 ≤ n := by
    have hn' : Nat.ofDigitChars 10 (ds ++ rest) 0 = n := by
      rw [hds]
      exact Nat.ofDigitChars_ten_toDigits
    rw [Nat.ofDigitChars_append, Nat.ofDigitChars_eq_ofDigitChars_zero] at hn'
    exact (Nat.le_add_right _ _).trans_eq hn'
  have hx : (308 - k : Int) = ((308 - k : Nat) : Int) := by omega
  rw [hx]
  apply isOk_ofDecimal_of_le
  have hpow : 308 - k = rest.length + 303 := by omega
  calc Nat.ofDigitChars 10 ds 0 * 10 ^ (308 - k)
      = 10 ^ rest.length * Nat.ofDigitChars 10 ds 0 * 10 ^ 303 := by rw [hpow, pow_add]; ring
    _ ≤ sixDigitMax := by
        unfold sixDigitMax
        gcongr
        exact hvalue.trans hn

/-! ### The text of a number -/

def maxNumerator : Nat := (2 ^ 53 - 1) * 2 ^ 2046

theorem numerator_le {x : Double} (hx : x.isFinite = true) : x.numerator ≤ maxNumerator := by
  have hexponent : x.exponent ≤ 2046 := Nat.le_of_lt_succ (of_decide_eq_true hx)
  have hfraction : x.fraction < 2 ^ 52 := Nat.mod_lt _ (by decide)
  unfold numerator maxNumerator
  split_ifs
  · exact Nat.mul_le_mul (by omega) (Nat.le_self_pow (by decide) 2)
  · exact Nat.mul_le_mul (by omega) (Nat.pow_le_pow_right (by decide) hexponent)

theorem denominator_pos : 0 < denominator := Nat.two_pow_pos 1075

theorem maxNumerator_lt : maxNumerator < 10 ^ 309 * denominator := by
  decide +kernel

theorem two_mul_maxNumerator_lt :
    2 * maxNumerator < (2 * 179769 + 1) * (denominator * 10 ^ 303) := by decide +kernel

theorem log10_le {n : Nat} (hn : n ≤ maxNumerator) : log10 n denominator ≤ 308 := by
  have hdiv : n / denominator < 10 ^ 309 :=
    (Nat.div_lt_iff_lt_mul denominator_pos).mpr (hn.trans_lt maxNumerator_lt)
  have hlen := (Text.length_decimal_le_iff (by decide)).mpr hdiv
  unfold log10
  split_ifs <;> omega

theorem scaled_of_eq {n d k : Nat} {x : Int} (hk : 0 < k) (hx : x = k + 5) :
    scaledTo 6 n d x = roundQuot n (d * 10 ^ k) := by
  have hsub : (x - ((6 : Nat) - 1 : Int)).toNat = k := by omega
  rw [scaledTo, if_neg (by omega), hsub]

theorem scaled_of_log10_eq {n : Nat} (hn : n ≤ maxNumerator)
    (hlog : log10 n denominator = 308) :
    10 ^ 5 ≤ scaledTo 6 n denominator 308 ∧ scaledTo 6 n denominator 308 ≤ 179769 := by
  have hmax := (Nat.mul_le_mul_left 2 hn).trans_lt two_mul_maxNumerator_lt
  have hpos := denominator_pos
  generalize denominator = d at hlog hmax hpos
  have hlarge : 10 ^ (5 + 303) * d ≤ n := by
    unfold log10 at hlog
    split_ifs at hlog
    · have hlen : ¬ (decimal (n / d)).length ≤ 5 + 303 := by omega
      rw [Text.length_decimal_le_iff (by decide), not_lt, Nat.le_div_iff_mul_le hpos] at hlen
      exact hlen
    · omega
  rw [@scaled_of_eq n d 303 308 (by decide) (by decide)]
  constructor
  · apply le_roundQuot (Nat.mul_pos hpos (Nat.pow_pos (by decide)))
    rwa [pow_add, Nat.mul_assoc, Nat.mul_comm _ d] at hlarge
  · exact roundQuot_le hmax

theorem significant_cases {n : Nat} (hn : n ≤ maxNumerator) :
    (significantTo 6 n denominator).2 ≤ 307 ∨
      (significantTo 6 n denominator).2 = 308 ∧
        10 ^ 5 ≤ (significantTo 6 n denominator).1 ∧
        (significantTo 6 n denominator).1 ≤ 179769 := by
  have hle := log10_le hn
  have hmax := scaled_of_log10_eq hn
  generalize denominator = d at hle hmax
  unfold significantTo
  dsimp only
  split_ifs with hcarry
  · rcases hle.lt_or_eq with hlt | heq
    · rcases (Int.le_sub_one_of_lt hlt).lt_or_eq with hlt | heq
      · exact .inl (by omega)
      · exact .inr ⟨by omega, by norm_num, by norm_num⟩
    · have hscaled := (hmax heq).2
      rw [heq] at hcarry
      omega
  · rcases hle.lt_or_eq with hlt | heq
    · exact .inl (by omega)
    · rw [heq]
      exact .inr ⟨rfl, hmax heq⟩

theorem stripZeros_front (s : Text) : stripZeros s <+: s := List.rdropWhile_prefix _ s

theorem isDigit_append {xs ys : Text} (hxs : ∀ c ∈ xs, c.isDigit = true)
    (hys : ∀ c ∈ ys, c.isDigit = true) : ∀ c ∈ xs ++ ys, c.isDigit = true :=
  List.forall_mem_append.mpr ⟨hxs, hys⟩

theorem isDigit_take (n k : Nat) : ∀ c ∈ (decimal n).take k, c.isDigit = true :=
  fun _ hc => Text.isDigit_of_mem_decimal (List.mem_of_mem_take hc)

theorem isDigit_stripZeros (n k : Nat) :
    ∀ c ∈ stripZeros ((decimal n).drop k), c.isDigit = true :=
  fun _ hc => Text.isDigit_of_mem_decimal (List.mem_of_mem_drop ((stripZeros_front _).subset hc))

theorem take_decimal_ne_nil (n k : Nat) : (decimal n).take (k + 1) ≠ [] := by
  intro hnil
  rcases List.take_eq_nil_iff.mp hnil with hzero | hnil
  · cases hzero
  · exact Text.decimal_ne_nil _ hnil

/-- A numeral with one digit before the point and an exponent is in range. -/
theorem isOk_scientific (negative : Bool) {digits : Nat} {x : Int}
    (hcases : x ≤ 307 ∨ x = 308 ∧ 10 ^ 5 ≤ digits ∧ digits ≤ 179769) :
    ∃ y, LexicalCast.ofDecimal negative
      (Nat.ofDigitChars 10 ((decimal digits).take 1 ++ stripZeros ((decimal digits).drop 1)) 0)
      (x - (stripZeros ((decimal digits).drop 1)).length) = .ok y := by
  have hlen : ((decimal digits).take 1).length = 1 := by
    rw [List.length_take]
    have := List.length_pos_iff.mpr (Text.decimal_ne_nil digits)
    omega
  rcases hcases with hx | ⟨rfl, hlow, hhigh⟩
  · have hdigits := isDigit_append (isDigit_take digits 1) (isDigit_stripZeros digits 1)
    apply isOk_ofDecimal negative (Text.ofDigitChars_lt hdigits)
    rw [List.length_append, hlen]
    omega
  · obtain ⟨zeros, hzeros⟩ := stripZeros_front ((decimal digits).drop 1)
    have hsix : (decimal digits).length = 6 := by
      have hle : (decimal digits).length ≤ 6 :=
        (Text.length_decimal_le_iff (by decide)).mpr (hhigh.trans_lt (by decide))
      have hnot : ¬ (decimal digits).length ≤ 5 := by
        rw [Text.length_decimal_le_iff (by decide)]
        exact not_lt.mpr hlow
      omega
    refine @isOk_ofDecimal_of_front negative _ _ _ zeros hhigh ?_ hsix ?_
    · rw [List.append_assoc, hzeros, List.take_append_drop]
    · rw [List.length_append, hlen, Nat.add_comm]

/-- The text of a positive number is a numeral, whose value is in range. -/
theorem general_numeral {n : Nat} (hn : n ≤ maxNumerator) (negative : Bool) :
    ∃ whole frac x, generalTo 6 n denominator = withPoint whole frac ++ tail x ∧
      (∀ c ∈ whole, c.isDigit = true) ∧ whole ≠ [] ∧ (∀ c ∈ frac, c.isDigit = true) ∧
      ∃ y, LexicalCast.ofDecimal negative (Nat.ofDigitChars 10 (whole ++ frac) 0)
        (x.getD 0 - frac.length) = .ok y := by
  have hcases := significant_cases hn
  unfold generalTo
  generalize significantTo 6 n denominator = r at hcases
  obtain ⟨digits, x⟩ := r
  dsimp only
  split_ifs with hscientific hpos
  · exact ⟨_, _, some x, rfl, isDigit_take _ 1, take_decimal_ne_nil _ 0,
      isDigit_stripZeros _ 1, isOk_scientific negative hcases⟩
  · refine ⟨_, _, none, (List.append_nil _).symm, isDigit_take _ _, take_decimal_ne_nil _ _,
      isDigit_stripZeros _ _, ?_⟩
    have hdigits := isDigit_append (isDigit_take digits (x.toNat + 1))
      (isDigit_stripZeros digits (x.toNat + 1))
    apply isOk_ofDecimal negative (Text.ofDigitChars_lt hdigits)
    have hle := List.length_take_le (x.toNat + 1) (decimal digits)
    rw [List.length_append, Option.getD_none]
    omega
  · have hzero : ∀ c ∈ ['0'], c.isDigit = true := List.forall_mem_singleton.mpr rfl
    have hzeros : ∀ c ∈ List.replicate (-x - 1).toNat '0', c.isDigit = true := by
      intro c hc
      rw [List.eq_of_mem_replicate hc]
      rfl
    have hfrac := isDigit_append hzeros (isDigit_stripZeros digits 0)
    rw [List.drop_zero] at hfrac
    refine ⟨_, _, none, (List.append_nil _).symm, hzero, List.cons_ne_nil _ _, hfrac, ?_⟩
    apply isOk_ofDecimal negative (Text.ofDigitChars_lt (isDigit_append hzero hfrac))
    rw [List.singleton_append, List.length_cons, Option.getD_none]
    omega

theorem takeSign_of_head {c : Char} {s : Text} (hminus : c ≠ '-') (hplus : c ≠ '+') :
    LexicalCast.takeSign (c :: s) = (false, c :: s) := by
  unfold LexicalCast.takeSign
  split
  · rename_i heq
    exact absurd (List.cons.inj heq).1 hminus
  · rename_i heq
    exact absurd (List.cons.inj heq).1 hplus
  · rfl

def Readable (s : Text) : Prop :=
  (∃ c t, s = c :: t ∧ c ≠ '-' ∧ c ≠ '+') ∧
    (LexicalCast.isInfinity s = true ∨ LexicalCast.isNan s = true ∨
      ∀ negative, ∃ y, LexicalCast.unsignedDouble negative s = .ok y)

theorem readable_general {n : Nat} (hn : n ≤ maxNumerator) :
    Readable (generalTo 6 n denominator) := by
  constructor
  · obtain ⟨whole, frac, x, htext, hwhole, hne, -⟩ := general_numeral hn false
    obtain ⟨c, whole, rfl⟩ := List.exists_cons_of_ne_nil hne
    have hc := hwhole c List.mem_cons_self
    refine ⟨c, ?_, htext.trans ?_, ?_, ?_⟩
    · exact (withPoint (c :: whole) frac ++ tail x).tail
    · unfold withPoint
      split_ifs <;> rfl
    · rintro rfl
      cases hc
    · rintro rfl
      cases hc
  · refine .inr (.inr fun negative => ?_)
    obtain ⟨whole, frac, x, htext, hwhole, hne, hfrac, hvalue⟩ := general_numeral hn negative
    rwa [htext, unsignedDouble_numeral negative hwhole hne hfrac]

theorem readable_zero : Readable ['0'] := by
  refine ⟨⟨_, _, rfl, by decide, by decide⟩, .inr (.inr fun negative => ?_)⟩
  have hzero := @unsignedDouble_numeral negative ['0'] [] (List.forall_mem_singleton.mpr rfl)
    (List.cons_ne_nil _ _) (by simp) none
  obtain ⟨y, hy⟩ := @isOk_ofDecimal negative 0 1 0 (by decide) (by decide)
  exact ⟨y, hzero.trans hy⟩

theorem isOk_double {s : Text} (hs : Readable s) (negative : Bool) :
    ∃ y, LexicalCast.double ((if negative then ['-'] else []) ++ s) = .ok y := by
  obtain ⟨⟨c, t, rfl, hminus, hplus⟩, hread⟩ := hs
  have hsign : LexicalCast.takeSign ((if negative then ['-'] else []) ++ c :: t) =
      (negative, c :: t) := by
    cases negative with
    | true => rfl
    | false => exact takeSign_of_head hminus hplus
  rw [LexicalCast.double, hsign]
  dsimp only
  split_ifs with hinf hnan
  · exact ⟨_, rfl⟩
  · exact ⟨_, rfl⟩
  · rcases hread with h | h | h
    · exact absurd h hinf
    · exact absurd h hnan
    · exact h negative

/-- What is written for a number is read back as a number. -/
theorem double_text (x : Double) : ∃ y, LexicalCast.double x.text = .ok y := by
  refine isOk_double ?_ x.negative
  split_ifs with hfinite hinf hzero
  · exact ⟨⟨_, _, rfl, by decide, by decide⟩, .inl (by decide)⟩
  · exact ⟨⟨_, _, rfl, by decide, by decide⟩, .inr (.inl (by decide))⟩
  · exact readable_zero
  · exact readable_general (numerator_le (by simpa using hfinite))

def IsNumeral (c : Char) : Prop := c.isDigit = true ∨ c ∈ ".-+einfa".toList

theorem isNumeral_append {s t : Text} (hs : ∀ c ∈ s, IsNumeral c) (ht : ∀ c ∈ t, IsNumeral c) :
    ∀ c ∈ s ++ t, IsNumeral c := fun c hc => (List.mem_append.mp hc).elim (hs c) (ht c)

theorem isNumeral_cons {c : Char} {s : Text} (hc : IsNumeral c) (hs : ∀ c ∈ s, IsNumeral c) :
    ∀ d ∈ c :: s, IsNumeral d := List.forall_mem_cons.mpr ⟨hc, hs⟩

theorem isNumeral_of_digits {s : Text} (hs : ∀ c ∈ s, c.isDigit = true) :
    ∀ c ∈ s, IsNumeral c := fun c hc => .inl (hs c hc)

theorem isNumeral_decimal (n : Nat) : ∀ c ∈ decimal n, IsNumeral c :=
  isNumeral_of_digits fun _ => Text.isDigit_of_mem_decimal

theorem isNumeral_tail (x : Option Int) : ∀ c ∈ tail x, IsNumeral c := by
  cases x with
  | none => exact fun c hc => absurd hc List.not_mem_nil
  | some x =>
      refine isNumeral_cons (.inr (by decide)) (isNumeral_cons (.inr ?_) ?_)
      · split_ifs <;> decide
      · split_ifs
        · exact isNumeral_cons (.inl (by decide)) (isNumeral_decimal _)
        · exact isNumeral_decimal _

theorem isNumeral_general {n : Nat} (hn : n ≤ maxNumerator) :
    ∀ c ∈ generalTo 6 n denominator, IsNumeral c := by
  obtain ⟨whole, frac, x, htext, hwhole, -, hfrac, -⟩ := general_numeral hn false
  rw [htext]
  refine isNumeral_append ?_ (isNumeral_tail x)
  unfold withPoint
  split_ifs
  · exact isNumeral_of_digits hwhole
  · exact isNumeral_append (isNumeral_of_digits hwhole)
      (isNumeral_cons (.inr (by decide)) (isNumeral_of_digits hfrac))

theorem isNumeral_text (x : Double) : ∀ c ∈ x.text, IsNumeral c := by
  have hword : ∀ s : Text, (s.all fun c => ".-+einfa".toList.elem c) = true →
      ∀ c ∈ s, IsNumeral c :=
    fun s hs c hc => .inr (List.elem_iff.mp (List.all_eq_true.mp hs c hc))
  refine isNumeral_append ?_ ?_
  · split_ifs
    · exact hword _ (by decide)
    · exact fun c hc => absurd hc List.not_mem_nil
  · split_ifs with hfinite hinf hzero
    · exact hword _ (by decide)
    · exact hword _ (by decide)
    · exact isNumeral_decimal 0
    · exact isNumeral_general (numerator_le (by simpa using hfinite))

end Atp.DoubleText

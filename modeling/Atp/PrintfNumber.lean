import Atp.DoubleText
import Atp.Json

/-!
Numbers as `printf` writes them.  Integers and finite floating point numbers are numbers
of a JSON text, infinities and NaNs are not.
-/

namespace Atp

namespace Double

/-! ### Length -/

theorem length_decimal_pos (n : Nat) : 0 < (decimal n).length :=
  List.length_pos_iff.mpr (Text.decimal_ne_nil n)

/-- A ratio is below the power of ten that comes after its exponent. -/
theorem log10_cases {n d : Nat} (hn : 0 < n) (hd : 0 < d) :
    (∃ k : Nat, log10 n d = k ∧ n < 10 ^ (k + 1) * d) ∨
      ∃ k : Nat, log10 n d = -((k + 1 : Nat) : Int) ∧ n * 10 ^ k < d := by
  unfold log10
  split_ifs with hle
  · obtain ⟨k, hk⟩ := Nat.exists_eq_succ_of_ne_zero (length_decimal_pos (n / d)).ne'
    refine .inl ⟨k, by omega, ?_⟩
    exact (Nat.div_lt_iff_lt_mul hd).mp
      ((Text.length_decimal_le_iff (Nat.succ_pos k)).mp hk.le)
  · obtain ⟨k, hk⟩ := Nat.exists_eq_succ_of_ne_zero (length_decimal_pos ((d + n - 1) / n - 1)).ne'
    refine .inr ⟨k, by rw [hk], ?_⟩
    have hquot : n * ((d + n - 1) / n) ≤ d + n - 1 := Nat.mul_div_le _ _
    have htwo : 2 ≤ (d + n - 1) / n := (Nat.le_div_iff_mul_le hn).mpr (by omega)
    have hpow : 10 ^ k ≤ (d + n - 1) / n - 1 := by
      rcases Nat.eq_zero_or_pos k with rfl | hpos
      · exact Nat.le_sub_one_of_lt htwo
      · rw [← Nat.not_lt, ← Text.length_decimal_le_iff hpos]
        omega
    have hmul := Nat.mul_le_mul_left n (Nat.add_le_of_le_sub (Nat.le_of_lt htwo) hpow)
    rw [Nat.mul_add, Nat.mul_one] at hmul
    omega

theorem scaledTo_log10_le {p : Nat} (hp : 0 < p) {n d : Nat} (hn : 0 < n) (hd : 0 < d) :
    scaledTo p n d (log10 n d) ≤ 10 ^ p := by
  unfold scaledTo
  rcases log10_cases hn hd with ⟨k, hlog, hlt⟩ | ⟨k, hlog, hlt⟩
  · rw [hlog]
    split_ifs with hle
    · have hpow : p = k + 1 + ((p : Int) - 1 - k).toNat := by omega
      apply roundQuot_le_of_lt hd
      calc n * 10 ^ ((p : Int) - 1 - k).toNat
          < 10 ^ (k + 1) * d * 10 ^ ((p : Int) - 1 - k).toNat :=
            Nat.mul_lt_mul_of_pos_right hlt (Nat.pow_pos (by decide))
        _ = 10 ^ (k + 1 + ((p : Int) - 1 - k).toNat) * d := by rw [pow_add]; ring
        _ = 10 ^ p * d := by rw [← hpow]
    · have hpow : k + 1 = p + (k - ((p : Int) - 1)).toNat := by omega
      apply roundQuot_le_of_lt (Nat.mul_pos hd (Nat.pow_pos (by decide)))
      calc n < 10 ^ (k + 1) * d := hlt
        _ = 10 ^ p * (d * 10 ^ (k - ((p : Int) - 1)).toNat) := by rw [hpow, pow_add]; ring
  · have hle : -((k + 1 : Nat) : Int) ≤ (p : Int) - 1 := by omega
    have hpow : ((p : Int) - 1 - -((k + 1 : Nat) : Int)).toNat = k + p := by omega
    rw [hlog, if_pos hle, hpow]
    apply roundQuot_le_of_lt hd
    calc n * 10 ^ (k + p) = 10 ^ p * (n * 10 ^ k) := by rw [pow_add]; ring
      _ < 10 ^ p * d := Nat.mul_lt_mul_of_pos_left hlt (Nat.pow_pos (by decide))

theorem length_significantTo_le {p : Nat} (hp : 0 < p) {n d : Nat} (hn : 0 < n) (hd : 0 < d) :
    (decimal (significantTo p n d).1).length ≤ p := by
  have hle := scaledTo_log10_le hp hn hd
  rw [Text.length_decimal_le_iff hp]
  unfold significantTo
  dsimp only
  split_ifs with hcarry
  · exact Nat.pow_lt_pow_right (by decide) (Nat.sub_lt hp Nat.one_pos)
  · exact Nat.lt_of_le_of_ne hle hcarry

theorem natAbs_significantTo_lt (p : Nat) {n : Nat} (hpos : 0 < n)
    (hn : n ≤ DoubleText.maxNumerator) : (significantTo p n denominator).2.natAbs < 1000 := by
  have hhigh := DoubleText.log10_le hn
  have hlow : -324 ≤ log10 n denominator := by
    rcases log10_cases hpos DoubleText.denominator_pos with ⟨k, hlog, -⟩ | ⟨k, hlog, hlt⟩
    · omega
    · have hpow : 10 ^ k < 10 ^ 324 := by
        calc 10 ^ k ≤ n * 10 ^ k := Nat.le_mul_of_pos_left _ hpos
          _ < denominator := hlt
          _ < 10 ^ 324 := by decide +kernel
      have hk := (Nat.pow_lt_pow_iff_right (by decide)).mp hpow
      omega
  generalize denominator = d at hhigh hlow ⊢
  unfold significantTo
  dsimp only
  split_ifs <;> omega

theorem length_exponentText_le {x : Int} (hx : x.natAbs < 1000) :
    (exponentText x).length ≤ 5 := by
  have hlength : (decimal x.natAbs).length ≤ 3 := (Text.length_decimal_le_iff (by decide)).mpr hx
  have hpadded :
      (if x.natAbs < 10 then '0' :: decimal x.natAbs else decimal x.natAbs).length ≤ 3 := by
    split_ifs with hten
    · rw [Text.decimal_of_lt hten]
      exact Nat.le_succ 2
    · exact hlength
  rw [exponentText, List.length_cons, List.length_cons]
  omega

theorem length_withPoint_le (whole frac : Text) :
    (withPoint whole frac).length ≤ whole.length + (frac.length + 1) := by
  unfold withPoint
  split_ifs
  · omega
  · rw [List.length_append, List.length_cons]

theorem length_stripZeros_le (s : Text) : (stripZeros s).length ≤ s.length :=
  (DoubleText.stripZeros_front s).length_le

theorem length_generalTo_le {p : Nat} (hp : 0 < p) {n : Nat} (hpos : 0 < n)
    (hn : n ≤ DoubleText.maxNumerator) : (generalTo p n denominator).length ≤ p + 6 := by
  have hlength := length_significantTo_le hp hpos DoubleText.denominator_pos
  have hexponent := natAbs_significantTo_lt p hpos hn
  unfold generalTo
  generalize significantTo p n denominator = r at hlength hexponent ⊢
  obtain ⟨digits, x⟩ := r
  have hdecimal := length_decimal_pos digits
  dsimp only at hlength hexponent ⊢
  split_ifs with hscientific hpoint
  · have htext := length_exponentText_le hexponent
    have hpoint := length_withPoint_le ((decimal digits).take 1)
      (stripZeros ((decimal digits).drop 1))
    have hstrip := length_stripZeros_le ((decimal digits).drop 1)
    rw [List.length_take] at hpoint
    rw [List.length_drop] at hstrip
    rw [List.length_append]
    omega
  · have hpoint := length_withPoint_le ((decimal digits).take (x.toNat + 1))
      (stripZeros ((decimal digits).drop (x.toNat + 1)))
    have hstrip := length_stripZeros_le ((decimal digits).drop (x.toNat + 1))
    rw [List.length_take] at hpoint
    rw [List.length_drop] at hstrip
    omega
  · have hpoint := length_withPoint_le ['0']
      (List.replicate (-x - 1).toNat '0' ++ stripZeros (decimal digits))
    have hstrip := length_stripZeros_le (decimal digits)
    rw [List.length_append, List.length_replicate, List.length_singleton] at hpoint
    omega

/-- A sign, the digits, a point and an exponent, or zeros after a point. -/
theorem length_textTo_le {p : Nat} (hp : 0 < p) (x : Double) : (x.textTo p).length ≤ p + 7 := by
  have hsign : (if x.negative then ['-'] else ([] : Text)).length ≤ 1 := by
    split_ifs <;> simp
  have htext : (if !x.isFinite then (if x.fraction = 0 then ['i', 'n', 'f'] else ['n', 'a', 'n'])
      else if x.numerator = 0 then ['0']
      else generalTo p x.numerator denominator).length ≤ p + 6 := by
    split_ifs with hfinite hinf hzero
    · exact Nat.le_add_left_of_le (by decide)
    · exact Nat.le_add_left_of_le (by decide)
    · exact Nat.le_add_left_of_le (by decide)
    · exact length_generalTo_le hp (Nat.pos_of_ne_zero hzero)
        (DoubleText.numerator_le (by simpa using hfinite))
  rw [textTo, List.length_append]
  omega

end Double

namespace Json

open DoubleText

theorem whole_take_decimal (n k : Nat) : Whole ((decimal n).take (k + 1)) := by
  rcases Nat.eq_zero_or_pos n with rfl | hpos
  · have hzero : decimal 0 = ['0'] := rfl
    exact .inl (by rw [hzero, List.take_succ_cons, List.take_nil])
  · refine .inr ⟨⟨take_decimal_ne_nil n k, isDigit_take n (k + 1)⟩, ?_⟩
    rw [List.head?_take, if_neg (Nat.succ_ne_zero k)]
    exact Text.head?_decimal hpos

theorem whole_decimal (n : Nat) : Whole (decimal n) := by
  have hwhole := whole_take_decimal n (decimal n).length
  rwa [List.take_of_length_le (Nat.le_succ _)] at hwhole

theorem exponent_exponentText (x : Int) : Exponent (Double.exponentText x) := by
  have hdecimal : ∀ c ∈ decimal x.natAbs, c.isDigit = true := fun _ => Text.isDigit_of_mem_decimal
  have hdigits :
      Digits (if x.natAbs < 10 then '0' :: decimal x.natAbs else decimal x.natAbs) := by
    split_ifs
    · exact ⟨List.cons_ne_nil _ _, List.forall_mem_cons.mpr ⟨rfl, hdecimal⟩⟩
    · exact ⟨Text.decimal_ne_nil _, hdecimal⟩
  refine .inr ⟨'e', [if x < 0 then '-' else '+'], _, rfl, .inl rfl, ?_, hdigits⟩
  split_ifs
  · exact .inr (.inr rfl)
  · exact .inr (.inl rfl)

section

variable {sign whole frac exponent : Text} (hsign : sign = [] ∨ sign = ['-'])

include hsign

theorem number_of_whole (hwhole : Whole whole) : Number (sign ++ whole) :=
  ⟨sign, whole, [], [], by simp, hsign, hwhole, .inl rfl, .inl rfl⟩

theorem number_withPoint (hwhole : Whole whole) (hfrac : ∀ c ∈ frac, c.isDigit = true)
    (hexponent : Exponent exponent) :
    Number (sign ++ (Double.withPoint whole frac ++ exponent)) := by
  unfold Double.withPoint
  split_ifs with hnil
  · exact ⟨sign, whole, [], exponent, rfl, hsign, hwhole, .inl rfl, hexponent⟩
  · rw [List.append_assoc]
    exact ⟨sign, whole, '.' :: frac, exponent, rfl, hsign, hwhole, .inr ⟨frac, rfl, hnil, hfrac⟩,
      hexponent⟩

theorem number_generalTo (p n d : Nat) : Number (sign ++ Double.generalTo p n d) := by
  unfold Double.generalTo
  generalize Double.significantTo p n d = r
  obtain ⟨digits, x⟩ := r
  dsimp only
  split_ifs
  · exact number_withPoint hsign (whole_take_decimal digits 0) (isDigit_stripZeros digits 1)
      (exponent_exponentText x)
  · have hnumber := number_withPoint hsign (whole_take_decimal digits x.toNat)
      (isDigit_stripZeros digits (x.toNat + 1)) (.inl rfl)
    rwa [List.append_nil] at hnumber
  · have hzeros : ∀ c ∈ List.replicate (-x - 1).toNat '0', c.isDigit = true := by
      intro c hc
      rw [List.eq_of_mem_replicate hc]
      rfl
    have hnumber := number_withPoint hsign (.inl rfl)
      (isDigit_append hzeros (isDigit_stripZeros digits 0)) (.inl rfl)
    rwa [List.append_nil, List.drop_zero] at hnumber

end

theorem number_decimal (n : Nat) : Number (decimal n) :=
  number_of_whole (.inl rfl) (whole_decimal n)

theorem number_integer (v : Int) : Number (integer v) := by
  unfold integer
  split_ifs
  · exact number_of_whole (.inr rfl) (whole_decimal _)
  · exact number_decimal _

theorem sign_cases (negative : Bool) :
    (if negative then ['-'] else []) = ([] : Text) ∨
      (if negative then ['-'] else []) = (['-'] : Text) := by
  cases negative with
  | true => exact .inr rfl
  | false => exact .inl rfl

theorem number_textTo (p : Nat) {x : Double} (hx : x.isFinite = true) : Number (x.textTo p) := by
  have hsign := sign_cases x.negative
  rw [Double.textTo, hx, Bool.not_true, if_neg Bool.false_ne_true]
  generalize (if x.negative then ['-'] else []) = sign at hsign ⊢
  split_ifs with hzero
  · exact number_of_whole hsign (.inl rfl)
  · exact number_generalTo hsign _ _ _

/-- A word with a letter that begins no value, or with a sign before the letter. -/
theorem not_value_word {sign : Text} (hsign : sign = [] ∨ sign = ['-']) {c d : Char} {u t : Text}
    {v : Json} (hc : c = 'i' ∨ c = 'n' ∧ d = 'a') : ¬ Value (sign ++ c :: d :: u) v t := by
  have hletter : c.isDigit = false ∧ c ≠ '-' ∧ c ≠ '[' ∧ c ≠ '{' ∧ c ≠ 't' ∧ c ≠ 'f' ∧ c ≠ '"' := by
    rcases hc with rfl | ⟨rfl, -⟩ <;> decide
  obtain ⟨hdigit, hminus, harray, hobject, htrue, hfalse, hquote⟩ := hletter
  intro hv
  rcases hsign with rfl | rfl
  · rcases value_cons hv harray hobject with
      ⟨rfl, hnull⟩ | ⟨h, -⟩ | ⟨h, -⟩ | ⟨h, -⟩ | ⟨h | ⟨h, -⟩, -⟩
    · rcases hc with hc | ⟨-, rfl⟩
      · exact absurd hc (by decide)
      · exact absurd (List.cons.inj hnull).1 (by decide)
    · exact htrue h
    · exact hfalse h
    · exact hquote h
    · exact Bool.false_ne_true (hdigit.symm.trans h)
    · exact hminus h
  · rcases value_cons hv (by decide) (by decide) with
      ⟨h, -⟩ | ⟨h, -⟩ | ⟨h, -⟩ | ⟨h, -⟩ | ⟨h | ⟨-, e, he, h⟩, -⟩
    · cases h
    · cases h
    · cases h
    · cases h
    · cases h
    · obtain rfl := Option.some.inj he
      exact Bool.false_ne_true (hdigit.symm.trans h)

/-- An infinity or a NaN has no text in JSON. -/
theorem not_value_textTo (p : Nat) {x : Double} (hx : x.isFinite = false) (rest : Text) (v : Json)
    (t : Text) : ¬ Value (x.textTo p ++ rest) v t := by
  have hsign := sign_cases x.negative
  rw [Double.textTo, hx, Bool.not_false, if_pos rfl]
  generalize (if x.negative then ['-'] else []) = sign at hsign ⊢
  rw [List.append_assoc]
  split_ifs
  · exact not_value_word hsign (.inl rfl)
  · exact not_value_word hsign (.inr ⟨rfl, rfl⟩)

end Json

end Atp

import Atp.LexicalCast

/-!
The time of day as `now_micros` gives it: an integer, and a string.
-/

namespace Atp

/-- `timeval`, as `gettimeofday` fills it in. -/
structure TimeVal where
  tvSec : Int64
  tvUsec : Int64
  usec_nonneg : 0 ≤ tvUsec.toInt
  usec_lt : tvUsec.toInt < 1000000

namespace NowMicros

open LexicalCast

def nowMicros (tv : TimeVal) : UInt64 :=
  tv.tvSec.toUInt64 * 1000000 + tv.tvUsec.toUInt64

/-- `now_micros(string*)`. -/
def nowMicrosString (tv : TimeVal) : Text := integer tv.tvSec.toInt ++ integer tv.tvUsec.toInt

/-- Microseconds since the epoch. -/
def micros (tv : TimeVal) : Int := tv.tvSec.toInt * 1000000 + tv.tvUsec.toInt

def number (s : Text) : Except BadLexicalCast Int := do
  let (negative, s) := takeSign s
  let n ← digitsValue s
  .ok (signed negative n)

structure Agrees (tv : TimeVal) : Prop where
  integer : ((nowMicros tv).toNat : Int) = micros tv
  string : number (nowMicrosString tv) = .ok (micros tv)

/-- The strings of two readings, as numbers, are in the order of the readings. -/
def Increasing (tv tv' : TimeVal) : Prop :=
  micros tv < micros tv' → ∃ n n', number (nowMicrosString tv) = .ok n ∧
    number (nowMicrosString tv') = .ok n' ∧ n < n'

/-- The readings whose microseconds have six digits, or come after no seconds. -/
structure Exact (tv : TimeVal) : Prop where
  sec_nonneg : 0 ≤ tv.tvSec.toInt
  fits : micros tv < 18446744073709551616
  six_digits : tv.tvSec.toInt = 0 ∨ 100000 ≤ tv.tvUsec.toInt

/-! ### The integer -/

theorem toNat_nowMicros {tv : TimeVal} (hsec : 0 ≤ tv.tvSec.toInt) :
    ((nowMicros tv).toNat : Int) = micros tv % 18446744073709551616 := by
  have hs := LexicalCast.toNat_toUInt64 hsec
  have hu := LexicalCast.toNat_toUInt64 tv.usec_nonneg
  have hsum : (nowMicros tv).toNat =
      (tv.tvSec.toUInt64.toNat * 1000000 + tv.tvUsec.toUInt64.toNat) % 18446744073709551616 := by
    rw [nowMicros, UInt64.toNat_add, UInt64.toNat_mul, Nat.mod_add_mod]
    rfl
  rw [hsum, micros, ← hs, ← hu]
  push_cast
  rfl

theorem nowMicros_eq_iff {tv : TimeVal} :
    ((nowMicros tv).toNat : Int) = micros tv ↔
      0 ≤ tv.tvSec.toInt ∧ micros tv < 18446744073709551616 := by
  have husec := tv.usec_lt
  constructor
  · intro heq
    have hlt : (nowMicros tv).toNat < 18446744073709551616 := (nowMicros tv).toNat_lt
    have hnonneg : 0 ≤ tv.tvSec.toInt * 1000000 + tv.tvUsec.toInt := by
      change 0 ≤ micros tv
      omega
    exact ⟨by omega, by omega⟩
  · rintro ⟨hsec, hfits⟩
    have hnonneg : 0 ≤ micros tv :=
      Int.add_nonneg (Int.mul_nonneg hsec (by decide)) tv.usec_nonneg
    rw [toNat_nowMicros hsec, Int.emod_eq_of_lt hnonneg hfits]

/-! ### The string -/

/-- The seconds are moved to the left by as many digits as the microseconds have. -/
theorem number_nowMicrosString {tv : TimeVal} (hsec : 0 ≤ tv.tvSec.toInt) :
    number (nowMicrosString tv) =
      .ok (tv.tvSec.toInt * 10 ^ (decimal tv.tvUsec.toInt.natAbs).length +
        tv.tvUsec.toInt) := by
  have hs : integer tv.tvSec.toInt = decimal tv.tvSec.toInt.natAbs :=
    if_neg (Int.not_lt.mpr hsec)
  have hu : integer tv.tvUsec.toInt = decimal tv.tvUsec.toInt.natAbs :=
    if_neg (Int.not_lt.mpr tv.usec_nonneg)
  have hdigits : ∀ c ∈ nowMicrosString tv, c.isDigit = true := by
    rw [nowMicrosString, hs, hu]
    exact List.forall_mem_append.mpr
      ⟨fun _ => Text.isDigit_of_mem_decimal, fun _ => Text.isDigit_of_mem_decimal⟩
  have hne : nowMicrosString tv ≠ [] := by
    rw [nowMicrosString, hs]
    exact List.append_ne_nil_of_left_ne_nil (Text.decimal_ne_nil _) _
  have hvalue : Nat.ofDigitChars 10 (nowMicrosString tv) 0 =
      tv.tvSec.toInt.natAbs * 10 ^ (decimal tv.tvUsec.toInt.natAbs).length +
        tv.tvUsec.toInt.natAbs := by
    rw [nowMicrosString, hs, hu, Nat.ofDigitChars_append, Nat.ofDigitChars_eq_ofDigitChars_zero,
      decimal, decimal, Nat.ofDigitChars_ten_toDigits, Nat.ofDigitChars_ten_toDigits, Nat.mul_comm]
  rw [number, takeSign_of_digits hdigits]
  simp only [digitsValue_of_digits hdigits hne, ok_bind, hvalue]
  refine congrArg Except.ok ?_
  change ((_ + _ : Nat) : Int) = _
  push_cast
  rw [abs_of_nonneg hsec, abs_of_nonneg tv.usec_nonneg]

theorem six_digits_iff (tv : TimeVal) :
    (decimal tv.tvUsec.toInt.natAbs).length = 6 ↔ 100000 ≤ tv.tvUsec.toInt := by
  have hnonneg := tv.usec_nonneg
  have hlt := tv.usec_lt
  have hsix := Text.length_decimal_le_iff (n := tv.tvUsec.toInt.natAbs) (k := 6) (by decide)
  have hfive := Text.length_decimal_le_iff (n := tv.tvUsec.toInt.natAbs) (k := 5) (by decide)
  omega

theorem number_eq_micros_iff {tv : TimeVal} (hsec : 0 ≤ tv.tvSec.toInt) :
    number (nowMicrosString tv) = .ok (micros tv) ↔
      tv.tvSec.toInt = 0 ∨ 100000 ≤ tv.tvUsec.toInt := by
  have hpow : (10 : Int) ^ (decimal tv.tvUsec.toInt.natAbs).length = 1000000 ↔
      (decimal tv.tvUsec.toInt.natAbs).length = 6 :=
    (Int.pow_right_injective (a := 10) (by decide)).eq_iff (b := 6)
  rw [number_nowMicrosString hsec, Except.ok.injEq, micros, Int.add_left_inj,
    mul_eq_mul_left_iff, hpow, six_digits_iff, or_comm]

/-! ### Both -/

theorem agrees_iff (tv : TimeVal) : Agrees tv ↔ Exact tv := by
  constructor
  · intro h
    obtain ⟨hsec, hfits⟩ := nowMicros_eq_iff.mp h.integer
    exact ⟨hsec, hfits, (number_eq_micros_iff hsec).mp h.string⟩
  · intro h
    exact ⟨nowMicros_eq_iff.mpr ⟨h.sec_nonneg, h.fits⟩,
      (number_eq_micros_iff h.sec_nonneg).mpr h.six_digits⟩

theorem increasing_of_agrees {tv tv' : TimeVal} (h : Agrees tv) (h' : Agrees tv') :
    Increasing tv tv' := fun hlt => ⟨micros tv, micros tv', h.string, h'.string, hlt⟩

theorem now_micros_agree_iff (tv tv' : TimeVal) :
    (Agrees tv ∧ Agrees tv' ∧ Increasing tv tv') ↔ Exact tv ∧ Exact tv' := by
  rw [← agrees_iff, ← agrees_iff]
  constructor
  · rintro ⟨h, h', -⟩
    exact ⟨h, h'⟩
  · rintro ⟨h, h'⟩
    exact ⟨h, h', increasing_of_agrees h h'⟩

/-- Five microseconds after the second second come before the end of the first one,
as strings go. -/
theorem now_micros_disagree :
    ∃ tv tv' : TimeVal, micros tv < micros tv' ∧
      number (nowMicrosString tv) = .ok 1999999 ∧ number (nowMicrosString tv') = .ok 25 ∧
      nowMicros tv' = 2000005 ∧ ¬ Agrees tv' ∧ ¬ Increasing tv tv' := by
  have hlate : number (nowMicrosString ⟨2, 5, by decide, by decide⟩) = .ok 25 := by decide
  have hearly : number (nowMicrosString ⟨1, 999999, by decide, by decide⟩) = .ok 1999999 := by
    decide
  refine ⟨⟨1, 999999, by decide, by decide⟩, ⟨2, 5, by decide, by decide⟩, by decide, hearly,
    hlate, by decide, ?_, ?_⟩
  · intro h
    exact absurd (Except.ok.inj (hlate.symm.trans h.string)) (by decide)
  · intro h
    obtain ⟨n, n', hn, hn', hlt⟩ := h (by decide)
    obtain rfl := Except.ok.inj (hearly.symm.trans hn)
    obtain rfl := Except.ok.inj (hlate.symm.trans hn')
    exact absurd hlt (by decide)

end NowMicros

end Atp

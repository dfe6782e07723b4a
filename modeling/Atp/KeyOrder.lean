import Atp.HistorianKeys

/-!
The order of keys and the order of their times.  A time is written without leading
zeros, so the keys of times with different numbers of digits compare by the first
digits of the times.
-/

namespace Atp.KeyOrder

open HistorianKeys

def digits (t : UInt64) : Nat := (decimal t.toNat).length

/-- The number that the first `n` digits of `t` make. -/
def leading (n : Nat) (t : UInt64) : Nat := t.toNat / 10 ^ (digits t - n)

/-- The time with fewer digits is not above the first digits of the other one, as
many as it has itself. -/
def Comparable (a b : UInt64) : Prop :=
  (digits a < digits b → a.toNat ≤ leading (digits a) b) ∧
    (digits b < digits a → b.toNat ≤ leading (digits b) a)

/-- Each kind of key is smaller for `a` than for `b` exactly if `a` is smaller. -/
structure KeysInOrder (symbol event : Text) (a b : UInt64) : Prop where
  marketData : marketDataKey symbol a < marketDataKey symbol b ↔ a < b
  marketDepth : marketDepthKey symbol a < marketDepthKey symbol b ↔ a < b
  sessionLog : sessionLogTimeKey symbol a < sessionLogTimeKey symbol b ↔ a < b
  index : buildIndexKey symbol event a < buildIndexKey symbol event b ↔ a < b

theorem decimal_order_iff_comparable (a b : UInt64) :
    (decimal a.toNat < decimal b.toNat ↔ a < b) ↔ Comparable a b := by
  rw [UInt64.lt_iff_toNat_lt]
  rcases lt_trichotomy (digits a) (digits b) with hlt | heq | hgt
  · have hab := Text.lt_of_length_decimal_lt hlt
    rw [iff_true_right hab, Text.decimal_lt_decimal_iff_of_length_lt hlt]
    constructor
    · intro hle
      exact ⟨fun _ => hle, fun h => absurd h hlt.not_gt⟩
    · intro hcomparable
      exact hcomparable.1 hlt
  · refine iff_of_true (Text.decimal_lt_iff heq) ⟨?_, ?_⟩
    · intro hlt
      exact absurd heq hlt.ne
    · intro hgt
      exact absurd heq hgt.ne'
  · have hba := Text.lt_of_length_decimal_lt hgt
    rw [iff_false_right hba.not_gt, Text.decimal_lt_decimal_iff_of_lt_length hgt, not_lt]
    constructor
    · intro hle
      exact ⟨fun h => absurd h hgt.not_gt, fun _ => hle⟩
    · intro hcomparable
      exact hcomparable.2 hgt

/-- Keys keep the order of two times if and only if the first digits of the longer
time are not below the shorter one. -/
theorem keysInOrder_iff_comparable (symbol event : Text) (a b : UInt64) :
    KeysInOrder symbol event a b ↔ Comparable a b := by
  rw [← decimal_order_iff_comparable]
  constructor
  · rintro ⟨hdata, -, -, -⟩
    rwa [marketDataKey, marketDataKey, timeKey_lt_iff_decimal] at hdata
  · intro hdecimal
    constructor
    · exact (timeKey_lt_iff_decimal _ _ a b).trans hdecimal
    · exact (timeKey_lt_iff_decimal _ _ a b).trans hdecimal
    · exact (timeKey_lt_iff_decimal _ _ a b).trans hdecimal
    · exact (buildIndexKey_lt_iff_decimal _ _ a b).trans hdecimal

/-- A microsecond in September 2001, when the times got a sixteenth digit. -/
theorem not_all_keysInOrder :
    ¬ ∀ symbol event a b, KeysInOrder symbol event a b := by
  intro hall
  have hlt := (hall ['A'] ['B'] 999999999999999 1000000000000000).marketData.mpr (by decide)
  exact absurd hlt (by decide)

end Atp.KeyOrder

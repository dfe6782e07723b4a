import Atp.TickerCode
import Atp.TickerMap

/-!
The id that is computed from a key which is not registered.  Any key may come, but
only a short one of characters near the letters has an id.
-/

namespace Atp.TickerFallback

open TickerCode

/-- What `getTickerIdFromSubscriptionKey` sets the id to, if it does not read outside
of `SCALE` or overflow. -/
def tickerIdFor (m : TickerMap) (key : Text) : Option Int :=
  match m.getTickerIdFromSubscriptionKey key with
  | some id => some id.toInt
  | none => symbolToTickerId key

def SafeFallback (m : TickerMap) (key : Text) : Prop :=
  m.getTickerIdFromSubscriptionKey key = none → ∃ id, tickerIdFor m key = some id

/-- As an `int` the length is at most four, and the number that the characters make up
in base 27 leaves room for eleven bits. -/
structure Encodable (key : Text) : Prop where
  length_le : intLength key ≤ 4
  low : -2 ^ 20 ≤ weight (key.take (intLength key).toNat)
  high : weight (key.take (intLength key).toNat) < 2 ^ 20

theorem bmod_natCast_le (n m : Nat) : Int.bmod n m ≤ n := by
  have hmod : (n : Int) % m ≤ n := by
    exact_mod_cast Nat.mod_le n m
  rw [Int.bmod_def]
  split_ifs
  · exact hmod
  · omega

theorem intLength_le (key : Text) : intLength key ≤ key.length :=
  bmod_natCast_le key.length (2 ^ 32)

theorem length_take_intLength (key : Text) :
    (key.take (intLength key).toNat).length = (intLength key).toNat := by
  have hle := intLength_le key
  rw [List.length_take]
  omega

/-- The shift by eleven bits has room for 21. -/
theorem exists_int_shift_iff (v : Int) :
    (∃ id, int (v * 2 ^ OFFSET) = some id) ↔ -2 ^ 20 ≤ v ∧ v < 2 ^ 20 := by
  unfold int OFFSET
  split_ifs with hfits
  · refine iff_of_true ⟨_, rfl⟩ ?_
    omega
  · refine iff_of_false nofun ?_
    omega

theorem exists_symbolToTickerId_iff (key : Text) :
    (∃ id, symbolToTickerId key = some id) ↔ Encodable key := by
  have hlength := length_take_intLength key
  unfold symbolToTickerId
  by_cases hshort : intLength key ≤ 4
  · rw [addLetters_eq (by omega) (by omega) (by omega), zero_add, Option.bind_eq_bind,
      Option.bind_some, exists_int_shift_iff]
    constructor
    · rintro ⟨hlow, hhigh⟩
      exact ⟨hshort, hlow, hhigh⟩
    · rintro ⟨-, hlow, hhigh⟩
      exact ⟨hlow, hhigh⟩
  · rw [addLetters_of_length_lt (by omega)]
    exact iff_of_false nofun fun h => hshort h.length_le

/-- The fallback is computed safely if and only if the key is registered or can be
encoded. -/
theorem safeFallback_iff (m : TickerMap) (key : Text) :
    SafeFallback m key ↔ m.getTickerIdFromSubscriptionKey key ≠ none ∨ Encodable key := by
  unfold SafeFallback tickerIdFor
  cases m.getTickerIdFromSubscriptionKey key with
  | none => simp [exists_symbolToTickerId_iff]
  | some id => simp

/-- The key of a stock, as it is published. -/
theorem not_all_safeFallback : ¬ ∀ m key, SafeFallback m key := by
  intro hall
  obtain ⟨id, hid⟩ := hall TickerMap.empty "AAPL.STK".toList rfl
  have hnone : tickerIdFor TickerMap.empty "AAPL.STK".toList = none := by decide
  rw [hnone] at hid
  cases hid

theorem weight_bounds (s : Text) :
    -(8 * 27 ^ s.length) ≤ weight s ∧ weight s ≤ 8 * 27 ^ s.length := by
  induction s with
  | nil => simp [weight]
  | cons c s ih =>
      obtain ⟨hlow, hhigh⟩ := letterValue_bounds c
      have hpos : (0 : Int) < 27 ^ s.length := by positivity
      rw [weight, List.length_cons, pow_succ]
      constructor
      · nlinarith
      · nlinarith

/-- Three characters are few enough, whatever they are. -/
theorem encodable_of_length_le {key : Text} (hkey : key.length ≤ 3) : Encodable key := by
  have hint : intLength key = key.length := Int.bmod_eq_of_le (by omega) (by omega)
  have htake : key.take (intLength key).toNat = key := by
    rw [hint, Int.toNat_natCast, List.take_length]
  have hpow : (27 : Int) ^ key.length ≤ 27 ^ 3 := pow_le_pow_right₀ (by decide) hkey
  obtain ⟨hlow, hhigh⟩ := weight_bounds key
  constructor
  · omega
  · rw [htake]
    omega
  · rw [htake]
    omega

end Atp.TickerFallback

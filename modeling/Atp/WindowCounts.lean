import Atp.MovingWindow
import Mathlib.Data.Nat.Factorization.Basic

/-!
The number of windows that pass between two timestamps.  It is computed in 64 bits,
returned in 32 bits with a sign, and widened again for the caller and the callback.
-/

namespace Atp.WindowCounts

open MovingWindow

universe u

variable {α : Type u} {S : Sampler α}

/-- The multiples of the window size after `last`, up to `timestamp`. -/
def boundaries (w last timestamp : Microsecond) : Finset Nat :=
  (Finset.Ioc last.toNat timestamp.toNat).filter (w.toNat ∣ ·)

/-- The end of `operator()`: the count with which the post-process callback is called,
if it is called. -/
def callbackCount (m : MovingWindow S) (timestamp : Microsecond) (value : α) : Option UInt64 :=
  let p := (m.on timestamp value).1
  if p > 0 then some p else none

/-- The counts from the last event of a window, which may be at any time, to `c`,
directly and by way of `b`, and what an event at `c` returns and hands to the callback. -/
structure CountsBoundaries (m : MovingWindow S) (b c : Microsecond) (value : α) : Prop where
  count : (m.policy.countWindows m.currentTs c).toInt =
    (boundaries m.interval m.currentTs c).card
  additive : (m.policy.countWindows m.currentTs c).toInt =
    (m.policy.countWindows m.currentTs b).toInt + (m.policy.countWindows b c).toInt
  returned : (m.on c value).1.toNat = (boundaries m.interval m.currentTs c).card
  callback : (callbackCount m c value).map UInt64.toNat =
    if boundaries m.interval m.currentTs c = ∅ then none
    else some (boundaries m.interval m.currentTs c).card

theorem card_boundaries {w last timestamp : Microsecond} (hle : last ≤ timestamp) :
    (boundaries w last timestamp).card = windowOf w timestamp - windowOf w last := by
  have hle : last.toNat ≤ timestamp.toNat := UInt64.le_iff_toNat_le.mp hle
  have hdisjoint : Disjoint ((Finset.Ioc 0 last.toNat).filter (w.toNat ∣ ·))
      (boundaries w last timestamp) :=
    Finset.disjoint_filter_filter (Finset.Ioc_disjoint_Ioc_of_le le_rfl)
  have hcard := Finset.card_union_of_disjoint hdisjoint
  rw [boundaries, ← Finset.filter_union, Finset.Ioc_union_Ioc_eq_Ioc (Nat.zero_le _) hle,
    Nat.Ioc_filter_dvd_card_eq_div, Nat.Ioc_filter_dvd_card_eq_div] at hcard
  rw [windowOf, windowOf, hcard, boundaries, Nat.add_sub_cancel_left]

section

variable {p : AlignAtZero} (hw : 0 < p.windowSize) {last timestamp : Microsecond}
  (hle : last ≤ timestamp)

include hw hle

theorem toInt_countWindows (hnear : (boundaries p.windowSize last timestamp).card < 2 ^ 31) :
    (p.countWindows last timestamp).toInt = (boundaries p.windowSize last timestamp).card := by
  have hmono := windowOf_mono p.windowSize hle
  rw [card_boundaries hle] at hnear ⊢
  rw [p.toInt_countWindows hw hle hnear]
  omega

end

theorem card_lt_of_toInt {p : AlignAtZero} {last timestamp : Microsecond}
    (hcount : (p.countWindows last timestamp).toInt =
      (boundaries p.windowSize last timestamp).card) :
    (boundaries p.windowSize last timestamp).card < 2 ^ 31 := by
  have hlt := (p.countWindows last timestamp).toInt_lt
  omega

theorem boundaries_add {w a b c : Microsecond} (hab : a ≤ b) (hbc : b ≤ c) :
    (boundaries w a c).card = (boundaries w a b).card + (boundaries w b c).card := by
  have hfirst := windowOf_mono w hab
  have hsecond := windowOf_mono w hbc
  rw [card_boundaries hab, card_boundaries hbc, card_boundaries (UInt64.le_trans hab hbc)]
  omega

theorem toNat_on {m : MovingWindow S} (hts : 0 < m.currentTs) {timestamp : Microsecond} {n : Nat}
    (hcount : (m.policy.countWindows m.currentTs timestamp).toInt = n) (value : α) :
    (m.on timestamp value).1.toNat = n := by
  have hwindows : m.windows timestamp = m.policy.countWindows m.currentTs timestamp := if_pos hts
  have hwiden := @toNat_toUInt64 (m.windows timestamp) (by rw [hwindows, hcount]; omega)
  rw [hwindows, hcount] at hwiden
  rw [on, hwindows]
  exact Int.ofNat.inj hwiden

/-- At time zero the window is taken for one that is starting up. -/
theorem on_eq_zero {m : MovingWindow S} (hts : ¬ 0 < m.currentTs) (timestamp : Microsecond)
    (value : α) : (m.on timestamp value).1 = 0 := by
  have hwindows : m.windows timestamp = 0 := if_neg hts
  rw [on, hwindows]
  rfl

theorem callbackCount_eq {m : MovingWindow S} {timestamp : Microsecond} {value : α} {n : Nat}
    (hreturned : (m.on timestamp value).1.toNat = n) :
    (callbackCount m timestamp value).map UInt64.toNat = if n = 0 then none else some n := by
  have hpos : (m.on timestamp value).1 > 0 ↔ n ≠ 0 := by
    rw [gt_iff_lt, UInt64.lt_iff_toNat_lt, hreturned]
    exact Nat.pos_iff_ne_zero
  unfold callbackCount
  dsimp only
  split_ifs with hp hn hn
  · exact absurd hn (hpos.mp hp)
  · exact congrArg some hreturned
  · rfl
  · exact absurd (hpos.mpr hn) hp

/-- After an event at `last`, with timestamps in order, all counts are the number of
boundaries between them if and only if there are fewer than `2^31` of these and the
event was not at time zero, unless no boundary has passed. -/
theorem countsBoundaries_iff {m₀ : MovingWindow S} (hw : 0 < m₀.interval)
    {last b c : Microsecond} (hb : last ≤ b) (hbc : b ≤ c) (value₀ value : α) :
    CountsBoundaries (m₀.on last value₀).2 b c value ↔
      (boundaries m₀.interval last c).card < 2 ^ 31 ∧
        (0 < last ∨ boundaries m₀.interval last c = ∅) := by
  constructor
  · intro hcounts
    refine ⟨card_lt_of_toInt hcounts.count, or_iff_not_imp_left.mpr fun hlast => ?_⟩
    have hreturned := hcounts.returned
    rw [on_eq_zero hlast c value] at hreturned
    exact Finset.card_eq_zero.mp hreturned.symm
  · intro ⟨hnear, hstarted⟩
    have hsum := @boundaries_add m₀.interval _ _ _ hb hbc
    have hcount := @toInt_countWindows m₀.policy hw _ _ (UInt64.le_trans hb hbc) hnear
    have hreturned : ((m₀.on last value₀).2.on c value).1.toNat =
        (boundaries m₀.interval last c).card := by
      by_cases hlast : 0 < last
      · exact toNat_on hlast hcount value
      · rw [on_eq_zero hlast c value, hstarted.resolve_left hlast]
        rfl
    constructor
    · exact hcount
    · have hfirst : (boundaries m₀.interval last b).card < 2 ^ 31 := by omega
      have hsecond : (boundaries m₀.interval b c).card < 2 ^ 31 := by omega
      change (m₀.policy.countWindows last c).toInt =
        (m₀.policy.countWindows last b).toInt + (m₀.policy.countWindows b c).toInt
      rw [hcount, @toInt_countWindows m₀.policy hw _ _ hb hfirst,
        @toInt_countWindows m₀.policy hw _ _ hbc hsecond]
      exact_mod_cast hsum
    · exact hreturned
    · rw [callbackCount_eq hreturned]
      simp only [Finset.card_eq_zero]
      rfl

/-- Windows of ten microseconds. -/
def tenMicros : MovingWindow (Sampler.latest : Sampler Nat) := new _ 40 10 0

theorem countsBoundaries_tenMicros :
    CountsBoundaries (tenMicros.on 11 4).2 25 61 8 ↔
      (boundaries 10 11 61).card < 2 ^ 31 ∧ (0 < (11 : Microsecond) ∨ boundaries 10 11 61 = ∅) :=
  countsBoundaries_iff (by decide) (by decide) (by decide) 4 8

/-- Windows of one microsecond, and a gap of thirty-six minutes between two events. -/
theorem not_all_countsBoundaries :
    ¬ ∀ (m₀ : MovingWindow (Sampler.latest : Sampler Nat)) (last b c : Microsecond)
      (value₀ value : Nat), 0 < m₀.interval → last ≤ b → b ≤ c →
        CountsBoundaries (m₀.on last value₀).2 b c value := by
  intro hall
  have hcounts := hall (new _ 4 1 0) 1 1 (1 + 2 ^ 31) 4 8 (by decide) (by decide) (by decide)
  have hcount := hcounts.count
  have hnegative : ((((new (Sampler.latest : Sampler Nat) 4 1 0).on 1 4).2.policy.countWindows
      ((new (Sampler.latest : Sampler Nat) 4 1 0).on 1 4).2.currentTs (1 + 2 ^ 31)).toInt) < 0 := by
    decide
  omega

end Atp.WindowCounts

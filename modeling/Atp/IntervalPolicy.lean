import Mathlib.Data.UInt
import Mathlib.Data.Int.Init
import Mathlib.Tactic.Ring

/-!
Alignment of microsecond timestamps to windows of a fixed size.  Timestamps are
64-bit unsigned, and the number of windows between two of them is returned as a
32-bit `int`, so both the subtraction and the conversion can wrap.
-/

namespace Atp

abbrev Microsecond := UInt64

/-- The number of the window that contains `ts`, counted from time zero. -/
def windowOf (windowSize ts : Microsecond) : Nat := ts.toNat / windowSize.toNat

/-- `time_interval_policy::align_at_zero`. -/
structure AlignAtZero where
  windowSize : Microsecond

namespace AlignAtZero

/-- The sampled time instant, aligned at zero. -/
def getTime (p : AlignAtZero) (currTs : Microsecond) (offset : UInt64) : Microsecond :=
  let r := currTs - currTs % p.windowSize
  r - offset * p.windowSize

def countWindows (p : AlignAtZero) (lastTs timestamp : Microsecond) : Int32 :=
  if timestamp < lastTs then 0
  else
    let m1 := lastTs - lastTs % p.windowSize
    let m2 := timestamp - timestamp % p.windowSize
    ((m2 - m1) / p.windowSize).toUInt32.toInt32

end AlignAtZero

theorem toInt_toInt32 {q : UInt64} (hq : q.toNat < 2 ^ 31) :
    q.toUInt32.toInt32.toInt = q.toNat := by
  have htrunc := UInt64.toNat_toUInt32 q
  change q.toUInt32.toBitVec.toInt = q.toNat
  rw [BitVec.toInt_eq_toNat_of_lt]
  · change ((q.toUInt32.toNat : Nat) : Int) = _
    omega
  · change 2 * q.toUInt32.toNat < _
    omega

theorem toNat_toUInt64 {i : Int32} (hi : 0 ≤ i.toInt) :
    (i.toInt64.toUInt64.toNat : Int) = i.toInt := by
  have hext : i.toInt64.toInt = i.toInt := Int32.toInt_toInt64 i
  have hcond := BitVec.toInt_eq_toNat_cond i.toInt64.toBitVec
  have hlt := i.toInt64.toBitVec.isLt
  change i.toInt64.toBitVec.toInt = i.toInt at hext
  change ((i.toInt64.toBitVec.toNat : Nat) : Int) = i.toInt
  split at hcond <;> omega

theorem toNat_sub_mod (ts w : UInt64) :
    (ts - ts % w).toNat = windowOf w ts * w.toNat := by
  have hle : ts % w ≤ ts := by
    rw [UInt64.le_iff_toNat_le, UInt64.toNat_mod]
    exact Nat.mod_le _ _
  rw [UInt64.toNat_sub_of_le _ _ hle, UInt64.toNat_mod, windowOf, Nat.mul_comm]
  have := Nat.div_add_mod ts.toNat w.toNat
  omega

theorem windowOf_mono (w : Microsecond) {a b : Microsecond} (hab : a ≤ b) :
    windowOf w a ≤ windowOf w b :=
  Nat.div_le_div_right (UInt64.le_iff_toNat_le.mp hab)

namespace AlignAtZero

theorem toNat_window_quotient (p : AlignAtZero) (hw : 0 < p.windowSize)
    {lastTs timestamp : Microsecond} (hle : lastTs ≤ timestamp) :
    ((timestamp - timestamp % p.windowSize - (lastTs - lastTs % p.windowSize)) /
        p.windowSize).toNat =
      windowOf p.windowSize timestamp - windowOf p.windowSize lastTs := by
  have hpos : 0 < p.windowSize.toNat := UInt64.lt_iff_toNat_lt.mp hw
  have hmono := windowOf_mono p.windowSize hle
  have halign : lastTs - lastTs % p.windowSize ≤
      timestamp - timestamp % p.windowSize := by
    rw [UInt64.le_iff_toNat_le, toNat_sub_mod, toNat_sub_mod]
    exact Nat.mul_le_mul_right _ hmono
  rw [UInt64.toNat_div, UInt64.toNat_sub_of_le _ _ halign, toNat_sub_mod,
    toNat_sub_mod, ← Nat.sub_mul, Nat.mul_div_cancel _ hpos]

/-- Up to `2^31` windows apart, the `int` is the difference of the window
numbers. -/
theorem toInt_countWindows (p : AlignAtZero) (hw : 0 < p.windowSize)
    {lastTs timestamp : Microsecond} (hle : lastTs ≤ timestamp)
    (hnear : windowOf p.windowSize timestamp - windowOf p.windowSize lastTs < 2 ^ 31) :
    (p.countWindows lastTs timestamp).toInt =
      windowOf p.windowSize timestamp - windowOf p.windowSize lastTs := by
  have hmono := windowOf_mono p.windowSize hle
  have hnot : ¬ timestamp < lastTs := UInt64.not_lt.mpr hle
  have hquot := p.toNat_window_quotient hw hle
  simp only [countWindows, hnot, ↓reduceIte]
  rw [toInt_toInt32 (by omega), hquot]
  omega

theorem countWindows_of_lt (p : AlignAtZero) {lastTs timestamp : Microsecond}
    (hlt : timestamp < lastTs) : p.countWindows lastTs timestamp = 0 := by
  simp [countWindows, hlt]

theorem toNat_getTime_zero (p : AlignAtZero) (ts : Microsecond) :
    (p.getTime ts 0).toNat = windowOf p.windowSize ts * p.windowSize.toNat := by
  simp only [getTime, UInt64.zero_mul, UInt64.sub_zero]
  exact toNat_sub_mod ts p.windowSize

theorem getTime_eq (p : AlignAtZero) (ts : Microsecond) (offset : UInt64) :
    p.getTime ts offset = p.getTime ts 0 - offset * p.windowSize := by
  simp [getTime]

/-- Window `k` back from the current one starts `k` windows earlier, as long as
that is not before time zero. -/
theorem toNat_getTime (p : AlignAtZero) (ts : Microsecond) (k : Nat)
    (hk : k ≤ windowOf p.windowSize ts) :
    (p.getTime ts (UInt64.ofNat k)).toNat =
      (windowOf p.windowSize ts - k) * p.windowSize.toNat := by
  have hzero := p.toNat_getTime_zero ts
  have hle : k * p.windowSize.toNat ≤
      windowOf p.windowSize ts * p.windowSize.toNat :=
    Nat.mul_le_mul_right _ hk
  have hts : windowOf p.windowSize ts * p.windowSize.toNat ≤ ts.toNat :=
    Nat.div_mul_le_self _ _
  have hlt := ts.toNat_lt
  have hmul : (UInt64.ofNat k * p.windowSize).toNat = k * p.windowSize.toNat := by
    rw [UInt64.toNat_mul, UInt64.toNat_ofNat', Nat.mod_mul_mod]
    exact Nat.mod_eq_of_lt (by omega)
  rw [getTime_eq, UInt64.toNat_sub_of_le, hzero, hmul, ← Nat.sub_mul]
  rw [UInt64.le_iff_toNat_le, hmul, hzero]
  exact hle

end AlignAtZero

end Atp

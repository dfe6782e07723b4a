import Mathlib.Algebra.Order.Field.Rat
import Mathlib.Data.List.Basic
import Mathlib.Data.UInt
import Mathlib.Tactic.SplitIfs

/-!
Moving averages of a series.  The averages come from the TA-Lib library; the code
passes the series on and reads the last average back.
-/

namespace Atp.MovingAverages

inductive MAType where
  | simple | exponential | kaufmanAdaptive
deriving DecidableEq

structure MAConfig where
  type : MAType := .simple
  period : Int32

/-- The functions of the library, which write the averages from the first index on,
or refuse their arguments and write nothing. -/
structure TaLib (R : Type) where
  /-- The period that an argument stands for, where the functions take it. -/
  timePeriod : Int32 → Option Nat
  sma : (startIdx endIdx : Int32) → (inReal : List R) → (optInTimePeriod : Int32) →
    Option (List R)
  ema : (startIdx endIdx : Int32) → (inReal : List R) → (optInTimePeriod : Int32) →
    Option (List R)
  kama : (startIdx endIdx : Int32) → (inReal : List R) → (optInTimePeriod : Int32) →
    Option (List R)

/-- The index of the last element, as the `int` that is passed. -/
def endIdx (len : UInt64) : Int32 := (len - 1).toUInt32.toInt32

variable {R : Type}

def averages (ta : TaLib R) (config : MAConfig) (series : List R) (len : UInt64) :
    Option (List R) :=
  match config.type with
  | .exponential => ta.ema 0 (endIdx len) series config.period
  | .kaufmanAdaptive => ta.kama 0 (endIdx len) series config.period
  | .simple => ta.sma 0 (endIdx len) series config.period

def read (out : List R) (index : Int) : Option R :=
  if 0 ≤ index then out[index.toNat]? else none

/-- `operator()`.  Without averages the count is not set. -/
def ma (ta : TaLib R) (config : MAConfig) (series : List R) (len : UInt64) : Option R := do
  let out ← averages ta config series len
  let outCount : Int := out.length
  read out (outCount - 1)

/-! ### What the library promises -/

/-- The number of elements before the first average. -/
def lookback : MAType → Nat → Nat
  | .kaufmanAdaptive, period => period
  | _, period => period - 1

/-- There is an average for every element that has its lookback before it. -/
def Writes (out : Option (List R)) (endIdx : Int32) (lookback : Option Nat) : Prop :=
  out.map List.length =
    if 0 ≤ endIdx.toInt then lookback.map fun before => endIdx.toInt.toNat + 1 - before else none

structure Documented (ta : TaLib R) : Prop where
  sma : ∀ endIdx inReal period, endIdx.toInt < inReal.length →
    Writes (ta.sma 0 endIdx inReal period) endIdx ((ta.timePeriod period).map (lookback .simple))
  ema : ∀ endIdx inReal period, endIdx.toInt < inReal.length →
    Writes (ta.ema 0 endIdx inReal period) endIdx
      ((ta.timePeriod period).map (lookback .exponential))
  kama : ∀ endIdx inReal period, endIdx.toInt < inReal.length →
    Writes (ta.kama 0 endIdx inReal period) endIdx
      ((ta.timePeriod period).map (lookback .kaufmanAdaptive))

/-- The library takes the period, and the last index has its lookback before it. -/
def Covers (ta : TaLib R) (config : MAConfig) (len : UInt64) : Prop :=
  ∃ period, ta.timePeriod config.period = some period ∧
    (lookback config.type period : Int) ≤ (endIdx len).toInt

/-! ### The index -/

theorem toInt_endIdx (len : UInt64) :
    (endIdx len).toInt =
      if 2 * ((len - 1).toNat % 4294967296) < 4294967296
        then ((len - 1).toNat : Int) % 4294967296
        else ((len - 1).toNat : Int) % 4294967296 - 4294967296 := by
  have hlow : (len - 1).toUInt32.toNat = (len - 1).toNat % 4294967296 := UInt64.toNat_toUInt32 _
  have hcond := BitVec.toInt_eq_toNat_cond (len - 1).toUInt32.toBitVec
  change (endIdx len).toInt = if 2 * (len - 1).toUInt32.toNat < 4294967296
    then ((len - 1).toUInt32.toNat : Int)
    else ((len - 1).toUInt32.toNat : Int) - 4294967296 at hcond
  rw [hcond, hlow]
  rfl

theorem toNat_sub_one {len : UInt64} (hpos : 0 < len.toNat) : (len - 1).toNat = len.toNat - 1 := by
  have hle : 1 ≤ len := UInt64.le_iff_toNat_le.mpr hpos
  exact UInt64.toNat_sub_of_le len 1 hle

/-- Lengths up to `2 ^ 31` have an index of the last element. -/
theorem toInt_endIdx_of_le {len : UInt64} (hpos : 0 < len.toNat)
    (hlen : len.toNat ≤ 2147483648) : (endIdx len).toInt = (len.toNat : Int) - 1 := by
  rw [toInt_endIdx, toNat_sub_one hpos]
  split_ifs <;> omega

theorem toInt_endIdx_lt (len : UInt64) : (endIdx len).toInt < len.toNat := by
  rcases Nat.eq_zero_or_pos len.toNat with hzero | hpos
  · obtain rfl : len = 0 := UInt64.toNat_inj.mp hzero
    decide
  · rw [toInt_endIdx, toNat_sub_one hpos]
    split_ifs <;> omega

theorem read_last_isSome_iff (out : List R) :
    (read out ((out.length : Int) - 1)).isSome ↔ 0 < out.length := by
  unfold read
  split_ifs with hindex
  · rw [Option.isSome_iff_ne_none, ne_eq, List.getElem?_eq_none_iff]
    omega
  · exact iff_of_false (by simp) (by omega)

/-! ### The averages -/

theorem averages_writes {ta : TaLib R} (hta : Documented ta) (config : MAConfig) {series : List R}
    {len : UInt64} (hlen : len.toNat = series.length) :
    Writes (averages ta config series len) (endIdx len)
      ((ta.timePeriod config.period).map (lookback config.type)) := by
  have hend : (endIdx len).toInt < series.length := hlen ▸ toInt_endIdx_lt len
  unfold averages
  cases config.type with
  | simple => exact hta.sma _ _ _ hend
  | exponential => exact hta.ema _ _ _ hend
  | kaufmanAdaptive => exact hta.kama _ _ _ hend

theorem isSome_of_writes {out : Option (List R)} {endIdx : Int32} {lookback : Option Nat}
    (hout : Writes out endIdx lookback) :
    (out.bind fun out => read out ((out.length : Int) - 1)).isSome ↔
      ∃ before, lookback = some before ∧ (before : Int) ≤ endIdx.toInt := by
  unfold Writes at hout
  cases out with
  | none =>
      refine iff_of_false Bool.noConfusion ?_
      rintro ⟨before, rfl, hbefore⟩
      rw [if_pos (by omega)] at hout
      cases hout
  | some out =>
      rw [Option.bind_some, read_last_isSome_iff]
      split_ifs at hout with hend
      · obtain ⟨before, rfl, hlength⟩ := Option.map_eq_some_iff.mp hout.symm
        have hpos : 0 < out.length ↔ (before : Int) ≤ endIdx.toInt := by omega
        rw [hpos]
        constructor
        · intro hbefore
          exact ⟨before, rfl, hbefore⟩
        · rintro ⟨before', hsome, hbefore⟩
          exact Option.some.inj hsome ▸ hbefore
      · cases hout

/-- The last average is read at an index inside of the averages exactly where the
series covers the period. -/
theorem ma_reads_inside_iff {ta : TaLib R} (hta : Documented ta) (config : MAConfig)
    {series : List R} {len : UInt64} (hlen : len.toNat = series.length) :
    (ma ta config series len).isSome ↔ Covers ta config len := by
  have hwrites := isSome_of_writes (averages_writes hta config hlen)
  refine hwrites.trans ?_
  constructor
  · rintro ⟨before, hsome, hbefore⟩
    obtain ⟨period, hperiod, rfl⟩ := Option.map_eq_some_iff.mp hsome
    exact ⟨period, hperiod, hbefore⟩
  · rintro ⟨period, hperiod, hbefore⟩
    exact ⟨lookback config.type period, by rw [hperiod]; rfl, hbefore⟩

/-- For a series of at most `2 ^ 31` elements, these are the lookback and one more. -/
theorem covers_iff_of_le (ta : TaLib R) (config : MAConfig) {len : UInt64}
    (hpos : 0 < len.toNat) (hlen : len.toNat ≤ 2147483648) :
    Covers ta config len ↔ ∃ period, ta.timePeriod config.period = some period ∧
      lookback config.type period < len.toNat := by
  rw [Covers, toInt_endIdx_of_le hpos hlen]
  refine exists_congr fun period => and_congr_right fun _ => ?_
  omega

/-! ### The library over exact numbers -/

namespace Exact

/-- A period of 30 by default, and otherwise one from 2 to 100000. -/
def timePeriod (optInTimePeriod : Int32) : Option Nat :=
  if optInTimePeriod.toInt = -2147483648 then some 30
  else if 2 ≤ optInTimePeriod.toInt ∧ optInTimePeriod.toInt ≤ 100000 then
    some optInTimePeriod.toInt.toNat
  else none

def mean (series : List ℚ) : ℚ := series.sum / series.length

/-- Each average moves from the one before it towards the next element. -/
def smooth (seed : ℚ) (steps : List (ℚ × ℚ)) : List ℚ :=
  steps.scanl (fun average step => average + step.1 * (step.2 - average)) seed

def simple (period : Nat) (series : List ℚ) : List ℚ :=
  (List.range (series.length - (period - 1))).map fun i => mean ((series.drop i).take period)

def exponential (period : Nat) (series : List ℚ) : List ℚ :=
  if period ≤ series.length then
    smooth (mean (series.take period)) ((series.drop period).map fun x => (2 / (period + 1), x))
  else []

/-- The square of a constant between those of periods of 30 and of 2, by how much of
the movement is a change. -/
def efficiency (window : List ℚ) : ℚ :=
  let change := |window.getLastD 0 - window.headD 0|
  let volatility := (window.zipWith (fun a b => |b - a|) window.tail).sum
  let ratio := if volatility ≤ change then 1 else change / volatility
  (ratio * (2 / 3 - 2 / 31) + 2 / 31) ^ 2

def kaufmanAdaptive (period : Nat) (series : List ℚ) : List ℚ :=
  (smooth ((series.drop (period - 1)).headD 0)
    ((List.range (series.length - period)).map fun i =>
      (efficiency ((series.drop i).take (period + 1)), (series.drop (i + period)).headD 0))).tail

def call (averages : Nat → List ℚ → List ℚ) (_startIdx endIdx : Int32) (inReal : List ℚ)
    (optInTimePeriod : Int32) : Option (List ℚ) :=
  if 0 ≤ endIdx.toInt then
    (timePeriod optInTimePeriod).map fun period =>
      averages period (inReal.take (endIdx.toInt.toNat + 1))
  else none

def taLib : TaLib ℚ where
  timePeriod := timePeriod
  sma := call simple
  ema := call exponential
  kama := call kaufmanAdaptive

theorem length_simple (period : Nat) (series : List ℚ) :
    (simple period series).length = series.length - lookback .simple period := by
  rw [simple, List.length_map, List.length_range]
  rfl

theorem length_exponential {period : Nat} (hperiod : 1 ≤ period) (series : List ℚ) :
    (exponential period series).length = series.length - lookback .exponential period := by
  unfold exponential
  have hlookback : lookback .exponential period = period - 1 := rfl
  split_ifs with hle
  · rw [smooth, List.length_scanl, List.length_map, List.length_drop, hlookback]
    omega
  · rw [List.length_nil, hlookback]
    omega

theorem length_kaufmanAdaptive (period : Nat) (series : List ℚ) :
    (kaufmanAdaptive period series).length =
      series.length - lookback .kaufmanAdaptive period := by
  rw [kaufmanAdaptive, List.length_tail, smooth, List.length_scanl, List.length_map,
    List.length_range]
  rfl

theorem one_le_of_timePeriod {optInTimePeriod : Int32} {period : Nat}
    (hperiod : timePeriod optInTimePeriod = some period) : 1 ≤ period := by
  unfold timePeriod at hperiod
  split_ifs at hperiod with hdefault hrange
  · obtain rfl := Option.some.inj hperiod
    decide
  · obtain rfl := Option.some.inj hperiod
    omega

theorem call_writes {averages : Nat → List ℚ → List ℚ} {type : MAType}
    (hlength : ∀ period, 1 ≤ period → ∀ series,
      (averages period series).length = series.length - lookback type period)
    (endIdx : Int32) (inReal : List ℚ) (optInTimePeriod : Int32)
    (hend : endIdx.toInt < inReal.length) :
    Writes (call averages 0 endIdx inReal optInTimePeriod) endIdx
      ((timePeriod optInTimePeriod).map (lookback type)) := by
  unfold Writes call
  split_ifs with hnonneg
  · cases hperiod : timePeriod optInTimePeriod with
    | none => rfl
    | some period =>
        have htake : (inReal.take (endIdx.toInt.toNat + 1)).length = endIdx.toInt.toNat + 1 := by
          rw [List.length_take]
          omega
        simp only [Option.map_some, hlength period (one_le_of_timePeriod hperiod), htake]
  · rfl

theorem documented : Documented taLib where
  sma := call_writes fun period _ => length_simple period
  ema := call_writes fun _ hperiod => length_exponential hperiod
  kama := call_writes fun period _ => length_kaufmanAdaptive period

end Exact

theorem ma_reads_inside_three : (ma Exact.taLib ⟨.simple, 3⟩ [1, 2, 6] 3).isSome :=
  (ma_reads_inside_iff Exact.documented ⟨.simple, 3⟩ rfl).mpr ⟨3, rfl, by decide⟩

/-- A period of three, and one element. -/
theorem ma_reads_outside :
    Documented Exact.taLib ∧ averages Exact.taLib ⟨.simple, 3⟩ [5] 1 = some [] ∧
      ma Exact.taLib ⟨.simple, 3⟩ [5] 1 = none := by
  have haverages : averages Exact.taLib ⟨.simple, 3⟩ [5] 1 = some [] := rfl
  refine ⟨Exact.documented, haverages, ?_⟩
  rw [ma, haverages]
  rfl

end Atp.MovingAverages

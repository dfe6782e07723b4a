import Atp.CheckedArray
import Atp.MovingWindow

/-!
Copying the last samples of a moving window into the caller's arrays: the fast
way, two block copies out of the ring, and the slow way, a reverse iteration.
-/

namespace Atp.MovingWindow

open CheckedArray

variable {α : Type} {S : Sampler α}

/-- Copies the last `length` values and returns how many there are; `length` is
a `size_t`, so `length - 1` wraps at zero. -/
def copyLastData (m : MovingWindow S) (array : List α) (length : UInt64) :
    Option (Nat × List α) :=
  if length.toNat > m.capacity then some (0, array)
  else do
    let array ← store array (length - 1).toNat m.currentValue
    let two := m.buffer.arrayTwo
    let one := m.buffer.arrayOne
    let remain := (length - 1).toNat
    let toCopy2 := min two.length remain
    let toCopy1 := remain - toCopy2
    let destOffset2 := remain - toCopy2
    let srcOffset2 := max 0 (two.length - toCopy2)
    let destOffset1 := 0
    let srcOffset1 := max 0 (one.length - toCopy1)
    let array ← (if toCopy2 > 0 then
      memcpy array destOffset2 two srcOffset2 toCopy2 else some array)
    let array ← (if toCopy1 > 0 then
      memcpy array destOffset1 one srcOffset1 toCopy1 else some array)
    some (toCopy2 + toCopy1 + 1, array)

def timeLoop (m : MovingWindow S) (length : Nat) :
    (left toCopy : Nat) → List Microsecond → Option (List Microsecond)
  | 0, _, timestamp => some timestamp
  | left + 1, toCopy, timestamp => do
      let timestamp ← store timestamp (length - toCopy - 2)
        (m.policy.getTime m.currentTs (UInt64.ofNat (toCopy + 1)))
      timeLoop m length left (toCopy + 1) timestamp

def generateTimeArray (m : MovingWindow S) (timestamp : List Microsecond)
    (length : UInt64) : Option (Nat × List Microsecond) :=
  if length.toNat > m.capacity then some (0, timestamp)
  else do
    let timestamp ← store timestamp (length - 1).toNat
      (m.policy.getTime m.currentTs 0)
    let timestamp ← timeLoop m length.toNat (length - 1).toNat 0 timestamp
    some (length.toNat, timestamp)

/-- Copies the last `length` samples, time and value.  A failed assertion has no
result. -/
def copyLast (m : MovingWindow S) (timestamp : List Microsecond) (array : List α)
    (length : UInt64) : Option (Nat × List Microsecond × List α) :=
  if length.toNat > m.capacity then some (0, timestamp, array)
  else do
    let (copied1, array) ← copyLastData m array length
    let (copied2, timestamp) ← generateTimeArray m timestamp length
    if copied1 = copied2 then some (copied1, timestamp, array) else none

/-- The reverse iteration of `copy_last_slow`, from the newest closed window. -/
def slowLoop (m : MovingWindow S) (length : Nat) :
    (r : List α) → (toCopy copied : Nat) → List Microsecond → List α →
      Option (Nat × List Microsecond × List α)
  | x :: r, toCopy + 1, copied, timestamp, array => do
      let array ← store array (length - 1 - copied) x
      let timestamp ← store timestamp (length - 1 - copied)
        (m.policy.getTime m.currentTs (UInt64.ofNat copied))
      slowLoop m length r toCopy (copied + 1) timestamp array
  | _, _, copied, timestamp, array => some (copied, timestamp, array)

def copyLastSlow (m : MovingWindow S) (timestamp : List Microsecond)
    (array : List α) (length : UInt64) :
    Option (Nat × List Microsecond × List α) :=
  if length.toNat > m.capacity then some (0, timestamp, array)
  else do
    let array ← store array (length - 1).toNat m.currentValue
    let timestamp ← store timestamp (length - 1).toNat
      (m.policy.getTime m.currentTs 0)
    slowLoop m length.toNat m.buffer.toList.reverse (length - 1).toNat 1
      timestamp array

/-! ### The samples a copy should hold -/

def samples (m : MovingWindow S) : List α := m.buffer.toList ++ [m.currentValue]

def times (m : MovingWindow S) (n : Nat) : List Microsecond :=
  (List.range n).map fun i => m.getTime (-((n - 1 - i : Nat) : Int))

theorem toNat_pred {length : UInt64} (hpos : 1 ≤ length) :
    (length - 1).toNat = length.toNat - 1 :=
  UInt64.toNat_sub_of_le _ _ hpos

theorem length_samples {m : MovingWindow S} (hfull : m.buffer.Full) :
    m.samples.length = m.capacity := by
  have hsize : m.buffer.size = m.buffer.capacity := hfull
  simp [samples, capacity, hsize]

theorem times_succ (m : MovingWindow S) (n : Nat) :
    m.times (n + 1) =
      ((List.range n).map fun i => m.getTime (-((n - i : Nat) : Int))) ++
        [m.getTime 0] := by
  simp [times, List.range_succ]

theorem drop_append_runs (one two : List α) (n : Nat) :
    (one ++ two).drop (one.length + two.length - n) =
      one.drop (one.length - (n - min two.length n)) ++
        two.drop (two.length - min two.length n) := by
  rw [List.drop_append]
  rcases Nat.le_total n two.length with hle | hge
  · rw [Nat.min_eq_right hle, Nat.sub_self, Nat.sub_zero,
      List.drop_eq_nil_of_le (by omega), List.drop_length]
    congr 2
    omega
  · rw [Nat.min_eq_left hge, Nat.sub_self]
    congr 2 <;> omega

/-- The two block copies leave the last samples in the array. -/
theorem copyLastData_eq {m : MovingWindow S} (hfull : m.buffer.Full)
    {array : List α} {length : UInt64} (hpos : 1 ≤ length)
    (hle : length.toNat ≤ m.capacity) (harray : length.toNat ≤ array.length) :
    m.copyLastData array length =
      some (length.toNat, m.samples.drop (m.capacity - length.toNat) ++
        array.drop length.toNat) := by
  have hone : 1 ≤ length.toNat := UInt64.le_iff_toNat_le.mp hpos
  have hsize : m.buffer.arrayOne.length + m.buffer.arrayTwo.length + 1 = m.capacity := by
    rw [m.buffer.size_arrayOne_add_arrayTwo, capacity, hfull]
  have hremain := toNat_pred hpos
  unfold copyLastData
  rw [if_neg (by omega), store_of_lt (by omega)]
  simp only [Option.bind_eq_bind, Option.bind_some, hremain]
  have hdrop : m.samples.drop (m.capacity - length.toNat) =
      (m.buffer.arrayOne ++ m.buffer.arrayTwo).drop (m.buffer.arrayOne.length +
        m.buffer.arrayTwo.length - (length.toNat - 1)) ++ [m.currentValue] := by
    rw [samples, CircularBuffer.toList, List.drop_append_of_le_length]
    · congr 2
      omega
    · rw [List.length_append]
      omega
  rw [hdrop, drop_append_runs]
  generalize m.buffer.arrayOne = one at hsize ⊢
  generalize m.buffer.arrayTwo = two at hsize ⊢
  generalize hcopy2 : min two.length (length.toNat - 1) = toCopy2
  generalize hcopy1 : length.toNat - 1 - toCopy2 = toCopy1
  have hlen : (array.set (length.toNat - 1) m.currentValue).length = array.length :=
    List.length_set
  have hcur : length.toNat - 1 + 1 = length.toNat := by omega
  rw [Nat.zero_max, Nat.zero_max, ite_memcpy (by omega) (by omega), ← hcopy1,
    memcpy_suffix (by omega) (by omega) (by omega), hcopy1, Option.bind_some,
    drop_set_self (by omega), hcur, List.append_assoc]
  have htake : ((array.set (length.toNat - 1) m.currentValue).take toCopy1).length =
      toCopy1 := by
    rw [List.length_take, hlen]
    omega
  generalize (array.set (length.toNat - 1) m.currentValue).take toCopy1 = front at htake ⊢
  have hfit : toCopy1 ≤ (front ++ (two.drop (two.length - toCopy2) ++
      m.currentValue :: array.drop length.toNat)).length := by
    rw [List.length_append]
    omega
  rw [ite_memcpy (by omega) (by omega), memcpy_suffix_front (by omega) hfit,
    List.drop_left' htake, Option.bind_some]
  simp only [List.append_assoc, List.cons_append, List.nil_append]
  congr 2
  omega

theorem timeLoop_eq (m : MovingWindow S) {length left toCopy : Nat}
    {timestamp : List Microsecond} (hlength : left + toCopy + 1 = length)
    (hfit : left ≤ timestamp.length) :
    timeLoop m length left toCopy timestamp =
      some ((List.range left).map (fun i => m.getTime (-((length - 1 - i : Nat) : Int))) ++
        timestamp.drop left) := by
  induction left generalizing toCopy timestamp with
  | zero => simp [timeLoop]
  | succ left ih =>
      have hidx : length - toCopy - 2 = left := by omega
      have hback : length - 1 - left = toCopy + 1 := by omega
      rw [timeLoop, hidx, store_of_lt (by omega), Option.bind_eq_bind, Option.bind_some,
        ih (by omega) (by rw [List.length_set]; omega), drop_set_self (by omega),
        List.range_succ, List.map_append, List.append_assoc, List.map_singleton, hback,
        getTime_neg]
      rfl

theorem generateTimeArray_eq {m : MovingWindow S} {timestamp : List Microsecond}
    {length : UInt64} (hpos : 1 ≤ length) (hle : length.toNat ≤ m.capacity)
    (hfit : length.toNat ≤ timestamp.length) :
    m.generateTimeArray timestamp length =
      some (length.toNat, m.times length.toNat ++ timestamp.drop length.toNat) := by
  have hone : 1 ≤ length.toNat := UInt64.le_iff_toNat_le.mp hpos
  obtain ⟨n, hn⟩ : ∃ n, length.toNat = n + 1 := ⟨_, (Nat.sub_add_cancel hone).symm⟩
  unfold generateTimeArray
  rw [if_neg (by omega), toNat_pred hpos, hn, Nat.add_sub_cancel, store_of_lt (by omega)]
  simp only [Option.bind_eq_bind, Option.bind_some]
  rw [timeLoop_eq m (by omega) (by rw [List.length_set]; omega), Option.bind_some,
    drop_set_self (by omega), times_succ, List.append_assoc]
  rfl

/-- The reverse iteration fills both arrays downwards from position `toCopy`. -/
theorem slowLoop_eq (m : MovingWindow S) {length toCopy copied : Nat} {r : List α}
    {timestamp : List Microsecond} {array : List α}
    (hlength : toCopy + copied = length) (hpos : 1 ≤ copied) (hr : toCopy ≤ r.length)
    (htimestamp : toCopy ≤ timestamp.length) (harray : toCopy ≤ array.length) :
    slowLoop m length r toCopy copied timestamp array =
      some (length,
        (List.range toCopy).map (fun i => m.getTime (-((length - 1 - i : Nat) : Int))) ++
          timestamp.drop toCopy,
        (r.take toCopy).reverse ++ array.drop toCopy) := by
  induction toCopy generalizing copied r timestamp array with
  | zero => simp [slowLoop, ← hlength]
  | succ toCopy ih =>
      cases r with
      | nil => simp at hr
      | cons x r =>
          have hidx : length - 1 - copied = toCopy := by omega
          have hback : length - 1 - toCopy = copied := by omega
          rw [List.length_cons] at hr
          rw [slowLoop, hidx, store_of_lt (by omega), Option.bind_eq_bind,
            Option.bind_some, store_of_lt (by omega), Option.bind_eq_bind,
            Option.bind_some, ih (by omega) (by omega) (by omega)
              (by rw [List.length_set]; omega) (by rw [List.length_set]; omega),
            drop_set_self (by omega), drop_set_self (by omega), List.range_succ,
            List.map_append, List.append_assoc, List.map_singleton, hback, getTime_neg,
            List.take_succ_cons, List.reverse_cons, List.append_assoc]
          rfl

theorem copyLast_eq {m : MovingWindow S} (hfull : m.buffer.Full)
    {timestamp : List Microsecond} {array : List α} {length : UInt64}
    (hpos : 1 ≤ length) (hle : length.toNat ≤ m.capacity)
    (htimestamp : length.toNat ≤ timestamp.length)
    (harray : length.toNat ≤ array.length) :
    m.copyLast timestamp array length =
      some (length.toNat, m.times length.toNat ++ timestamp.drop length.toNat,
        m.samples.drop (m.capacity - length.toNat) ++ array.drop length.toNat) := by
  unfold copyLast
  rw [if_neg (by omega), copyLastData_eq hfull hpos hle harray,
    generateTimeArray_eq hpos hle htimestamp]
  simp

theorem copyLastSlow_eq {m : MovingWindow S} (hfull : m.buffer.Full)
    {timestamp : List Microsecond} {array : List α} {length : UInt64}
    (hpos : 1 ≤ length) (hle : length.toNat ≤ m.capacity)
    (htimestamp : length.toNat ≤ timestamp.length)
    (harray : length.toNat ≤ array.length) :
    m.copyLastSlow timestamp array length =
      some (length.toNat, m.times length.toNat ++ timestamp.drop length.toNat,
        m.samples.drop (m.capacity - length.toNat) ++ array.drop length.toNat) := by
  have hone : 1 ≤ length.toNat := UInt64.le_iff_toNat_le.mp hpos
  obtain ⟨n, hn⟩ : ∃ n, length.toNat = n + 1 := ⟨_, (Nat.sub_add_cancel hone).symm⟩
  have hsize : m.buffer.toList.length = m.capacity - 1 := by
    rw [CircularBuffer.length_toList, hfull, capacity, Nat.add_sub_cancel]
  have hdrop : m.samples.drop (m.capacity - (n + 1)) =
      (m.buffer.toList.reverse.take n).reverse ++ [m.currentValue] := by
    rw [samples, List.drop_append_of_le_length (by omega), List.take_reverse,
      List.reverse_reverse]
    congr 2
    omega
  unfold copyLastSlow
  rw [if_neg (by omega), toNat_pred hpos, hn, Nat.add_sub_cancel, store_of_lt (by omega),
    store_of_lt (by omega)]
  simp only [Option.bind_eq_bind, Option.bind_some]
  rw [slowLoop_eq m (by omega) le_rfl (by rw [List.length_reverse]; omega)
      (by rw [List.length_set]; omega) (by rw [List.length_set]; omega),
    drop_set_self (by omega), drop_set_self (by omega), hdrop, times_succ,
    List.append_assoc, List.append_assoc]
  rfl

/-! ### What the copied arrays hold -/

theorem getElem?_samples {m : MovingWindow S} (hfull : m.buffer.Full) {k : Nat}
    (hk : k < m.capacity) : m.samples[m.capacity - 1 - k]? = m.at? (-k) := by
  have hlen : m.buffer.toList.length = m.buffer.capacity := by
    rw [CircularBuffer.length_toList]
    exact hfull
  have hcap : m.capacity = m.buffer.capacity + 1 := rfl
  rw [samples, hcap, Nat.add_sub_cancel]
  rcases Nat.eq_zero_or_pos k with rfl | hpos
  · rw [Nat.sub_zero, List.getElem?_append_right (by omega), hlen, Nat.sub_self]
    exact m.at?_zero.symm
  · rw [List.getElem?_append_left (by omega), at?_neg hfull hpos (by omega)]

theorem getTime_succ (m : MovingWindow S) (k : Nat) :
    m.getTime (-(k + 1 : Nat)) + m.interval = m.getTime (-k) := by
  have hsucc : UInt64.ofNat (k + 1) = UInt64.ofNat k + 1 := by
    apply UInt64.toNat_inj.mp
    rw [UInt64.toNat_add, UInt64.toNat_ofNat', UInt64.toNat_ofNat', Nat.mod_add_mod]
    rfl
  rw [getTime_neg, getTime_neg, hsucc]
  simp only [AlignAtZero.getTime, policy]
  grind

theorem getElem?_times (m : MovingWindow S) {n k : Nat} (hk : k < n) :
    (m.times n)[n - 1 - k]? = some (m.getTime (-k)) := by
  have hback : n - 1 - (n - 1 - k) = k := by omega
  rw [times, List.getElem?_map, List.getElem?_range (by omega), Option.map_some, hback]

/-- Both copies return the same count and leave the same arrays: the last
`length` samples, oldest first, at times one interval apart that end at the
current window. -/
theorem copyLast_eq_copyLastSlow {m : MovingWindow S} (hm : m.Reachable)
    {length : UInt64} (hpos : 1 ≤ length) (hle : length.toNat ≤ m.capacity)
    (timestamp : List Microsecond) (array : List α)
    (htimestamp : length.toNat ≤ timestamp.length)
    (harray : length.toNat ≤ array.length) :
    ∃ (ts : List Microsecond) (vs : List α),
      ts.length = length.toNat ∧ vs.length = length.toNat ∧
      m.copyLast timestamp array length =
        some (length.toNat, ts ++ timestamp.drop length.toNat,
          vs ++ array.drop length.toNat) ∧
      m.copyLastSlow timestamp array length =
        some (length.toNat, ts ++ timestamp.drop length.toNat,
          vs ++ array.drop length.toNat) ∧
      (∀ k < length.toNat,
        vs[length.toNat - 1 - k]? = m.at? (-k) ∧
        ts[length.toNat - 1 - k]? = some (m.getTime (-k))) ∧
      (∀ i t t', ts[i]? = some t → ts[i + 1]? = some t' → t + m.interval = t') ∧
      ts.getLast? = some (m.getTime 0) := by
  have hfull := full_of_reachable hm
  have hone : 1 ≤ length.toNat := UInt64.le_iff_toNat_le.mp hpos
  have hsamples := length_samples hfull
  have htimes : ∀ k < length.toNat, (m.times length.toNat)[length.toNat - 1 - k]? =
      some (m.getTime (-k)) := fun k hk => getElem?_times m hk
  refine ⟨m.times length.toNat, m.samples.drop (m.capacity - length.toNat), ?_, ?_,
    copyLast_eq hfull hpos hle htimestamp harray,
    copyLastSlow_eq hfull hpos hle htimestamp harray, fun k hk => ⟨?_, htimes k hk⟩, ?_, ?_⟩
  · simp [times]
  · rw [List.length_drop, hsamples]
    omega
  · rw [List.getElem?_drop, ← getElem?_samples hfull (by omega)]
    congr 1
    omega
  · intro i t t' ht ht'
    obtain ⟨k, hk⟩ : ∃ k, length.toNat = i + 1 + k + 1 := by
      obtain ⟨hlt, -⟩ := List.getElem?_eq_some_iff.mp ht'
      rw [times, List.length_map, List.length_range] at hlt
      exact ⟨length.toNat - (i + 2), by omega⟩
    have hthis := htimes (k + 1) (by omega)
    have hnext := htimes k (by omega)
    rw [show length.toNat - 1 - (k + 1) = i by omega, ht, Option.some.injEq] at hthis
    rw [show length.toNat - 1 - k = i + 1 by omega, ht', Option.some.injEq] at hnext
    rw [hthis, hnext]
    exact m.getTime_succ k
  · have hlast := htimes 0 (by omega)
    rw [List.getLast?_eq_getElem?]
    simpa [times] using hlast

theorem copyLast_wrapped_ring :
    let m := ((new (Sampler.latest : Sampler Nat) 40 10 0).feed
      [(11, 4), (32, 8), (55, 9), (61, 7)]).2
    m.copyLast [0, 0, 0, 1] [0, 0, 0, 2] 3 = m.copyLastSlow [0, 0, 0, 1] [0, 0, 0, 2] 3 := by
  intro m
  obtain ⟨ts, vs, -, -, hfast, hslow, -⟩ :=
    @copyLast_eq_copyLastSlow _ _ m ⟨40, 10, 0, _, rfl⟩ 3 (by decide) (by decide)
      [0, 0, 0, 1] [0, 0, 0, 2] (by decide) (by decide)
  rw [hfast, hslow]

example :
    ((new (Sampler.latest : Sampler Nat) 40 10 0).feed
        [(11, 4), (32, 8), (55, 9), (61, 7)]).2.copyLast [0, 0, 0, 1] [0, 0, 0, 2] 3 =
      some (3, [40, 50, 60, 1], [8, 9, 7, 2]) := by
  rfl

end Atp.MovingWindow

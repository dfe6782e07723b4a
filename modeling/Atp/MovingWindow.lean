import Atp.CircularBuffer
import Atp.IntervalPolicy
import Atp.Samplers

/-!
The moving window: a ring of the last closed windows, the value of the current
one, and a sampler that folds the events of the current window into it.
-/

namespace Atp

universe u

variable {α : Type u}

abbrev Event (α : Type u) := Microsecond × α

structure MovingWindow (S : Sampler α) where
  historyDuration : Microsecond
  interval : Microsecond
  buffer : CircularBuffer α
  init : α
  currentValue : α
  currentTs : Microsecond
  collected : Nat
  samplerState : S.State

namespace MovingWindow

variable {S : Sampler α}

/-- The number of closed windows that fit the history. -/
def slots (h i : Microsecond) : Nat := h.toNat / i.toNat

/-- Total duration, time resolution, and initial value.  The buffer is filled
with the initial value. -/
def new (S : Sampler α) (h i : Microsecond) (init : α) : MovingWindow S where
  historyDuration := h
  interval := i
  buffer := (CircularBuffer.empty (slots h i)).pushN init (slots h i)
  init := init
  currentValue := init
  currentTs := 0
  collected := 0
  samplerState := S.init

def policy (m : MovingWindow S) : AlignAtZero := ⟨m.interval⟩

def totalEvents (m : MovingWindow S) : Nat := m.collected

def capacity (m : MovingWindow S) : Nat := m.buffer.capacity + 1

def size (m : MovingWindow S) : Nat := m.buffer.size + 1

/-- `operator[]`: zero is the current value and negative indices count back
through the closed windows.  `none` is a read outside the buffer. -/
def at? (m : MovingWindow S) (index : Int) : Option α :=
  if index = 0 then some m.currentValue
  else if index < 0 then
    if 0 ≤ m.buffer.size + index then
      m.buffer.get? (m.buffer.size + index).toNat
    else none
  else some m.init

def getTime (m : MovingWindow S) (offset : Int := 0) : Microsecond :=
  m.policy.getTime m.currentTs (UInt64.ofInt (-offset))

/-- The windows that have passed since the last event; missing windows are not
filled in at start-up. -/
def windows (m : MovingWindow S) (timestamp : Microsecond) : Int32 :=
  if m.currentTs > 0 then m.policy.countWindows m.currentTs timestamp else 0

/-- The iterations of `for (int i = 0; i < windows; ++i)`. -/
def pushes (m : MovingWindow S) (timestamp : Microsecond) : Nat :=
  (m.windows timestamp).toInt.toNat

def newPeriod (m : MovingWindow S) (timestamp : Microsecond) : Bool :=
  decide (m.windows timestamp > 0) || decide (m.currentTs = 0)

/-- `operator()`: closes the windows that have passed since the last event and
samples the value into the current one.  The result is the number of windows
closed. -/
def on (m : MovingWindow S) (timestamp : Microsecond) (value : α) :
    UInt64 × MovingWindow S :=
  let sampled := S.sample m.samplerState m.currentValue value (m.newPeriod timestamp)
  ((m.windows timestamp).toInt64.toUInt64,
    { m with
      buffer := m.buffer.pushN m.currentValue (m.pushes timestamp)
      collected := m.collected + m.pushes timestamp
      currentValue := sampled.2
      currentTs := timestamp
      samplerState := sampled.1 })

def feed (m : MovingWindow S) : List (Event α) → List UInt64 × MovingWindow S
  | [] => ([], m)
  | e :: es =>
      let step := m.on e.1 e.2
      let rest := feed step.2 es
      (step.1 :: rest.1, rest.2)

theorem feed_append (m : MovingWindow S) (es fs : List (Event α)) :
    m.feed (es ++ fs) =
      ((m.feed es).1 ++ ((m.feed es).2.feed fs).1, ((m.feed es).2.feed fs).2) := by
  induction es generalizing m with
  | nil => rfl
  | cons e es ih => simp [feed, ih]

/-- A state reached from the constructor by some events. -/
def Reachable (m : MovingWindow S) : Prop :=
  ∃ h i init es, m = ((new S h i init).feed es).2

/-! ### What an event leaves unchanged -/

@[simp] theorem on_interval (m : MovingWindow S) (t : Microsecond) (v : α) :
    (m.on t v).2.interval = m.interval := rfl

@[simp] theorem on_init (m : MovingWindow S) (t : Microsecond) (v : α) :
    (m.on t v).2.init = m.init := rfl

@[simp] theorem on_currentTs (m : MovingWindow S) (t : Microsecond) (v : α) :
    (m.on t v).2.currentTs = t := rfl

@[simp] theorem on_capacity (m : MovingWindow S) (t : Microsecond) (v : α) :
    (m.on t v).2.buffer.capacity = m.buffer.capacity := by
  simp [on]

@[simp] theorem on_collected (m : MovingWindow S) (t : Microsecond) (v : α) :
    (m.on t v).2.collected = m.collected + m.pushes t := rfl

theorem full_on {m : MovingWindow S} (hfull : m.buffer.Full) (t : Microsecond)
    (v : α) : (m.on t v).2.buffer.Full :=
  CircularBuffer.full_pushN _ hfull _

theorem full_new (S : Sampler α) (h i : Microsecond) (init : α) :
    (new S h i init).buffer.Full :=
  CircularBuffer.full_pushN_empty _ _

@[simp] theorem capacity_new (S : Sampler α) (h i : Microsecond) (init : α) :
    (new S h i init).buffer.capacity = slots h i := by
  simp [new]

theorem feed_invariant {P : MovingWindow S → Prop}
    (hstep : ∀ m t v, P m → P (m.on t v).2) (m : MovingWindow S) (hm : P m)
    (es : List (Event α)) : P (m.feed es).2 := by
  induction es generalizing m with
  | nil => exact hm
  | cons e es ih => exact ih _ (hstep m e.1 e.2 hm)

theorem full_feed {m : MovingWindow S} (hfull : m.buffer.Full)
    (es : List (Event α)) : (m.feed es).2.buffer.Full :=
  feed_invariant (P := fun m => m.buffer.Full) (fun _ t v h => full_on h t v)
    m hfull es

theorem full_of_reachable {m : MovingWindow S} (hm : m.Reachable) :
    m.buffer.Full := by
  obtain ⟨h, i, init, es, rfl⟩ := hm
  exact full_feed (full_new S h i init) es

theorem capacity_feed (m : MovingWindow S) (es : List (Event α)) :
    (m.feed es).2.buffer.capacity = m.buffer.capacity :=
  feed_invariant (P := fun m' => m'.buffer.capacity = m.buffer.capacity)
    (fun m' t v h => (m'.on_capacity t v).trans h) m rfl es

/-! ### The two ways an event is taken -/

theorem on_start {m : MovingWindow S} (hts : m.currentTs = 0) (t : Microsecond)
    (v : α) :
    m.on t v = (0, { m with
      currentValue := (S.sample m.samplerState m.currentValue v true).2
      currentTs := t
      samplerState := (S.sample m.samplerState m.currentValue v true).1 }) := by
  simp only [on, pushes, newPeriod, windows, hts, gt_iff_lt, decide_true, Bool.or_true]
  rfl

/-- An event at most `2^31` windows after the last one closes exactly the
windows in between, all with the current value. -/
theorem on_next {m : MovingWindow S} (hw : 0 < m.interval) (hts : 0 < m.currentTs)
    {t : Microsecond} (hle : m.currentTs ≤ t) {passed : Nat}
    (hpassed : windowOf m.interval t = windowOf m.interval m.currentTs + passed)
    (hnear : passed < 2 ^ 31) (v : α) :
    (m.on t v).1.toNat = passed ∧
      (m.on t v).2 = { m with
        buffer := m.buffer.pushN m.currentValue passed
        collected := m.collected + passed
        currentValue :=
          (S.sample m.samplerState m.currentValue v (decide (0 < passed))).2
        currentTs := t
        samplerState :=
          (S.sample m.samplerState m.currentValue v (decide (0 < passed))).1 } := by
  have hcount : (m.policy.countWindows m.currentTs t).toInt = passed := by
    rw [m.policy.toInt_countWindows hw hle (by
      change windowOf m.interval t - windowOf m.interval m.currentTs < 2 ^ 31
      omega)]
    change ((windowOf m.interval t : Int) - windowOf m.interval m.currentTs) = passed
    omega
  have hpos : decide (0 < m.policy.countWindows m.currentTs t) = decide (0 < passed) := by
    rw [decide_eq_decide, Int32.lt_iff_toInt_lt, hcount]
    exact Int.natCast_pos
  have hne : decide (m.currentTs = 0) = false := by
    rw [decide_eq_false_iff_not]
    rintro h0
    simp [h0] at hts
  have hsize := toNat_toUInt64 (i := m.policy.countWindows m.currentTs t) (by omega)
  constructor
  · simp only [on, windows, gt_iff_lt, hts, ↓reduceIte]
    omega
  · simp only [on, pushes, newPeriod, windows, gt_iff_lt, hts, ↓reduceIte, hcount, hne,
      Bool.or_false, Int.toNat_natCast, hpos]

/-! ### Reading the closed windows -/

theorem getTime_neg (m : MovingWindow S) (k : Nat) :
    m.getTime (-k) = m.policy.getTime m.currentTs (UInt64.ofNat k) := by
  rw [getTime, neg_neg, UInt64.ofInt]
  congr 1
  apply UInt64.toNat_inj.mp
  rw [UInt64.toNat_ofNat', UInt64.toNat_ofNat']
  omega

theorem at?_zero (m : MovingWindow S) : m.at? 0 = some m.currentValue := rfl

theorem at?_neg {m : MovingWindow S} (hfull : m.buffer.Full) {k : Nat}
    (hpos : 0 < k) (hk : k ≤ m.buffer.capacity) :
    m.at? (-k) = m.buffer.toList[m.buffer.capacity - k]? := by
  have hsize : m.buffer.size = m.buffer.capacity := hfull
  have hidx : ((m.buffer.size : Int) + -(k : Int)).toNat = m.buffer.capacity - k := by
    omega
  rw [at?, if_neg (by omega), if_pos (by omega), if_pos (by omega), hidx,
    m.buffer.get?_eq_getElem?_toList hfull _ (by omega)]

theorem at?_on_neg {m : MovingWindow S} (hfull : m.buffer.Full) (t : Microsecond)
    (v : α) {k : Nat} (hpos : 0 < k) (hk : k ≤ m.buffer.capacity) :
    (m.on t v).2.at? (-k) =
      if k ≤ m.pushes t then some m.currentValue
      else m.at? (-(k - m.pushes t : Nat)) := by
  have hlen : m.buffer.toList.length = m.buffer.capacity := by
    rw [CircularBuffer.length_toList]
    exact hfull
  rw [at?_neg (full_on hfull t v) hpos (by rwa [on_capacity]), on_capacity]
  change (m.buffer.pushN m.currentValue (m.pushes t)).toList[_]? = _
  rw [CircularBuffer.toList_pushN _ hfull, List.getElem?_drop]
  split_ifs with hnew
  · rw [List.getElem?_append_right (by omega), List.getElem?_replicate_of_lt (by omega)]
  · rw [at?_neg hfull (by omega) (by omega), List.getElem?_append_left (by omega)]
    congr 1
    omega

end MovingWindow

end Atp

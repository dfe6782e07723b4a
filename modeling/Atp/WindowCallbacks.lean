import Atp.ClosingValues
import Atp.Ohlc

/-!
The callbacks that print the windows an event has closed.  The number of windows
comes from the timestamps, and the values are read back from the ring, which keeps
only so many of them.
-/

namespace Atp.WindowCallbacks

open MovingWindow ClosingValues

universe u

variable {α : Type u} {S : Sampler α}

/-- `i` in `for (int i = -count; i < 0; ++i)`, where `count` is a `size_t`. -/
def indices (count : UInt64) : List Int :=
  let start := (0 - count).toUInt32.toInt32.toInt
  (List.range (-start).toNat).map fun k : Nat => start + k

/-- `moving_window_post_process_cout`: the time and value of each line.  There is
no value where the read is outside the buffer. -/
def postProcess (m : MovingWindow S) (count : UInt64) : List (Microsecond × Option α) :=
  (indices count).map fun i => (m.getTime i, m.at? i)

/-- The end of `operator()`. -/
def emitted (m : MovingWindow S) (timestamp : Microsecond) (value : α) :
    List (Microsecond × Option α) :=
  let p := m.on timestamp value
  if p.1 > 0 then postProcess p.2 p.1 else []

def prints (m : MovingWindow S) : List (Event α) → List (Microsecond × Option α)
  | [] => []
  | e :: es => emitted m e.1 e.2 ++ prints (m.on e.1 e.2).2 es

structure Row (V : Type u) where
  time : Microsecond
  «open» : Option V
  high : Option V
  low : Option V
  close : Option V

section

variable {V : Type u} [LinearOrder V]

/-- `post_process_cout` of an `ohlc`. -/
def ohlcPostProcess (x : Ohlc V) (count : UInt64) : List (Row V) :=
  (indices count).map fun i =>
    ⟨x.open_.getTime i, x.open_.at? i, x.high_.at? i, x.low_.at? i, x.close_.at? i⟩

def ohlcPrints (x : Ohlc V) : List (Event V) → List (Row V)
  | [] => []
  | e :: es =>
      let p := x.on e.1 e.2
      ohlcPostProcess p.2 p.1 ++ ohlcPrints p.2 es

end

def windowAt (w : Microsecond) (e : Option (Event α)) : Nat :=
  (e.map fun e => windowOf w e.1).getD 0

/-- The windows from the first event's on that the last event has closed. -/
def closedWindows (w : Microsecond) (evs : List (Event α)) : List Nat :=
  List.range' (windowAt w evs.head?) (windowAt w evs.getLast? - windowAt w evs.head?)

/-- The lines are those of the closed windows, one for each, in the order of time,
with the time at which the window starts and the value with which it closes. -/
def ListsClosed (S : Sampler α) (h w : Microsecond) (init : α) (evs : List (Event α))
    (lines : List (Microsecond × Option α)) : Prop :=
  lines.map (fun p => (p.1.toNat, p.2)) =
    (closedWindows w evs).map fun j => (j * w.toNat, some (closing S h w init evs j))

/-- The four columns of an `ohlc` list the closed windows. -/
structure OhlcLists {V : Type u} [LinearOrder V] (h w : Microsecond) (initial : V)
    (evs : List (Event V)) (rows : List (Row V)) : Prop where
  «open» : ListsClosed Sampler.open h w initial evs (rows.map fun r => (r.time, r.open))
  high : ListsClosed Sampler.max h w initial evs (rows.map fun r => (r.time, r.high))
  low : ListsClosed Sampler.min h w initial evs (rows.map fun r => (r.time, r.low))
  close : ListsClosed Sampler.close h w initial evs (rows.map fun r => (r.time, r.close))

/-- The second event closes no more windows than the ring keeps, and fewer than
`2^31`. -/
def Near (h w : Microsecond) (a b : Event α) : Prop :=
  windowOf w b.1 ≤ windowOf w a.1 + slots h w ∧ windowOf w b.1 < windowOf w a.1 + 2 ^ 31

/-- There are as many lines as closed windows, and no read was outside the buffer. -/
def Complete (w : Microsecond) (evs : List (Event α)) (lines : List (Microsecond × Option α)) :
    Prop :=
  lines.length = (closedWindows w evs).length ∧ ∀ p ∈ lines, p.2 ≠ none

/-! ### The loop of a callback -/

theorem neg_toUInt64 (i : Int32) : (0 - i.toInt64.toUInt64).toUInt32.toInt32 = -i := by
  have htrunc : i.toInt64.toUInt64.toUInt32.toInt32 = i := by
    apply Int32.toBitVec.inj
    change i.toInt64.toBitVec.setWidth 32 = i.toBitVec
    rw [← BitVec.signExtend_eq_setWidth_of_le _ (by decide)]
    exact congrArg Int32.toBitVec (Int32.toInt32_toInt64 i)
  rw [UInt64.toUInt32_sub, UInt32.toInt32_sub, htrunc]
  exact Int32.zero_sub i

theorem toInt_neg_toInt32 (q : UInt64) :
    (-q.toUInt32.toInt32).toInt = Int.bmod (-q.toNat) (2 ^ 32) := by
  have hq : q.toUInt32.toInt32.toInt = Int.bmod q.toNat (2 ^ 32) := by
    have htrunc := UInt64.toNat_toUInt32 q
    change q.toUInt32.toBitVec.toInt = _
    rw [BitVec.toInt_eq_toNat_bmod]
    change Int.bmod (q.toUInt32.toNat : Nat) (2 ^ 32) = _
    rw [htrunc, Int.natCast_emod]
    exact Int.emod_bmod _ _
  rw [Int32.toInt_neg, hq]
  exact Int.bmod_neg_bmod

/-- The number of lines for `n` windows. -/
def lineCount (n : Nat) : Nat := (-Int.bmod (-n) (2 ^ 32)).toNat

theorem lineCount_le (n : Nat) : lineCount n ≤ n := by
  simp only [lineCount, Int.bmod]
  omega

theorem lineCount_eq_iff (n : Nat) : lineCount n = n ↔ n ≤ 2 ^ 31 := by
  simp only [lineCount, Int.bmod]
  omega

theorem indices_of_bmod {count : UInt64} {n : Nat}
    (hstart : (0 - count).toUInt32.toInt32.toInt = Int.bmod (-n) (2 ^ 32)) :
    indices count = (List.range (lineCount n)).map fun k => -((lineCount n - k : Nat) : Int) := by
  rw [indices]
  simp only [hstart]
  apply List.map_congr_left
  intro k hk
  rw [List.mem_range] at hk
  change k < lineCount n at hk
  have hlines : lineCount n = (-Int.bmod (-n) (2 ^ 32)).toNat := rfl
  omega

/-! ### The lines after one event -/

theorem emitted_eq (m : MovingWindow S) (t : Microsecond) (v : α) :
    emitted m t v = postProcess (m.on t v).2 (m.on t v).1 := by
  rw [emitted]
  split_ifs with hpos
  · rfl
  · have hzero : (m.on t v).1 = 0 := by
      apply UInt64.toNat_inj.mp
      rw [gt_iff_lt, UInt64.lt_iff_toNat_lt] at hpos
      exact Nat.eq_zero_of_not_pos hpos
    rw [hzero]
    rfl

theorem emitted_start {m : MovingWindow S} (hts : m.currentTs = 0) (t : Microsecond) (v : α) :
    emitted m t v = [] := by
  rw [emitted, on_start hts]
  exact if_neg (UInt64.lt_irrefl 0)

section

variable {m : MovingWindow S} {t : Microsecond} {passed : Nat}

theorem emitted_next (hw : 0 < m.interval) (hts : 0 < m.currentTs) (hle : m.currentTs ≤ t)
    (hpassed : windowOf m.interval t = windowOf m.interval m.currentTs + passed) (v : α) :
    emitted m t v = (List.range (lineCount passed)).map fun k =>
      ((m.on t v).2.getTime (-((lineCount passed - k : Nat) : Int)),
        (m.on t v).2.at? (-((lineCount passed - k : Nat) : Int))) := by
  have hquot := m.policy.toNat_window_quotient hw hle
  have hnot : ¬ t < m.currentTs := UInt64.not_lt.mpr hle
  have hindices : indices (m.on t v).1 = (List.range (lineCount passed)).map
      fun k => -((lineCount passed - k : Nat) : Int) := by
    apply indices_of_bmod
    simp only [on, windows, gt_iff_lt, hts, ↓reduceIte]
    rw [neg_toUInt64]
    simp only [AlignAtZero.countWindows, hnot, ↓reduceIte]
    rw [toInt_neg_toInt32, hquot]
    congr 3
    change windowOf m.interval t - windowOf m.interval m.currentTs = passed
    omega
  rw [emitted_eq, postProcess, hindices, List.map_map]
  rfl

theorem length_emitted (hw : 0 < m.interval) (hts : 0 < m.currentTs) (hle : m.currentTs ≤ t)
    (hpassed : windowOf m.interval t = windowOf m.interval m.currentTs + passed) (v : α) :
    (emitted m t v).length = lineCount passed := by
  rw [emitted_next hw hts hle hpassed, List.length_map, List.length_range]

/-- If the ring still keeps all the windows that the event closes, they are listed
with the value that was current before it. -/
theorem emitted_of_near (hw : 0 < m.interval) (hts : 0 < m.currentTs) (hle : m.currentTs ≤ t)
    (hpassed : windowOf m.interval t = windowOf m.interval m.currentTs + passed)
    (hfull : m.buffer.Full) (hkept : passed ≤ m.buffer.capacity) (hnear : passed < 2 ^ 31)
    (v : α) :
    (emitted m t v).map (fun p => (p.1.toNat, p.2)) =
      (List.range' (windowOf m.interval m.currentTs) passed).map fun j =>
        (j * m.interval.toNat, some m.currentValue) := by
  have hcount := (lineCount_eq_iff passed).mpr hnear.le
  have hpushes := LateEvents.pushes_of_follows hw hts (t := t) (by omega) (by omega)
  rw [emitted_next hw hts hle hpassed, hcount, List.map_map, List.range'_eq_map_range,
    List.map_map]
  apply List.map_congr_left
  intro k hk
  rw [List.mem_range] at hk
  have hvalue := at?_on_neg hfull t v (k := passed - k) (by omega) (by omega)
  rw [if_pos (by omega)] at hvalue
  have htime : ((m.on t v).2.getTime (-((passed - k : Nat) : Int))).toNat =
      (windowOf m.interval m.currentTs + k) * m.interval.toNat := by
    rw [getTime_neg]
    refine (AlignAtZero.toNat_getTime _ _ _ ?_).trans ?_
    · change passed - k ≤ windowOf m.interval t
      omega
    · change (windowOf m.interval t - (passed - k)) * _ = _
      congr 1
      omega
  exact Prod.ext htime hvalue

/-- Otherwise the first read is outside the buffer. -/
theorem none_mem_emitted (hw : 0 < m.interval) (hts : 0 < m.currentTs) (hle : m.currentTs ≤ t)
    (hpassed : windowOf m.interval t = windowOf m.interval m.currentTs + passed)
    (hfull : m.buffer.Full) (hkept : m.buffer.capacity < lineCount passed) (v : α) :
    ∃ p ∈ emitted m t v, p.2 = none := by
  have hsize : (m.on t v).2.buffer.size = m.buffer.capacity :=
    (full_on hfull t v).trans (m.on_capacity t v)
  rw [emitted_next hw hts hle hpassed]
  refine ⟨_, List.mem_map_of_mem (List.mem_range.mpr (Nat.zero_lt_of_lt hkept)), ?_⟩
  change (m.on t v).2.at? _ = none
  rw [at?, if_neg (by omega), if_pos (by omega), if_neg (by omega)]

end

/-! ### The lines of a run -/

theorem prints_append (m : MovingWindow S) (es fs : List (Event α)) :
    prints m (es ++ fs) = prints m es ++ prints (m.feed es).2 fs := by
  induction es generalizing m with
  | nil => rfl
  | cons e es ih => simp [prints, feed, ih]

theorem windowAt_some (w : Microsecond) (e : Event α) : windowAt w (some e) = windowOf w e.1 := rfl

theorem range'_split {a b c : Nat} (hab : a ≤ b) (hbc : b ≤ c) :
    List.range' a (c - a) = List.range' a (b - a) ++ List.range' b (c - b) := by
  obtain ⟨m, rfl⟩ := Nat.exists_eq_add_of_le hab
  obtain ⟨n, rfl⟩ := Nat.exists_eq_add_of_le hbc
  rw [Nat.add_sub_cancel_left, Nat.add_sub_cancel_left, List.range'_append_1, Nat.add_assoc,
    Nat.add_sub_cancel_left]

theorem windowAt_head_le {w : Microsecond} {es : List (Event α)} {e : Event α}
    (horder : InTime (es ++ [e])) : windowAt w (es ++ [e]).head? ≤ windowOf w e.1 := by
  cases es with
  | nil => exact le_rfl
  | cons g es => exact horder.windowOf_le w List.mem_cons_self

theorem closedWindows_eq (w : Microsecond) (es : List (Event α)) (e : Event α) :
    closedWindows w (es ++ [e]) = List.range' (windowAt w (es ++ [e]).head?)
      (windowOf w e.1 - windowAt w (es ++ [e]).head?) := by
  simp [closedWindows, windowAt_some]

theorem closedWindows_concat {w : Microsecond} {es : List (Event α)} {e f : Event α}
    (horder : InTime (es ++ [e] ++ [f])) :
    closedWindows w (es ++ [e] ++ [f]) = closedWindows w (es ++ [e]) ++
      List.range' (windowOf w e.1) (windowOf w f.1 - windowOf w e.1) := by
  have hhead : (es ++ [e] ++ [f]).head? = (es ++ [e]).head? :=
    List.head?_append_of_ne_nil _ (by simp)
  rw [closedWindows_eq, closedWindows_eq, hhead]
  exact range'_split (windowAt_head_le horder.of_concat) (windowOf_mono w horder.last_le)

theorem lt_of_mem_closedWindows {w : Microsecond} {es : List (Event α)} {e : Event α} {j : Nat}
    (horder : InTime (es ++ [e])) (hj : j ∈ closedWindows w (es ++ [e])) :
    j < windowOf w e.1 := by
  have hle := windowAt_head_le (w := w) horder
  rw [closedWindows_eq, List.mem_range'_1] at hj
  omega

section

variable {h w : Microsecond} {init : α} (hw : 0 < w)

include hw

theorem listsClosed_of_near {evs : List (Event α)} (horder : InTime evs)
    (hnear : evs.IsChain (Near h w)) :
    ListsClosed S h w init evs (prints (new S h w init) evs) := by
  induction evs using List.reverseRecOn with
  | nil => rfl
  | append_singleton es f ih =>
      obtain ⟨hchain, -, hlast⟩ := List.isChain_append.mp hnear
      rcases es.eq_nil_or_concat with rfl | ⟨es, e, rfl⟩
      · simp [ListsClosed, prints, emitted_start (m := new S h w init) rfl, closedWindows]
      · rw [List.concat_eq_append] at *
        have hm := fed_concat (S := S) h w init es e
        obtain ⟨hinterval, hts, hle, hpassed⟩ := hm.ready hw horder
        obtain ⟨hkept, hfew⟩ := hlast e (by simp) f rfl
        have hlines := emitted_of_near hinterval hts hle hpassed hm.full
          (by rw [hm.capacity]; omega) (by omega) f.2
        rw [hm.interval, hm.currentTs] at hlines
        rw [ListsClosed, prints_append, List.map_append, closedWindows_concat horder,
          List.map_append, ih horder.of_concat hchain, prints, prints, List.append_nil, hlines]
        congr 1
        · apply List.map_congr_left
          intro j hj
          rw [closing_of_lt (lt_of_mem_closedWindows horder.of_concat hj)]
        · apply List.map_congr_left
          intro j hj
          obtain ⟨hlow, hhigh⟩ := List.mem_range'_1.mp hj
          rw [closing_of_le horder.of_concat hlow (by omega)]

theorem length_prints_le {evs : List (Event α)} (horder : InTime evs) :
    (prints (new S h w init) evs).length ≤ (closedWindows w evs).length := by
  induction evs using List.reverseRecOn with
  | nil => exact le_rfl
  | append_singleton es f ih =>
      rcases es.eq_nil_or_concat with rfl | ⟨es, e, rfl⟩
      · simp [prints, emitted_start (m := new S h w init) rfl]
      · rw [List.concat_eq_append] at *
        have hm := fed_concat (S := S) h w init es e
        obtain ⟨hinterval, hts, hle, hpassed⟩ := hm.ready hw horder
        have hlength := length_emitted hinterval hts hle hpassed f.2
        have hcount := lineCount_le (windowOf w f.1 - windowOf w e.1)
        have hrest := ih horder.of_concat
        rw [prints_append, List.length_append, prints, prints, List.append_nil, hlength,
          closedWindows_concat horder, List.length_append, List.length_range']
        omega

theorem near_of_complete (hslots : slots h w < 2 ^ 31) {evs : List (Event α)}
    (horder : InTime evs) (hcomplete : Complete w evs (prints (new S h w init) evs)) :
    evs.IsChain (Near h w) := by
  induction evs using List.reverseRecOn with
  | nil => exact .nil
  | append_singleton es f ih =>
      rcases es.eq_nil_or_concat with rfl | ⟨es, e, rfl⟩
      · exact .singleton f
      · rw [List.concat_eq_append] at *
        have hm := fed_concat (S := S) h w init es e
        obtain ⟨hinterval, hts, hle, hpassed⟩ := hm.ready hw horder
        have hlength := length_emitted hinterval hts hle hpassed f.2
        have hcount := lineCount_le (windowOf w f.1 - windowOf w e.1)
        have hrest := @length_prints_le _ S h w init hw _ horder.of_concat
        obtain ⟨hlines, hreads⟩ := hcomplete
        rw [prints_append, prints, prints, List.append_nil] at hlines hreads
        rw [List.length_append, hlength, closedWindows_concat horder, List.length_append,
          List.length_range'] at hlines
        have hall : lineCount (windowOf w f.1 - windowOf w e.1) =
            windowOf w f.1 - windowOf w e.1 := by omega
        have hkept : windowOf w f.1 - windowOf w e.1 ≤ slots h w := by
          by_contra hgone
          obtain ⟨p, hp, hnone⟩ := none_mem_emitted hinterval hts hle hpassed hm.full
            (by rw [hm.capacity, hall]; omega) f.2
          exact hreads p (List.mem_append_right _ hp) hnone
        refine List.isChain_append.mpr ⟨ih horder.of_concat ⟨by omega, ?_⟩, .singleton f, ?_⟩
        · intro p hp
          exact hreads p (List.mem_append_left _ hp)
        · intro e' he' f' hf'
          obtain rfl : e = e' := by simpa using he'
          obtain rfl : f = f' := by simpa using hf'
          constructor <;> omega

end

theorem ListsClosed.complete {h w : Microsecond} {init : α} {evs : List (Event α)}
    {lines : List (Microsecond × Option α)} (hlists : ListsClosed S h w init evs lines) :
    Complete w evs lines := by
  constructor
  · simpa using congrArg List.length hlists
  · intro p hp hnone
    have hmem := List.mem_map_of_mem (f := fun p => (p.1.toNat, p.2)) hp
    rw [hlists] at hmem
    obtain ⟨j, -, hj⟩ := List.mem_map.mp hmem
    rw [hnone] at hj
    cases (Prod.mk.inj hj).2

/-! ### The rows of an `ohlc` -/

theorem column_eq {β : Type*} {T : Sampler β} {m : MovingWindow S} {m' : MovingWindow T}
    (hm : Aligned m m') (t : Microsecond) (a : α) (b : β) :
    ((indices (m.on t a).1).map fun i => ((m.on t a).2.getTime i, (m'.on t b).2.at? i)) =
      emitted m' t b := by
  have hcount : (m.on t a).1 = (m'.on t b).1 := by
    simp only [on, hm.windows]
  have hinterval : m.interval = m'.interval := hm.interval
  rw [emitted_eq, postProcess, hcount]
  apply List.map_congr_left
  intro i _
  rw [getTime, getTime, policy, policy, on_interval, on_interval, on_currentTs, on_currentTs,
    hinterval]

section

variable {V : Type u} [LinearOrder V]

/-- Every column is what the callback of its own window would print. -/
theorem ohlcPrints_columns {x : Ohlc V} (hx : x.Inv) (evs : List (Event V)) :
    (ohlcPrints x evs).map (fun r => (r.time, r.open)) = prints x.open_ evs ∧
      (ohlcPrints x evs).map (fun r => (r.time, r.high)) = prints x.high_ evs ∧
      (ohlcPrints x evs).map (fun r => (r.time, r.low)) = prints x.low_ evs ∧
      (ohlcPrints x evs).map (fun r => (r.time, r.close)) = prints x.close_ evs := by
  induction evs generalizing x with
  | nil => exact ⟨rfl, rfl, rfl, rfl⟩
  | cons e es ih =>
      obtain ⟨hopen, hhigh, hlow, hclose⟩ := ih (hx.on e.1 e.2)
      have haligned : Aligned x.open_ x.open_ :=
        ⟨rfl, rfl, rfl, rfl, hx.close_aligned.full_left, hx.close_aligned.full_left⟩
      simp only [ohlcPrints, prints, List.map_append, hopen, hhigh, hlow, hclose,
        ohlcPostProcess, List.map_map, Function.comp_def, ← column_eq haligned e.1 e.2 e.2,
        ← column_eq hx.high_aligned e.1 e.2 e.2, ← column_eq hx.low_aligned e.1 e.2 e.2,
        ← column_eq hx.close_aligned e.1 e.2 e.2]
      exact ⟨rfl, rfl, rfl, rfl⟩

end

/-- What is printed for events in time is right if every event is near the one
before it and, with a ring of fewer than `2^31` windows, only then. -/
def RightIfNear (h w : Microsecond) (Right : List (Event α) → Prop) : Prop :=
  ∀ evs, InTime evs → (evs.IsChain (Near h w) → Right evs) ∧
    (slots h w < 2 ^ 31 → Right evs → evs.IsChain (Near h w))

theorem callbacks_right_if_near {V : Type u} [LinearOrder V] (S : Sampler α)
    (h w : Microsecond) (init : α) (initial : V) (hw : 0 < w) :
    RightIfNear h w (fun evs => ListsClosed S h w init evs (prints (new S h w init) evs)) ∧
    RightIfNear h w fun evs : List (Event V) =>
      OhlcLists h w initial evs (ohlcPrints (Ohlc.new h w initial) evs) := by
  constructor
  · intro evs horder
    constructor
    · exact listsClosed_of_near hw horder
    · intro hslots hlists
      exact near_of_complete hw hslots horder hlists.complete
  · intro evs horder
    obtain ⟨hopen, hhigh, hlow, hclose⟩ :=
      ohlcPrints_columns (Ohlc.inv_new h w initial) evs
    constructor
    · intro hnear
      constructor
      · rw [hopen]
        exact listsClosed_of_near hw horder hnear
      · rw [hhigh]
        exact listsClosed_of_near hw horder hnear
      · rw [hlow]
        exact listsClosed_of_near hw horder hnear
      · rw [hclose]
        exact listsClosed_of_near hw horder hnear
    · intro hslots hlists
      have hcomplete := hlists.open.complete
      rw [hopen] at hcomplete
      exact near_of_complete hw hslots horder hcomplete

theorem prints_of_short_gap :
    ListsClosed (Sampler.latest : Sampler Nat) 40 10 0 [(11, 4), (12, 5), (52, 8)]
      (prints (new Sampler.latest 40 10 0) [(11, 4), (12, 5), (52, 8)]) := by
  have hright := (callbacks_right_if_near (V := Nat) (Sampler.latest : Sampler Nat) 40 10 0 0
    (by decide)).1
  refine (hright [(11, 4), (12, 5), (52, 8)] ⟨by decide, ?_⟩).1 ?_
  · simp only [List.isChain_cons_cons, List.isChain_singleton, and_true]
    decide
  · simp only [List.isChain_cons_cons, List.isChain_singleton, and_true, Near]
    decide

/-- The second event closes five windows, and the ring keeps four. -/
theorem not_always_listed :
    ¬ ∀ evs, InTime evs → ListsClosed (Sampler.latest : Sampler Nat) 40 10 0 evs
      (prints (new Sampler.latest 40 10 0) evs) := by
  intro hall
  have hlists := hall [(11, 4), (61, 8)] ⟨by decide, by
    simp only [List.isChain_cons_cons, List.isChain_singleton, and_true]
    decide⟩
  exact hlists.complete.2 (10, none) (by decide +kernel) rfl

end Atp.WindowCallbacks

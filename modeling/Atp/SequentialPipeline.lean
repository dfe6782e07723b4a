import Atp.DerivedSeries

/-!
A pipeline from a moving window to indicators.  Each event of the window hands them
the last samples, and what they calculate is sampled into windows of their own.
-/

namespace Atp.SequentialPipeline

open MovingWindow DerivedSeries CheckedArray

variable {α : Type} {S : Sampler α}

structure Samples (α : Type) where
  t : List Microsecond
  v : List α
  len : UInt64

/-- A moving window with a virtual `calculate`. -/
structure Indicator (α : Type) where
  calculate : SeriesFunctor (Samples α) α
  state : calculate.State
  window : MovingWindow (Sampler.close : Sampler α)

/-- `calculate`, and `on` with what it returns. -/
def Indicator.on (timestamp : Microsecond) (samples : Samples α) (i : Indicator α) : Indicator α :=
  let computed := i.calculate.call i.state samples
  { i with
    state := computed.1
    window := (i.window.on timestamp computed.2).2 }

structure Pipeline (S : Sampler α) where
  source : MovingWindow S
  list : List (Indicator α)

/-- The array length of `operator()`. -/
def len (source : MovingWindow S) : UInt64 := UInt64.ofNat source.capacity - 1

/-- `operator()`, with what each indicator is handed.  The new arrays hold nothing
that is read; a write outside of them has no result. -/
def Pipeline.on (p : Pipeline S) (t : Microsecond) (v : α) :
    Option (Pipeline S × List (Samples α)) :=
  let len := len p.source
  let source := (p.source.on t v).2
  (source.copyLast (List.replicate len.toNat 0) (List.replicate len.toNat source.init) len).map
    fun (copied, tbuffer, vbuffer) =>
      let samples : Samples α := ⟨tbuffer, vbuffer, UInt64.ofNat copied⟩
      (⟨source, p.list.map (Indicator.on t samples)⟩, p.list.map fun _ => samples)

/-- One window less than the window has, up to the current value, and one interval
from each time to the next. -/
structure Regular (source : MovingWindow S) (samples : Samples α) : Prop where
  length_t : samples.t.length = source.capacity - 1
  length_v : samples.v.length = source.capacity - 1
  len : samples.len.toNat = source.capacity - 1
  last : samples.v.getLast? = some source.currentValue
  steps : ∀ i a b, samples.t[i]? = some a → samples.t[i + 1]? = some b →
    b.toNat = a.toNat + source.interval.toNat

/-- No write is outside of the buffers, and all that is handed out is regular. -/
def Right (p : Pipeline S) (t : Microsecond) (v : α) : Prop :=
  ∃ p' handed, p.on t v = some (p', handed) ∧
    p'.source = (p.source.on t v).2 ∧ handed.length = p.list.length ∧
    ∀ samples ∈ handed, Regular p'.source samples

/-! ### The buffers -/

section

variable {m : MovingWindow S} (hcapacity : m.capacity < 2 ^ 64)

include hcapacity

theorem toNat_len : (len m).toNat = m.capacity - 1 := by
  have hcast : (UInt64.ofNat m.capacity).toNat = m.capacity :=
    (UInt64.toNat_ofNat' ..).trans (Nat.mod_eq_of_lt hcapacity)
  have hone : 1 ≤ UInt64.ofNat m.capacity := by
    rw [UInt64.le_iff_toNat_le, hcast]
    exact Nat.le_add_left 1 _
  rw [len, toNat_pred hone, hcast]

/-- With room for a closed window, the samples are copied and nothing else. -/
theorem copyLast_len (hfull : m.buffer.Full) (hpos : 1 < m.capacity) :
    m.copyLast (List.replicate (len m).toNat 0) (List.replicate (len m).toNat m.init) (len m) =
      some (m.capacity - 1, m.times (m.capacity - 1), m.samples.drop 1) := by
  have hlen := toNat_len hcapacity
  have hone : 1 ≤ len m := by
    rw [UInt64.le_iff_toNat_le, hlen]
    exact Nat.le_sub_one_of_lt hpos
  rw [copyLast_eq hfull hone (by omega) (by simp) (by simp), hlen, List.drop_replicate,
    List.drop_replicate, Nat.sub_self, List.replicate_zero, List.replicate_zero, List.append_nil,
    List.append_nil, Nat.sub_sub_self hpos.le]

/-- Without, the current value is written beyond the end of an empty array. -/
theorem copyLast_len_of_one (hone : m.capacity = 1) :
    m.copyLast (List.replicate (len m).toNat 0) (List.replicate (len m).toNat m.init) (len m) =
      none := by
  have hlen : len m = 0 := UInt64.toNat_inj.mp (by rw [toNat_len hcapacity, hone]; rfl)
  have hstore : m.copyLastData [] 0 = none := rfl
  rw [hlen]
  change m.copyLast [] [] 0 = none
  rw [copyLast, hstore]
  exact if_neg (Nat.not_lt_zero _)

end

/-! ### The times -/

theorem toNat_getTime_neg (m : MovingWindow S) {k : Nat}
    (hk : k ≤ windowOf m.interval m.currentTs) :
    (m.getTime (-(k : Nat))).toNat =
      (windowOf m.interval m.currentTs - k) * m.interval.toNat := by
  rw [getTime_neg]
  exact AlignAtZero.toNat_getTime m.policy m.currentTs k hk

/-- The times go up by one interval each exactly if they do not reach back before
time zero. -/
theorem steps_iff {m : MovingWindow S} (hinterval : 0 < m.interval) {n : Nat} (hn : 0 < n) :
    (∀ i a b, (m.times n)[i]? = some a → (m.times n)[i + 1]? = some b →
        b.toNat = a.toNat + m.interval.toNat) ↔
      n - 1 ≤ windowOf m.interval m.currentTs := by
  have hw : 0 < m.interval.toNat := UInt64.lt_iff_toNat_lt.mp hinterval
  constructor
  · intro hsteps
    -- Each time is as many intervals before the current window as it is windows back.
    have hback : ∀ k < n, (m.getTime (-(k : Nat))).toNat + k * m.interval.toNat =
        windowOf m.interval m.currentTs * m.interval.toNat := by
      intro k
      induction k with
      | zero =>
          intro _
          rw [toNat_getTime_neg m (Nat.zero_le _), Nat.sub_zero, Nat.zero_mul, Nat.add_zero]
      | succ k ih =>
          intro hk
          have hnext : n - 1 - (k + 1) + 1 = n - 1 - k := by omega
          have hstep := hsteps (n - 1 - (k + 1)) _ _ (getElem?_times m hk)
            (hnext ▸ getElem?_times m (Nat.lt_of_succ_lt hk))
          have hprev := ih (Nat.lt_of_succ_lt hk)
          rw [Nat.succ_mul]
          omega
    have hlast := hback (n - 1) (by omega)
    exact Nat.le_of_mul_le_mul_right (Nat.le.intro ((Nat.add_comm _ _).trans hlast)) hw
  · intro hle i a b ha hb
    obtain ⟨k, rfl⟩ : ∃ k, n = i + 1 + k + 1 := by
      obtain ⟨hlt, -⟩ := List.getElem?_eq_some_iff.mp hb
      rw [times, List.length_map, List.length_range] at hlt
      exact ⟨n - (i + 2), by omega⟩
    have hthis := getElem?_times m (show k + 1 < i + 1 + k + 1 by omega)
    have hnext := getElem?_times m (show k < i + 1 + k + 1 by omega)
    rw [show i + 1 + k + 1 - 1 - (k + 1) = i by omega, ha, Option.some.injEq] at hthis
    rw [show i + 1 + k + 1 - 1 - k = i + 1 by omega, hb, Option.some.injEq] at hnext
    rw [hthis, hnext, toNat_getTime_neg m (by omega), toNat_getTime_neg m (by omega),
      ← Nat.succ_mul]
    exact congrArg (· * m.interval.toNat) (by omega)

/-! ### One event -/

/-- The copy of a window with room for a closed one. -/
def copied (m : MovingWindow S) : Samples α :=
  ⟨m.times (m.capacity - 1), m.samples.drop 1, UInt64.ofNat (m.capacity - 1)⟩

/-- What is copied after an event is regular exactly if the history does not reach
back before time zero. -/
theorem regular_iff {m : MovingWindow S} (hfull : m.buffer.Full) (hcapacity : m.capacity < 2 ^ 64)
    (hpos : 1 < m.capacity) (hinterval : 0 < m.interval) :
    Regular m (copied m) ↔ m.capacity - 2 ≤ windowOf m.interval m.currentTs := by
  have hsteps := steps_iff hinterval (show 0 < m.capacity - 1 by omega)
  have htwo : m.capacity - 1 - 1 = m.capacity - 2 := by omega
  rw [htwo] at hsteps
  constructor
  · intro hregular
    exact hsteps.mp hregular.steps
  · intro hle
    refine ⟨?_, ?_, ?_, ?_, hsteps.mpr hle⟩
    · change (m.times (m.capacity - 1)).length = _
      rw [times, List.length_map, List.length_range]
    · change (m.samples.drop 1).length = _
      rw [List.length_drop, length_samples hfull]
    · change (UInt64.ofNat (m.capacity - 1)).toNat = _
      rw [UInt64.toNat_ofNat', Nat.mod_eq_of_lt (by omega)]
    · have hsize : 1 ≤ m.buffer.toList.length := by
        rw [CircularBuffer.length_toList, hfull]
        exact Nat.lt_of_succ_lt_succ hpos
      change (m.samples.drop 1).getLast? = some m.currentValue
      rw [samples, List.drop_append_of_le_length hsize, List.getLast?_concat]

/-- What the constructor sets up and every event keeps. -/
structure Built (p : Parameters α) (m : MovingWindow S) : Prop where
  full : m.buffer.Full
  capacity : m.capacity = slots p.history p.interval + 1
  interval : m.interval = p.interval

theorem built_on {p : Parameters α} {m : MovingWindow S} (hm : Built p m) (t : Microsecond)
    (v : α) :
    Built p (m.on t v).2 where
  full := full_on hm.full t v
  capacity := by rw [MovingWindow.capacity, on_capacity, ← MovingWindow.capacity, hm.capacity]
  interval := hm.interval

theorem built_feed (S : Sampler α) (p : Parameters α) (es : List (Event α)) :
    Built p ((p.new S).feed es).2 := by
  refine feed_invariant (P := Built p) (fun _ t v hm => built_on hm t v) (p.new S) ?_ es
  refine ⟨?_, ?_, rfl⟩
  · exact full_new S p.history p.interval p.init
  · rw [MovingWindow.capacity, Parameters.new, capacity_new]

theorem slots_lt (p : Parameters α) : slots p.history p.interval + 1 < 2 ^ 64 := by
  have hle : slots p.history p.interval ≤ p.history.toNat := Nat.div_le_self _ _
  have hlt := p.history_lt
  omega

section

variable {p : Parameters α} {m : MovingWindow S} (hm : Built p m)

include hm

theorem capacity_on_lt (t : Microsecond) (v : α) : (m.on t v).2.capacity < 2 ^ 64 := by
  rw [(built_on hm t v).capacity]
  exact slots_lt p

theorem len_on (t : Microsecond) (v : α) : len m = len (m.on t v).2 := by
  rw [len, len, hm.capacity, (built_on hm t v).capacity]

theorem on_eq_none (hzero : slots p.history p.interval = 0) (list : List (Indicator α))
    (t : Microsecond) (v : α) : Pipeline.on ⟨m, list⟩ t v = none := by
  have hcopy := copyLast_len_of_one (capacity_on_lt hm t v)
    (by rw [(built_on hm t v).capacity, hzero])
  rw [Pipeline.on]
  simp only [len_on hm t v, hcopy, Option.map_none]

theorem on_eq_some (hpos : 0 < slots p.history p.interval) (list : List (Indicator α))
    (t : Microsecond) (v : α) :
    Pipeline.on ⟨m, list⟩ t v =
      some (⟨(m.on t v).2, list.map (Indicator.on t (copied (m.on t v).2))⟩,
        list.map fun _ => copied (m.on t v).2) := by
  have hcopy := copyLast_len (capacity_on_lt hm t v) (built_on hm t v).full
    (by rw [(built_on hm t v).capacity]; omega)
  rw [Pipeline.on]
  simp only [len_on hm t v, hcopy, Option.map_some]
  rfl

theorem regular_on_iff (hpos : 0 < slots p.history p.interval) (t : Microsecond) (v : α) :
    Regular (m.on t v).2 (copied (m.on t v).2) ↔
      slots p.history p.interval - 1 ≤ windowOf p.interval t := by
  have hon := built_on hm t v
  have hcount : (m.on t v).2.capacity - 2 = slots p.history p.interval - 1 := by
    rw [hon.capacity]
    omega
  rw [regular_iff hon.full (capacity_on_lt hm t v) (by rw [hon.capacity]; omega)
    (hon.interval ▸ p.interval_pos), hcount, hon.interval]
  rfl

theorem right_iff_of_built (list : List (Indicator α)) (t : Microsecond) (v : α) :
    Right ⟨m, list⟩ t v ↔ 0 < slots p.history p.interval ∧
      (list = [] ∨ slots p.history p.interval - 1 ≤ windowOf p.interval t) := by
  rcases Nat.eq_zero_or_pos (slots p.history p.interval) with hzero | hpos
  · refine iff_of_false ?_ fun h => absurd h.1 (by omega)
    rintro ⟨p', handed, hsome, -⟩
    cases (on_eq_none hm hzero list t v).symm.trans hsome
  · rw [and_iff_right hpos, ← regular_on_iff hm hpos t v]
    constructor
    · rintro ⟨p', handed, hsome, -, -, hall⟩
      obtain ⟨rfl, rfl⟩ := Prod.mk.inj
        (Option.some.inj ((on_eq_some hm hpos list t v).symm.trans hsome))
      rcases list with _ | ⟨i, list⟩
      · exact .inl rfl
      · exact .inr (hall _ List.mem_cons_self)
    · intro h
      refine ⟨_, _, on_eq_some hm hpos list t v, rfl, List.length_map .., ?_⟩
      intro samples hsamples
      obtain ⟨i, hi, rfl⟩ := List.mem_map.mp hsamples
      exact h.resolve_left (List.ne_nil_of_mem hi)

end

/-- The writes stay inside of the buffers and the indicators are handed a regular
series exactly if the history has room for a window and, where there are indicators,
does not reach back before time zero. -/
theorem pipeline_right_iff (S : Sampler α) (p : Parameters α) (es : List (Event α))
    (list : List (Indicator α)) (t : Microsecond) (v : α) :
    Right ⟨((p.new S).feed es).2, list⟩ t v ↔
      0 < slots p.history p.interval ∧
        (list = [] ∨ slots p.history p.interval - 1 ≤ windowOf p.interval t) :=
  right_iff_of_built (built_feed S p es) list t v

/-- A history that is shorter than the interval. -/
theorem pipeline_writes_outside :
    Pipeline.on ⟨(Parameters.mk 5 10 (0 : Int) (by decide) (by decide)).new Sampler.close, []⟩
        1356998400000000 7 = none ∧
      ¬ Right ⟨(Parameters.mk 5 10 (0 : Int) (by decide) (by decide)).new Sampler.close, []⟩
        1356998400000000 7 := by
  have hon := on_eq_none (built_feed Sampler.close
    (Parameters.mk 5 10 (0 : Int) (by decide) (by decide)) []) rfl [] 1356998400000000 7
  refine ⟨hon, ?_⟩
  rintro ⟨p', handed, hsome, -⟩
  cases hon.symm.trans hsome

end Atp.SequentialPipeline

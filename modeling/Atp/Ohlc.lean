import Atp.MovingWindow

/-!
Open, high, low and close of a stream, kept by four moving windows that all see
the same events.
-/

namespace Atp

universe u v

namespace MovingWindow

variable {α : Type u} {β : Type v} {S : Sampler α} {T : Sampler β}

/-- Two windows that close at the same events. -/
structure Aligned (m : MovingWindow S) (m' : MovingWindow T) : Prop where
  interval : m.interval = m'.interval
  currentTs : m.currentTs = m'.currentTs
  collected : m.collected = m'.collected
  capacity : m.buffer.capacity = m'.buffer.capacity
  full_left : m.buffer.Full
  full_right : m'.buffer.Full

theorem aligned_new (S : Sampler α) (T : Sampler β) (h i : Microsecond) (a : α) (b : β) :
    Aligned (new S h i a) (new T h i b) :=
  ⟨rfl, rfl, rfl, by simp, full_new S h i a, full_new T h i b⟩

theorem Aligned.windows {m : MovingWindow S} {m' : MovingWindow T} (hm : Aligned m m')
    (t : Microsecond) : m.windows t = m'.windows t := by
  simp only [MovingWindow.windows, policy, hm.interval, hm.currentTs]

theorem Aligned.pushes {m : MovingWindow S} {m' : MovingWindow T} (hm : Aligned m m')
    (t : Microsecond) : m.pushes t = m'.pushes t := by
  simp only [MovingWindow.pushes, hm.windows]

theorem Aligned.newPeriod {m : MovingWindow S} {m' : MovingWindow T} (hm : Aligned m m')
    (t : Microsecond) : m.newPeriod t = m'.newPeriod t := by
  simp only [MovingWindow.newPeriod, hm.windows, hm.currentTs]

theorem Aligned.on {m : MovingWindow S} {m' : MovingWindow T} (hm : Aligned m m')
    (t : Microsecond) (a : α) (b : β) : Aligned (m.on t a).2 (m'.on t b).2 where
  interval := hm.interval
  currentTs := rfl
  collected := by rw [on_collected, on_collected, hm.collected, hm.pushes]
  capacity := by rw [on_capacity, on_capacity, hm.capacity]
  full_left := full_on hm.full_left t a
  full_right := full_on hm.full_right t b

theorem Aligned.feed {m : MovingWindow S} {m' : MovingWindow T} (hm : Aligned m m')
    {es : List (Event α)} {es' : List (Event β)} (htimes : es.map Prod.fst = es'.map Prod.fst) :
    Aligned (m.feed es).2 (m'.feed es').2 := by
  induction es generalizing m m' es' with
  | nil =>
      obtain rfl : es' = [] := by simpa using htimes.symm
      exact hm
  | cons e es ih =>
      cases es' with
      | nil => cases htimes
      | cons e' es' =>
          obtain ⟨htime, htimes⟩ := List.cons.inj htimes
          have hon := hm.on e.1 e.2 e'.2
          have htime : e.1 = e'.1 := htime
          rw [htime] at hon
          simp only [MovingWindow.feed, htime]
          exact ih hon htimes

theorem Aligned.size {m : MovingWindow S} {m' : MovingWindow T} (hm : Aligned m m') :
    m.size = m'.size := by
  have hleft : m.buffer.size = m.buffer.capacity := hm.full_left
  have hright : m'.buffer.size = m'.buffer.capacity := hm.full_right
  rw [MovingWindow.size, MovingWindow.size, hleft, hright, hm.capacity]

end MovingWindow

structure Ohlc (V : Type u) [LinearOrder V] where
  open_ : MovingWindow (Sampler.open : Sampler V)
  close_ : MovingWindow (Sampler.close : Sampler V)
  high_ : MovingWindow (Sampler.max : Sampler V)
  low_ : MovingWindow (Sampler.min : Sampler V)

namespace Ohlc

open MovingWindow

variable {V : Type u} [LinearOrder V]

def new (h s : Microsecond) (initial : V) : Ohlc V where
  open_ := MovingWindow.new _ h s initial
  close_ := MovingWindow.new _ h s initial
  high_ := MovingWindow.new _ h s initial
  low_ := MovingWindow.new _ h s initial

def size (x : Ohlc V) : Nat := x.open_.size

def on (x : Ohlc V) (timestamp : Microsecond) (value : V) : UInt64 × Ohlc V :=
  let «open» := x.open_.on timestamp value
  («open».1,
    { open_ := «open».2
      close_ := (x.close_.on timestamp value).2
      high_ := (x.high_.on timestamp value).2
      low_ := (x.low_.on timestamp value).2 })

def feed (x : Ohlc V) (es : List (Event V)) : Ohlc V :=
  es.foldl (fun x e => (x.on e.1 e.2).2) x

/-- The order of the four values of one window. -/
def Bracketed (o c h l : V) : Prop := l ≤ o ∧ o ≤ h ∧ l ≤ c ∧ c ≤ h

def BracketedAt (x : Ohlc V) (k : Nat) : Prop :=
  ∃ o c h l, x.open_.at? (-k) = some o ∧ x.close_.at? (-k) = some c ∧
    x.high_.at? (-k) = some h ∧ x.low_.at? (-k) = some l ∧ Bracketed o c h l

/-- What every event keeps.  Until a positive timestamp has been seen the open
sampler may hold nothing; afterwards it holds the current open. -/
structure Inv (x : Ohlc V) : Prop where
  close_aligned : Aligned x.open_ x.close_
  high_aligned : Aligned x.open_ x.high_
  low_aligned : Aligned x.open_ x.low_
  opened : x.open_.currentTs = 0 ∨ x.open_.samplerState = some x.open_.currentValue
  current : Bracketed x.open_.currentValue x.close_.currentValue x.high_.currentValue
    x.low_.currentValue
  closed : ∀ k : Nat, 0 < k → k ≤ x.open_.buffer.capacity → k ≤ x.open_.collected →
    x.BracketedAt k

theorem inv_new (h s : Microsecond) (initial : V) : (new h s initial).Inv where
  close_aligned := aligned_new _ _ h s initial initial
  high_aligned := aligned_new _ _ h s initial initial
  low_aligned := aligned_new _ _ h s initial initial
  opened := .inl rfl
  current := ⟨le_rfl, le_rfl, le_rfl, le_rfl⟩
  closed := by
    intro k hpos _ hcollected
    exact absurd hcollected (Nat.not_le.mpr hpos)

/-- The first event of a window sets all four values, a later one moves only
the close and widens the range to hold it. -/
theorem Inv.current_on {x : Ohlc V} (hx : x.Inv) (t : Microsecond) (v : V) :
    Bracketed (x.on t v).2.open_.currentValue (x.on t v).2.close_.currentValue
      (x.on t v).2.high_.currentValue (x.on t v).2.low_.currentValue ∧
    (x.on t v).2.open_.samplerState = some (x.on t v).2.open_.currentValue := by
  refine ⟨?_, rfl⟩
  change Bracketed (Sampler.open.sample x.open_.samplerState x.open_.currentValue v
      (x.open_.newPeriod t)).2
    v (if x.high_.newPeriod t then v else Max.max x.high_.currentValue v)
    (if x.low_.newPeriod t then v else Min.min x.low_.currentValue v)
  rw [← hx.high_aligned.newPeriod, ← hx.low_aligned.newPeriod]
  cases hnew : x.open_.newPeriod t with
  | true => exact ⟨le_rfl, le_rfl, le_rfl, le_rfl⟩
  | false =>
      have hstarted : x.open_.currentTs ≠ 0 := by
        rintro hzero
        simp [MovingWindow.newPeriod, hzero] at hnew
      have hopen := hx.opened.resolve_left hstarted
      obtain ⟨hlo, hoh, -, -⟩ := hx.current
      rw [hopen]
      exact ⟨(min_le_left _ _).trans hlo, hoh.trans (le_max_left _ _),
        min_le_right _ _, le_max_right _ _⟩

theorem Inv.closed_on {x : Ohlc V} (hx : x.Inv) (t : Microsecond) (v : V) (k : Nat)
    (hpos : 0 < k) (hk : k ≤ x.open_.buffer.capacity)
    (hcollected : k ≤ x.open_.collected + x.open_.pushes t) :
    (x.on t v).2.BracketedAt k := by
  unfold BracketedAt
  change ∃ o c h l, (x.open_.on t v).2.at? (-k) = some o ∧
    (x.close_.on t v).2.at? (-k) = some c ∧ (x.high_.on t v).2.at? (-k) = some h ∧
    (x.low_.on t v).2.at? (-k) = some l ∧ Bracketed o c h l
  rw [at?_on_neg hx.close_aligned.full_left t v hpos hk,
    at?_on_neg hx.close_aligned.full_right t v hpos (hx.close_aligned.capacity ▸ hk),
    at?_on_neg hx.high_aligned.full_right t v hpos (hx.high_aligned.capacity ▸ hk),
    at?_on_neg hx.low_aligned.full_right t v hpos (hx.low_aligned.capacity ▸ hk),
    ← hx.close_aligned.pushes, ← hx.high_aligned.pushes, ← hx.low_aligned.pushes]
  split_ifs with hnew
  · exact ⟨_, _, _, _, rfl, rfl, rfl, rfl, hx.current⟩
  · exact hx.closed _ (Nat.sub_pos_of_lt (Nat.not_le.mp hnew))
      ((Nat.sub_le _ _).trans hk) (Nat.sub_le_iff_le_add.mpr hcollected)

theorem Inv.on {x : Ohlc V} (hx : x.Inv) (t : Microsecond) (v : V) :
    (x.on t v).2.Inv where
  close_aligned := hx.close_aligned.on t v v
  high_aligned := hx.high_aligned.on t v v
  low_aligned := hx.low_aligned.on t v v
  opened := .inr (hx.current_on t v).2
  current := (hx.current_on t v).1
  closed := by
    intro k hpos hk hcollected
    exact hx.closed_on t v k hpos (by simpa [Ohlc.on] using hk) hcollected

theorem inv_feed {x : Ohlc V} (hx : x.Inv) (es : List (Event V)) : (x.feed es).Inv := by
  induction es generalizing x with
  | nil => exact hx
  | cons e es ih => exact ih (hx.on e.1 e.2)

theorem open_feed (x : Ohlc V) (es : List (Event V)) :
    (x.feed es).open_ = (x.open_.feed es).2 := by
  induction es generalizing x with
  | nil => rfl
  | cons e es ih => exact ih (x.on e.1 e.2).2

/-- Whatever the order of the events, low ≤ open, close ≤ high in the current
window and in every closed one that still fits the history, and the four
windows advance together. -/
theorem low_le_open_close_le_high (h s : Microsecond) (initial : V)
    (es : List (Event V)) :
    let x := (new h s initial).feed es
    (∀ k : Nat, k = 0 ∨ k ≤ x.open_.collected → k ≤ slots h s → x.BracketedAt k) ∧
    (x.close_.currentTs = x.open_.currentTs ∧ x.high_.currentTs = x.open_.currentTs ∧
      x.low_.currentTs = x.open_.currentTs) ∧
    (x.close_.size = x.open_.size ∧ x.high_.size = x.open_.size ∧
      x.low_.size = x.open_.size) ∧
    (x.close_.collected = x.open_.collected ∧ x.high_.collected = x.open_.collected ∧
      x.low_.collected = x.open_.collected) := by
  intro x
  have hx : x.Inv := inv_feed (inv_new h s initial) es
  have hcapacity : x.open_.buffer.capacity = slots h s := by
    rw [open_feed, capacity_feed]
    exact capacity_new _ _ _ _
  refine ⟨?_, ⟨hx.close_aligned.currentTs.symm, hx.high_aligned.currentTs.symm,
    hx.low_aligned.currentTs.symm⟩, ⟨hx.close_aligned.size.symm, hx.high_aligned.size.symm,
    hx.low_aligned.size.symm⟩, hx.close_aligned.collected.symm,
    hx.high_aligned.collected.symm, hx.low_aligned.collected.symm⟩
  intro k hpushed hk
  rcases Nat.eq_zero_or_pos k with rfl | hpos
  · exact ⟨_, _, _, _, rfl, rfl, rfl, rfl, hx.current⟩
  · exact hx.closed k hpos (hcapacity ▸ hk)
      (hpushed.resolve_left (Nat.ne_of_gt hpos))

end Ohlc

end Atp

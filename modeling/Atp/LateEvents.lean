import Atp.MovingWindow
import Atp.Runs

/-!
Events in any order: an event older than the current window closes no window,
but the window takes its timestamp over, so that time moves back and the windows
in between are closed a second time.
-/

namespace Atp.LateEvents

universe u

variable {α : Type u} {S : Sampler α}

/-- A timestamp of an event.  The window keeps zero for "no event yet". -/
abbrev Timestamp := {t : Microsecond // 0 < t}

/-- A window with what its caller has seen: the first and the largest timestamp,
zero before there is one, and the time of the window before the last event. -/
structure Observed (S : Sampler α) where
  window : MovingWindow S
  first : Microsecond := 0
  largest : Microsecond := 0
  previousTime : Microsecond := 0

def observe (o : Observed S) (t : Microsecond) (v : α) : Observed S where
  window := (o.window.on t v).2
  first := if o.first = 0 then t else o.first
  largest := if o.largest < t then t else o.largest
  previousTime := o.window.getTime

def step (o : Observed S) (e : Timestamp × α) : Option (Observed S) :=
  some (observe o e.1.val e.2)

/-- The time of the current window has not moved back, and as many samples are
collected as there are windows from the first timestamp to the largest. -/
def Aligned (o : Observed S) : Prop :=
  o.previousTime ≤ o.window.getTime ∧
    o.window.totalEvents + windowOf o.window.interval o.first =
      windowOf o.window.interval o.largest

/-- The event is the first one, or it is in the current window or in one of the
`2^31 - 1` windows after it. -/
def Follows (o : Observed S) (e : Timestamp × α) : Prop :=
  o.window.currentTs = 0 ∨
    windowOf o.window.interval o.window.currentTs ≤ windowOf o.window.interval e.1.val ∧
      windowOf o.window.interval e.1.val <
        windowOf o.window.interval o.window.currentTs + 2 ^ 31

/-! ### The windows that an event closes -/

theorem pushes_lt (m : MovingWindow S) (t : Microsecond) : m.pushes t < 2 ^ 31 := by
  have hlt := (m.windows t).toInt_lt
  unfold MovingWindow.pushes
  omega

theorem pushes_of_start {m : MovingWindow S} (hts : m.currentTs = 0) (t : Microsecond) :
    m.pushes t = 0 := by
  have hwindows : m.windows t = 0 := by
    rw [MovingWindow.windows, hts]
    exact if_neg (by decide)
  rw [MovingWindow.pushes, hwindows]
  decide

theorem pushes_of_follows {m : MovingWindow S} (hw : 0 < m.interval) (hts : 0 < m.currentTs)
    {t : Microsecond} (hle : windowOf m.interval m.currentTs ≤ windowOf m.interval t)
    (hnear : windowOf m.interval t < windowOf m.interval m.currentTs + 2 ^ 31) :
    windowOf m.interval m.currentTs + m.pushes t = windowOf m.interval t := by
  have hwindows : m.windows t = m.policy.countWindows m.currentTs t := if_pos hts
  rw [MovingWindow.pushes, hwindows]
  by_cases hlate : t < m.currentTs
  · have hsame : windowOf m.interval t ≤ windowOf m.interval m.currentTs :=
      windowOf_mono _ (UInt64.le_of_lt hlate)
    rw [m.policy.countWindows_of_lt hlate]
    exact Nat.le_antisymm hle hsame
  · have hcount := m.policy.toInt_countWindows hw (UInt64.not_lt.mp hlate) (by
      change windowOf m.interval t - windowOf m.interval m.currentTs < 2 ^ 31
      omega)
    rw [hcount]
    change _ + ((windowOf m.interval t : Int) - windowOf m.interval m.currentTs).toNat = _
    omega

theorem toNat_getTime (m : MovingWindow S) :
    m.getTime.toNat = windowOf m.interval m.currentTs * m.interval.toNat :=
  m.policy.toNat_getTime_zero m.currentTs

/-! ### The invariant -/

structure Inv (o : Observed S) : Prop where
  interval : 0 < o.window.interval
  started : o.first = 0 ↔ o.window.currentTs = 0
  largest : windowOf o.window.interval o.largest =
    windowOf o.window.interval o.window.currentTs
  aligned : Aligned o

theorem inv_start (S : Sampler α) (h : Microsecond) {i : Microsecond} (hi : 0 < i) (init : α) :
    Inv ({ window := MovingWindow.new S h i init } : Observed S) where
  interval := hi
  started := Iff.rfl
  largest := rfl
  aligned := ⟨UInt64.le_iff_toNat_le.mpr (Nat.zero_le _), Nat.zero_add _⟩

theorem windowOf_largest (w a t : Microsecond) (hle : windowOf w a ≤ windowOf w t) :
    windowOf w (if a < t then t else a) = windowOf w t := by
  split_ifs with hlt
  · rfl
  · exact Nat.le_antisymm hle (windowOf_mono w (UInt64.not_lt.mp hlt))

theorem inv_observe {o : Observed S} (ho : Inv o) (e : Timestamp × α) (hfollows : Follows o e) :
    Inv (observe o e.1.val e.2) := by
  obtain ⟨⟨t, ht⟩, v⟩ := e
  have hne : t ≠ 0 := by
    rintro rfl
    exact absurd ht (by decide)
  have hle : windowOf o.window.interval o.window.currentTs ≤ windowOf o.window.interval t := by
    rcases hfollows with hstart | ⟨hle, -⟩
    · rw [hstart, windowOf, UInt64.toNat_zero, Nat.zero_div]
      exact Nat.zero_le _
    · exact hle
  have hlargest : windowOf o.window.interval (observe o t v).largest =
      windowOf o.window.interval t :=
    windowOf_largest _ _ _ (ho.largest ▸ hle)
  have hcount : (observe o t v).window.collected +
      windowOf o.window.interval (observe o t v).first = windowOf o.window.interval t := by
    have hbefore := ho.aligned.2
    rw [ho.largest] at hbefore
    change o.window.collected + _ = _ at hbefore
    change o.window.collected + o.window.pushes t +
      windowOf o.window.interval (if o.first = 0 then t else o.first) = _
    by_cases hstart : o.window.currentTs = 0
    · have hfirst := ho.started.mpr hstart
      rw [hfirst, hstart] at hbefore
      rw [if_pos hfirst, pushes_of_start hstart]
      omega
    · have hpushes := pushes_of_follows ho.interval (UInt64.pos_iff_ne_zero.mpr hstart) hle
        (hfollows.resolve_left hstart).2
      rw [if_neg (mt ho.started.mp hstart)]
      omega
  refine ⟨ho.interval, ?_, hlargest, ?_, hcount.trans hlargest.symm⟩
  · change (if o.first = 0 then t else o.first) = 0 ↔ t = 0
    split_ifs with hfirst
    · exact Iff.rfl
    · exact iff_of_false hfirst hne
  · rw [UInt64.le_iff_toNat_le, toNat_getTime]
    change o.window.getTime.toNat ≤ _
    rw [toNat_getTime]
    exact Nat.mul_le_mul_right _ hle

theorem not_aligned_observe {o : Observed S} (ho : Inv o) (e : Timestamp × α)
    (hfollows : ¬ Follows o e) : ¬ Aligned (observe o e.1.val e.2) := by
  obtain ⟨⟨t, ht⟩, v⟩ := e
  obtain ⟨hstart, hfar⟩ := not_or.mp hfollows
  rintro ⟨htime, hcount⟩
  have hpos : 0 < o.window.interval.toNat := UInt64.lt_iff_toNat_lt.mp ho.interval
  have hle : windowOf o.window.interval o.window.currentTs ≤ windowOf o.window.interval t := by
    rw [UInt64.le_iff_toNat_le, toNat_getTime] at htime
    change o.window.getTime.toNat ≤ _ at htime
    rw [toNat_getTime] at htime
    exact Nat.le_of_mul_le_mul_right htime hpos
  have hbefore := ho.aligned.2
  change o.window.collected + _ = _ at hbefore
  change o.window.collected + o.window.pushes t +
    windowOf o.window.interval (if o.first = 0 then t else o.first) =
      windowOf o.window.interval (if o.largest < t then t else o.largest) at hcount
  rw [if_neg (mt ho.started.mp hstart), windowOf_largest _ _ _ (ho.largest ▸ hle)] at hcount
  have hlt := pushes_lt o.window t
  rw [ho.largest] at hbefore
  have hmissed : ¬ windowOf o.window.interval t <
      windowOf o.window.interval o.window.currentTs + 2 ^ 31 := fun hnear => hfar ⟨hle, hnear⟩
  omega

/-- The window stays aligned with its events, in every state reached, if and only
if every event follows the one before it. -/
theorem aligned_iff_follows (S : Sampler α) (h i : Microsecond) (hi : 0 < i) (init : α)
    (events : List (Timestamp × α)) :
    Runs.Always step Aligned ({ window := MovingWindow.new S h i init } : Observed S) events ↔
      Runs.Throughout step Follows
        ({ window := MovingWindow.new S h i init } : Observed S) events :=
  Runs.always_iff_throughout step (fun _ ho => ho.aligned)
    (fun _ e _ ho hstep hfollows => Option.some.inj hstep ▸ inv_observe ho e hfollows)
    (fun _ e _ ho hstep hfollows => Option.some.inj hstep ▸ not_aligned_observe ho e hfollows)
    (inv_start S h hi init) events

theorem aligned_iff_follows_seconds :
    Runs.Always step Aligned
        ({ window := MovingWindow.new Sampler.latest 60000000 1000000 (0 : Int) } :
          Observed Sampler.latest) [(⟨1500000, by decide⟩, 7), (⟨900000, by decide⟩, 8)] ↔
      Runs.Throughout step Follows
        ({ window := MovingWindow.new Sampler.latest 60000000 1000000 (0 : Int) } :
          Observed Sampler.latest) [(⟨1500000, by decide⟩, 7), (⟨900000, by decide⟩, 8)] :=
  aligned_iff_follows Sampler.latest 60000000 1000000 (by decide) 0 _

/-- With windows of ten microseconds, an event at 15 after one at 25 moves time
back to 10, and the next event at 25 closes a window although all three fall
between the first timestamp and the largest. -/
theorem not_aligned_late_event :
    ¬ Runs.Always step Aligned
      ({ window := MovingWindow.new Sampler.latest 100 10 (0 : Int) } :
        Observed Sampler.latest)
      [(⟨25, by decide⟩, 1), (⟨15, by decide⟩, 2), (⟨25, by decide⟩, 3)] := by
  intro halways
  have haligned := halways _ [] _ (List.append_nil _).symm rfl
  exact absurd haligned.2 (by decide)

end Atp.LateEvents

import Atp.MovingWindow
import Mathlib.Algebra.BigOperators.Group.List.Basic
import Mathlib.Data.List.Chain

/-!
What a moving window shows after a run of events in order: window by window,
the aggregate of the events that fell into it.
-/

namespace Atp.WindowHistory

open MovingWindow

universe u

variable {α : Type u}

def eventsIn (w : Microsecond) (evs : List (Event α)) (j : Nat) : List α :=
  (evs.filter fun e => windowOf w e.1 = j).map Prod.snd

/-- Timestamps are positive, do not decrease, and consecutive ones are fewer
than `2^31` windows apart. -/
def InOrder (w : Microsecond) (evs : List (Event α)) : Prop :=
  (∀ e ∈ evs, 0 < e.1) ∧
    evs.IsChain fun a b => a.1 ≤ b.1 ∧ windowOf w b.1 - windowOf w a.1 < 2 ^ 31

/-- `v` is what window `j` should show: the initial value before the first
event's window, else the aggregate of the closest window not after `j` that
received events. -/
def SampleAt (agg : List α → Option α) (w : Microsecond) (init : α)
    (evs : List (Event α)) (j : Int) (v : α) : Prop :=
  (∃ e ∈ evs.head?, j < windowOf w e.1 ∧ v = init) ∨
    ∃ i : Nat, (i : Int) ≤ j ∧ eventsIn w evs i ≠ [] ∧
      agg (eventsIn w evs i) = some v ∧
        ∀ i' : Nat, i < i' → (i' : Int) ≤ j → eventsIn w evs i' = []

theorem eventsIn_concat (w : Microsecond) (evs : List (Event α)) (e : Event α)
    (j : Nat) :
    eventsIn w (evs ++ [e]) j =
      eventsIn w evs j ++ if windowOf w e.1 = j then [e.2] else [] := by
  unfold eventsIn
  split_ifs with h <;> simp [h]

theorem eventsIn_concat_of_ne {w : Microsecond} (evs : List (Event α)) {e : Event α}
    {j : Nat} (hne : windowOf w e.1 ≠ j) :
    eventsIn w (evs ++ [e]) j = eventsIn w evs j := by
  rw [eventsIn_concat, if_neg hne, List.append_nil]

theorem eventsIn_eq_nil {w : Microsecond} {evs : List (Event α)} {j : Nat}
    (hlt : ∀ e ∈ evs, windowOf w e.1 < j) : eventsIn w evs j = [] := by
  simp only [eventsIn, List.map_eq_nil_iff, List.filter_eq_nil_iff, decide_eq_true_eq]
  intro e he heq
  have := hlt e he
  omega

theorem eventsIn_eq_nil_of_lt_min {w : Microsecond} {evs : List (Event α)}
    (hmin : ∀ e ∈ evs.head?, ∀ f ∈ evs, windowOf w e.1 ≤ windowOf w f.1)
    {e : Event α} (he : e ∈ evs.head?) {j : Nat} (hj : j < windowOf w e.1) :
    eventsIn w evs j = [] := by
  simp only [eventsIn, List.map_eq_nil_iff, List.filter_eq_nil_iff, decide_eq_true_eq]
  intro f hf heq
  have := hmin e he f hf
  omega

theorem SampleAt.concat {agg : List α → Option α} {w : Microsecond} {init : α}
    {evs : List (Event α)} {j : Int} {v : α} (h : SampleAt agg w init evs j v)
    (hne : evs ≠ []) {e : Event α} (hlt : j < windowOf w e.1) :
    SampleAt agg w init (evs ++ [e]) j v := by
  rcases h with ⟨f, hf, hbefore, hv⟩ | ⟨i, hij, hevents, hagg, hgap⟩
  · refine .inl ⟨f, ?_, hbefore, hv⟩
    rwa [List.head?_append_of_ne_nil _ hne]
  · refine .inr ⟨i, hij, ?_, ?_, ?_⟩
    · rwa [eventsIn_concat_of_ne evs (by omega)]
    · rwa [eventsIn_concat_of_ne evs (by omega)]
    · intro i' hi hi'
      rw [eventsIn_concat_of_ne evs (by omega)]
      exact hgap i' hi hi'

theorem InOrder.of_concat {w : Microsecond} {evs : List (Event α)} {e : Event α}
    (h : InOrder w (evs ++ [e])) : InOrder w evs := by
  refine ⟨fun f hf => h.1 f (List.mem_append_left _ hf), ?_⟩
  exact (List.isChain_append.mp h.2).1

theorem head_window_le {w : Microsecond} {evs : List (Event α)}
    (h : InOrder w evs) :
    ∀ e ∈ evs.head?, ∀ f ∈ evs, windowOf w e.1 ≤ windowOf w f.1 := by
  have hchain : evs.IsChain fun a b => a.1 ≤ b.1 := h.2.imp fun _ _ hab => hab.1
  cases evs with
  | nil => simp
  | cons e es =>
      intro e' he' f hf
      obtain rfl : e = e' := by simpa using he'
      rcases List.mem_cons.mp hf with rfl | hf
      · exact le_rfl
      · have hpair := List.isChain_iff_pairwise.mp hchain
        exact windowOf_mono w (List.rel_of_pairwise_cons hpair hf)

/-- What holds between the events fed so far, at least one, and the window. -/
structure Tracked {S : Sampler α} {agg : List α → Option α} (R : S.Reports agg)
    (h w : Microsecond) (init : α) (evs : List (Event α)) (m : MovingWindow S) :
    Prop where
  interval : m.interval = w
  full : m.buffer.Full
  capacity : m.buffer.capacity = slots h w
  last : evs.getLast?.map Prod.fst = some m.currentTs
  current_max : ∀ e ∈ evs, windowOf w e.1 ≤ windowOf w m.currentTs
  tracks : R.Tracks m.samplerState m.currentValue
    (eventsIn w evs (windowOf w m.currentTs))
  closed : ∀ k : Nat, 0 < k → k ≤ slots h w →
    ∃ v, m.buffer.toList[slots h w - k]? = some v ∧
      SampleAt agg w init evs (windowOf w m.currentTs - k) v

section

variable {S : Sampler α} {agg : List α → Option α} (R : S.Reports agg)
  {h w : Microsecond} {init : α}

theorem tracked_start (e : Event α) :
    Tracked R h w init [e] ((new S h w init).on e.1 e.2).2 := by
  have hzero : (new S h w init).currentTs = 0 := rfl
  rw [on_start hzero]
  refine ⟨rfl, full_new S h w init, capacity_new S h w init, rfl, ?_, ?_, ?_⟩
  · simp
  · have hsolo : eventsIn w [e] (windowOf w e.1) = [e.2] := by simp [eventsIn]
    change R.Tracks _ _ (eventsIn w [e] (windowOf w e.1))
    rw [hsolo]
    exact R.first _ _ _
  · intro k hpos hk
    refine ⟨init, ?_, .inl ⟨e, rfl, ?_, rfl⟩⟩
    · have hlist : (new S h w init).buffer.toList =
          List.replicate (slots h w) init :=
        CircularBuffer.toList_pushN_empty _ _ _ le_rfl
      change (new S h w init).buffer.toList[_]? = _
      rw [hlist, List.getElem?_replicate_of_lt (by omega)]
    · change (windowOf w e.1 : Int) - k < windowOf w e.1
      omega

theorem Tracked.sampleAt_current {evs : List (Event α)} {m : MovingWindow S}
    (hm : Tracked R h w init evs m) (hne : evs ≠ []) {j : Int}
    (hj : (windowOf w m.currentTs : Int) ≤ j) :
    SampleAt agg w init evs j m.currentValue := by
  refine .inr ⟨windowOf w m.currentTs, hj, ?_, R.value hm.tracks, ?_⟩
  · obtain ⟨e, he, hts⟩ : ∃ e ∈ evs, e.1 = m.currentTs := by
      have hlast := hm.last
      rw [List.getLast?_eq_some_getLast hne, Option.map_some, Option.some.injEq] at hlast
      exact ⟨_, List.getLast_mem hne, hlast⟩
    intro hnil
    simp only [eventsIn, List.map_eq_nil_iff, List.filter_eq_nil_iff] at hnil
    simpa [hts] using hnil e he
  · intro i hi _
    exact eventsIn_eq_nil fun e he => lt_of_le_of_lt (hm.current_max e he) hi

theorem Tracked.getLast {evs : List (Event α)} {m : MovingWindow S}
    (hm : Tracked R h w init evs m) : ∃ f ∈ evs.getLast?, f.1 = m.currentTs := by
  simpa using hm.last

/-- The sampler is told of a new window exactly if the event starts one. -/
theorem Tracked.tracks_next {evs : List (Event α)} {m : MovingWindow S} {e : Event α}
    (hm : Tracked R h w init evs m) {passed : Nat}
    (hpassed : windowOf w e.1 = windowOf w m.currentTs + passed) :
    R.Tracks (S.sample m.samplerState m.currentValue e.2 (decide (0 < passed))).1
      (S.sample m.samplerState m.currentValue e.2 (decide (0 < passed))).2
      (eventsIn w (evs ++ [e]) (windowOf w e.1)) := by
  rw [eventsIn_concat, if_pos rfl]
  rcases Nat.eq_zero_or_pos passed with hzero | hmoved
  · have hsame : windowOf w e.1 = windowOf w m.currentTs := by omega
    rw [hzero, hsame]
    exact R.next e.2 hm.tracks
  · have hnone : eventsIn w evs (windowOf w e.1) = [] :=
      eventsIn_eq_nil fun g hg => by
        have := hm.current_max g hg
        omega
    rw [decide_eq_true hmoved, hnone]
    exact R.first _ _ _

/-- Behind the new window are the copies of the current value that the event has
pushed, and behind these the values that were there before. -/
theorem Tracked.closed_next {evs : List (Event α)} {m : MovingWindow S} {e : Event α}
    (hm : Tracked R h w init evs m) (hne : evs ≠ []) {passed : Nat}
    (hpassed : windowOf w e.1 = windowOf w m.currentTs + passed) {k : Nat} (hk : 0 < k)
    (hkN : k ≤ slots h w) :
    ∃ v, (m.buffer.pushN m.currentValue passed).toList[slots h w - k]? = some v ∧
      SampleAt agg w init (evs ++ [e]) (windowOf w e.1 - k) v := by
  rw [CircularBuffer.toList_pushN _ hm.full, List.getElem?_drop]
  have hlen : m.buffer.toList.length = slots h w := by
    rw [CircularBuffer.length_toList, ← hm.capacity]
    exact hm.full
  rcases Nat.lt_or_ge passed k with hold | hnew
  · obtain ⟨v, hv, hsample⟩ := hm.closed (k - passed) (by omega) (by omega)
    refine ⟨v, ?_, ?_⟩
    · rw [List.getElem?_append_left (by omega), ← hv]
      congr 1
      omega
    · rw [show (windowOf w e.1 : Int) - k =
          windowOf w m.currentTs - (k - passed : Nat) by omega]
      exact hsample.concat hne (by omega)
  · refine ⟨m.currentValue, ?_, ?_⟩
    · rw [List.getElem?_append_right (by omega),
        List.getElem?_replicate_of_lt (by omega)]
    · exact (hm.sampleAt_current R hne (by omega)).concat hne (by omega)

/-- One event in order keeps the correspondence, and the call returns how many
windows it moved on. -/
theorem Tracked.step {evs : List (Event α)} {m : MovingWindow S} {e : Event α}
    (hm : Tracked R h w init evs m) (hne : evs ≠ []) (hw : 0 < w)
    (horder : InOrder w (evs ++ [e])) :
    Tracked R h w init (evs ++ [e]) (m.on e.1 e.2).2 ∧
      (m.on e.1 e.2).1.toNat + windowOf w m.currentTs = windowOf w e.1 := by
  obtain ⟨f, hf, hts⟩ := hm.getLast
  obtain ⟨hle, hnear⟩ : f.1 ≤ e.1 ∧ windowOf w e.1 - windowOf w f.1 < 2 ^ 31 :=
    (List.isChain_append.mp horder.2).2.2 f hf e rfl
  have hpos : 0 < m.currentTs :=
    hts ▸ horder.1 f (List.mem_append_left _ (List.mem_of_mem_getLast? hf))
  rw [hts] at hle hnear
  have hmono := windowOf_mono w hle
  obtain ⟨passed, hpassed⟩ : ∃ passed,
      windowOf w e.1 = windowOf w m.currentTs + passed :=
    ⟨_, (Nat.add_sub_cancel' hmono).symm⟩
  obtain ⟨hreturn, hstate⟩ := on_next (by rw [hm.interval]; exact hw) hpos hle
    (by rw [hm.interval]; exact hpassed) (by omega) e.2
  refine ⟨?_, by omega⟩
  rw [hstate]
  refine ⟨hm.interval, CircularBuffer.full_pushN _ hm.full _, ?_, ?_, ?_, ?_, ?_⟩
  · rw [CircularBuffer.capacity_pushN, hm.capacity]
  · simp
  · intro g hg
    rcases List.mem_append.mp hg with hg | hg
    · exact (hm.current_max g hg).trans hmono
    · rw [List.mem_singleton.mp hg]
  · exact hm.tracks_next R hpassed
  · intro k hk hkN
    exact hm.closed_next R hne hpassed hk hkN

/-- The returned counts add up to the distance between the first and the last
event's windows. -/
theorem tracked_feed (hw : 0 < w) (e : Event α) (es : List (Event α))
    (horder : InOrder w (e :: es)) :
    Tracked R h w init (e :: es) ((new S h w init).feed (e :: es)).2 ∧
      (((new S h w init).feed (e :: es)).1.map UInt64.toNat).sum + windowOf w e.1 =
        windowOf w ((new S h w init).feed (e :: es)).2.currentTs := by
  induction es using List.reverseRecOn with
  | nil =>
      refine ⟨tracked_start R e, ?_⟩
      have hzero : (new S h w init).currentTs = 0 := rfl
      simp [feed, on_start hzero]
  | append_singleton es f ih =>
      rw [← List.cons_append] at horder ⊢
      obtain ⟨htracked, hsum⟩ := ih horder.of_concat
      obtain ⟨hstep, hcount⟩ := htracked.step R (List.cons_ne_nil e es) hw horder
      rw [feed_append]
      refine ⟨hstep, ?_⟩
      generalize (new S h w init).feed (e :: es) = fed at hsum hcount ⊢
      simp only [feed, List.map_append, List.sum_append, List.map_cons, List.map_nil,
        List.sum_cons, List.sum_nil, on_currentTs]
      omega

end

/-- What a window with sampler `S` shows, for events in order: at index `-k`,
the aggregate of window number `last - k` (of the closest earlier window with
events, if that one has none), and the initial value before the first event's
window. -/
def ShowsWindows (S : Sampler α) (agg : List α → Option α) : Prop :=
  ∀ (h w : Microsecond) (init : α) (e : Event α) (es : List (Event α)),
    0 < w → InOrder w (e :: es) →
    let fed := (new S h w init).feed (e :: es)
    let last := windowOf w ((e :: es).getLast (List.cons_ne_nil e es)).1
    (∀ k : Nat, k ≤ slots h w →
      ((last : Int) - k < windowOf w e.1 → fed.2.at? (-k) = some init) ∧
      (∀ j : Nat, (j : Int) ≤ last - k → eventsIn w (e :: es) j ≠ [] →
        (∀ i : Nat, j < i → (i : Int) ≤ last - k → eventsIn w (e :: es) i = []) →
        fed.2.at? (-k) = agg (eventsIn w (e :: es) j)) ∧
      (k ≤ last → (fed.2.getTime (-k)).toNat = (last - k) * w.toNat)) ∧
    (fed.1.map UInt64.toNat).sum + windowOf w e.1 = last

theorem SampleAt.eq_agg {agg : List α → Option α} {w : Microsecond} {init : α}
    {evs : List (Event α)} {j : Int} {v : α} (h : SampleAt agg w init evs j v)
    (hmin : ∀ e ∈ evs.head?, ∀ f ∈ evs, windowOf w e.1 ≤ windowOf w f.1)
    {i : Nat} (hij : (i : Int) ≤ j) (hevents : eventsIn w evs i ≠ [])
    (hgap : ∀ i' : Nat, i < i' → (i' : Int) ≤ j → eventsIn w evs i' = []) :
    agg (eventsIn w evs i) = some v := by
  rcases h with ⟨e, he, hbefore, -⟩ | ⟨i₀, hij₀, hevents₀, hagg, hgap₀⟩
  · refine absurd (eventsIn_eq_nil_of_lt_min hmin he ?_) hevents
    omega
  · rcases Nat.lt_trichotomy i i₀ with hlt | rfl | hlt
    · exact absurd (hgap i₀ hlt hij₀) hevents₀
    · exact hagg
    · exact absurd (hgap₀ i hlt hij) hevents

theorem SampleAt.eq_init {agg : List α → Option α} {w : Microsecond} {init : α}
    {evs : List (Event α)} {j : Int} {v : α} (h : SampleAt agg w init evs j v)
    (hmin : ∀ e ∈ evs.head?, ∀ f ∈ evs, windowOf w e.1 ≤ windowOf w f.1)
    {e : Event α} (he : e ∈ evs.head?) (hj : j < windowOf w e.1) : v = init := by
  rcases h with ⟨-, -, -, hv⟩ | ⟨i, hij, hevents, -, -⟩
  · exact hv
  · refine absurd (eventsIn_eq_nil_of_lt_min hmin he ?_) hevents
    omega

theorem showsWindows {S : Sampler α} {agg : List α → Option α} (R : S.Reports agg) :
    ShowsWindows S agg := by
  intro h w init e es hw horder fed last
  obtain ⟨(htracked : Tracked R h w init (e :: es) fed.2), hsum⟩ :=
    tracked_feed R hw e es horder
  have hinterval : fed.2.interval = w := htracked.interval
  have hlast : windowOf w fed.2.currentTs = last := by
    have hts := htracked.last
    rw [List.getLast?_eq_some_getLast (List.cons_ne_nil e es), Option.map_some,
      Option.some.injEq] at hts
    simp only [fed, last, hts]
  have hmin := head_window_le horder
  refine ⟨fun k hk => ?_, by rw [← hlast]; exact hsum⟩
  obtain ⟨v, hv, hsample⟩ : ∃ v, fed.2.at? (-k) = some v ∧
      SampleAt agg w init (e :: es) (last - k) v := by
    rcases Nat.eq_zero_or_pos k with rfl | hpos
    · refine ⟨fed.2.currentValue, rfl, ?_⟩
      refine htracked.sampleAt_current R (List.cons_ne_nil e es) ?_
      rw [hlast]
      simp
    · obtain ⟨v, hv, hsample⟩ := htracked.closed k hpos hk
      refine ⟨v, ?_, hlast ▸ hsample⟩
      rw [at?_neg htracked.full hpos (by rw [htracked.capacity]; exact hk),
        htracked.capacity]
      exact hv
  refine ⟨fun hbefore => ?_, fun j hj hevents hgap => ?_, fun hle => ?_⟩
  · rw [hv, hsample.eq_init hmin rfl hbefore]
  · rw [hv, hsample.eq_agg hmin hj hevents hgap]
  · rw [getTime_neg, AlignAtZero.toNat_getTime, policy, hinterval, hlast]
    rw [policy, hinterval, hlast]
    exact hle

/-- Every sampler of the library shows its own aggregate, window by window. -/
theorem moving_window_shows_windows {β γ : Type u} [LinearOrder β] [DivisionRing γ] :
    ShowsWindows (Sampler.open : Sampler α) List.head? ∧
    ShowsWindows (Sampler.close : Sampler α) List.getLast? ∧
    ShowsWindows (Sampler.latest : Sampler α) List.getLast? ∧
    ShowsWindows (Sampler.max : Sampler β) List.max? ∧
    ShowsWindows (Sampler.min : Sampler β) List.min? ∧
    ShowsWindows (Sampler.avg : Sampler γ) Sampler.mean? :=
  ⟨showsWindows Sampler.reportsOpen, showsWindows Sampler.reportsClose,
    showsWindows Sampler.reportsLatest, showsWindows Sampler.reportsMax,
    showsWindows Sampler.reportsMin, showsWindows Sampler.reportsAvg⟩

theorem avg_window_gap :
    ((new (Sampler.avg : Sampler ℚ) 40 10 0).feed
        [(11, 4), (12, 8), (31, 9)]).2.at? (-1) =
      Sampler.mean? [4, 8] := by
  have horder : InOrder 10 [((11 : Microsecond), (4 : ℚ)), (12, 8), (31, 9)] := by
    refine ⟨by simp, ?_⟩
    simp only [List.isChain_cons_cons, List.isChain_singleton, and_true]
    decide
  have hshows := moving_window_shows_windows (α := ℚ) (β := ℚ) (γ := ℚ) |>.2.2.2.2.2
    40 10 0 (11, 4) [(12, 8), (31, 9)] (by decide) horder
  refine (hshows.1 1 (by decide)).2.1 1 (by decide) (by decide) ?_
  intro i hi hle
  have hi2 : i = 2 := by
    change (i : Int) ≤ 3 - 1 at hle
    omega
  subst hi2
  rfl

end Atp.WindowHistory

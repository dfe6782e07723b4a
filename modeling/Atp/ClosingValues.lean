import Atp.LateEvents
import Atp.WindowHistory
import Mathlib.Data.List.Induction
import Mathlib.Data.List.TakeWhile

/-!
The value with which a window closes: the one that was current after the last event
in it or before it, whatever the sampler.
-/

namespace Atp.ClosingValues

open MovingWindow WindowHistory

universe u

variable {α : Type u} {S : Sampler α}

def InTime (evs : List (Event α)) : Prop :=
  (∀ e ∈ evs, 0 < e.1) ∧ evs.IsChain fun a b => a.1 ≤ b.1

/-- The value of window `j` when it closes. -/
def closing (S : Sampler α) (h w : Microsecond) (init : α) (evs : List (Event α)) (j : Nat) : α :=
  ((new S h w init).feed (evs.takeWhile fun e => windowOf w e.1 ≤ j)).2.currentValue

/-! ### Events in time -/

/-- A window after some events: it has the last one's timestamp. -/
structure Fed (h w : Microsecond) (m : MovingWindow S) (last : Event α) : Prop where
  interval : m.interval = w
  full : m.buffer.Full
  capacity : m.buffer.capacity = slots h w
  currentTs : m.currentTs = last.1

theorem fed_concat (h w : Microsecond) (init : α) (es : List (Event α)) (e : Event α) :
    Fed h w ((new S h w init).feed (es ++ [e])).2 e where
  interval := feed_invariant (P := fun m => m.interval = w) (fun _ _ _ h => h) _ rfl _
  full := full_feed (full_new S h w init) _
  capacity := (capacity_feed _ _).trans (capacity_new S h w init)
  currentTs := by rw [feed_append]; rfl

theorem InTime.of_concat {es : List (Event α)} {e : Event α} (h : InTime (es ++ [e])) :
    InTime es := by
  constructor
  · intro f hf
    exact h.1 f (List.mem_append_left _ hf)
  · exact (List.isChain_append.mp h.2).1

theorem InTime.last_le {es : List (Event α)} {e f : Event α}
    (h : InTime (es ++ [e] ++ [f])) : e.1 ≤ f.1 :=
  (List.isChain_append.mp h.2).2.2 e (by simp) f rfl

theorem InTime.windowOf_le {es : List (Event α)} {e : Event α} (h : InTime (es ++ [e]))
    (w : Microsecond) {f : Event α} (hf : f ∈ es ++ [e]) : windowOf w f.1 ≤ windowOf w e.1 := by
  apply windowOf_mono
  rcases List.mem_append.mp hf with hf | hf
  · have hpair := List.isChain_iff_pairwise.mp h.2
    exact (List.pairwise_append.mp hpair).2.2 f hf e (List.mem_singleton_self e)
  · exact List.mem_singleton.mp hf ▸ UInt64.le_refl _

theorem inTime_of_inOrder {w : Microsecond} {es : List (Event α)} (h : InOrder w es) : InTime es :=
  ⟨h.1, h.2.imp fun _ _ hnext => hnext.1⟩

theorem near_of_inOrder {w : Microsecond} {es : List (Event α)} {e f : Event α}
    (h : InOrder w (es ++ [e] ++ [f])) : windowOf w f.1 - windowOf w e.1 < 2 ^ 31 :=
  ((List.isChain_append.mp h.2).2.2 e (by simp) f rfl).2

/-- The next event passes from the window of the last one to its own. -/
theorem Fed.ready {h w : Microsecond} {m : MovingWindow S} {es : List (Event α)} {e f : Event α}
    (hm : Fed h w m e) (hw : 0 < w) (horder : InTime (es ++ [e] ++ [f])) :
    0 < m.interval ∧ 0 < m.currentTs ∧ m.currentTs ≤ f.1 ∧
      windowOf m.interval f.1 = windowOf m.interval m.currentTs +
        (windowOf w f.1 - windowOf w e.1) := by
  have hle := horder.last_le
  have hmono := windowOf_mono w hle
  rw [hm.interval, hm.currentTs]
  refine ⟨hw, horder.1 e (by simp), hle, by omega⟩

theorem takeWhile_append_of_not {β : Type*} {p : β → Bool} {xs : List β}
    (hnot : ¬ ∀ x ∈ xs, p x) (ys : List β) : (xs ++ ys).takeWhile p = xs.takeWhile p := by
  rw [List.takeWhile_append, if_neg]
  intro hlength
  apply hnot
  exact List.takeWhile_eq_self_iff.mp ((List.takeWhile_prefix p).eq_of_length hlength)

theorem closing_of_lt {h w : Microsecond} {init : α} {es : List (Event α)} {e : Event α} {j : Nat}
    (hlt : j < windowOf w e.1) (fs : List (Event α)) :
    closing S h w init (es ++ [e] ++ fs) j = closing S h w init (es ++ [e]) j := by
  rw [closing, takeWhile_append_of_not, closing]
  intro hall
  have he := hall e (by simp)
  exact (of_decide_eq_true he).not_gt hlt

theorem closing_of_le {h w : Microsecond} {init : α} {es : List (Event α)} {e f : Event α}
    {j : Nat} (horder : InTime (es ++ [e])) (hle : windowOf w e.1 ≤ j) (hlt : j < windowOf w f.1) :
    closing S h w init (es ++ [e] ++ [f]) j =
      ((new S h w init).feed (es ++ [e])).2.currentValue := by
  have hall : ∀ g ∈ es ++ [e], decide (windowOf w g.1 ≤ j) = true := by
    intro g hg
    exact decide_eq_true ((horder.windowOf_le w hg).trans hle)
  have hf : decide (windowOf w f.1 ≤ j) = false := decide_eq_false hlt.not_ge
  rw [closing, List.takeWhile_append_of_pos hall, List.takeWhile_cons, hf]
  simp

theorem closing_last {h w : Microsecond} {init : α} {es : List (Event α)} {e : Event α}
    (horder : InTime (es ++ [e])) :
    closing S h w init (es ++ [e]) (windowOf w e.1) =
      ((new S h w init).feed (es ++ [e])).2.currentValue := by
  rw [closing, List.takeWhile_eq_self_iff.mpr]
  intro f hf
  exact decide_eq_true (horder.windowOf_le w hf)

/-- At index `-k` a window shows the value with which the window `k` before the
current one has closed. -/
theorem at?_eq_closing {h w : Microsecond} {init : α} (hw : 0 < w) {es : List (Event α)}
    {e : Event α} (horder : InOrder w (es ++ [e])) {k : Nat} (hk : k ≤ slots h w)
    (hfirst : ∀ g ∈ (es ++ [e]).head?, windowOf w g.1 + k ≤ windowOf w e.1) :
    ((new S h w init).feed (es ++ [e])).2.at? (-k) =
      some (closing S h w init (es ++ [e]) (windowOf w e.1 - k)) := by
  have htime := inTime_of_inOrder horder
  induction es using List.reverseRecOn generalizing e k with
  | nil =>
      obtain rfl : k = 0 := by
        have hself := hfirst e rfl
        omega
      exact congrArg some (closing_last htime).symm
  | append_singleton es f ih =>
      rcases Nat.eq_zero_or_pos k with rfl | hpos
      · exact congrArg some (closing_last htime).symm
      · have hm := fed_concat (S := S) h w init es f
        obtain ⟨hinterval, hts, hle, hpassed⟩ := hm.ready hw htime
        have hmono := windowOf_mono w htime.last_le
        have hnear := near_of_inOrder horder
        have hback : k ≤ windowOf w e.1 := by
          have hne : es ++ [f] ++ [e] ≠ [] := by simp
          exact (Nat.le_add_left _ _).trans (hfirst _ (List.head?_eq_some_head hne))
        have hpushes := LateEvents.pushes_of_follows hinterval hts (t := e.1) (by omega)
          (by omega)
        rw [hm.interval, hm.currentTs] at hpushes
        rw [feed_append]
        refine (at?_on_neg hm.full e.1 e.2 hpos (hm.capacity ▸ hk)).trans ?_
        split_ifs with hnew
        · rw [closing_of_le htime.of_concat (by omega) (by omega)]
        · rw [ih horder.of_concat (by omega) _ htime.of_concat, closing_of_lt (by omega)]
          · congr 2
            omega
          · intro g hg
            have hhead : (es ++ [f] ++ [e]).head? = (es ++ [f]).head? :=
              List.head?_append_of_ne_nil _ (by simp)
            have hbefore := hfirst g (hhead ▸ hg)
            omega

end Atp.ClosingValues

import Atp.Runs
import Atp.ZmqFrames
import Mathlib.Data.List.Nodup
import Mathlib.Data.List.Sigma

/-!
The loop of a publisher, which forwards the frames of the inbound messages one by
one.  A receive that is interrupted is made again, but a frame whose send is
interrupted is lost, and the frames before and after it are sent all the same.
-/

namespace Atp.Publisher

/-- A frame with its place in the inbound stream, which is not sent. -/
abbrev Part := Frame × Nat

inductive CallResult where
  | done
  | error (num : Nat)

structure Process where
  unread : List Part
  published : List Part := []
  stop : Bool := false

/-- The handler of the exceptions of both calls. -/
def Process.catchError (publisherIgnoreSignalInterrupt : Bool) (num : Nat) (p : Process) :
    Process :=
  if num = 4 && publisherIgnoreSignalInterrupt then { p with stop := false }
  else { p with stop := true }

/-- One turn of the inner loop: a frame is received and sent on with its flag.
Nothing if the loop has stopped, or if there is nothing to receive.  The inner loop
ends where no more parts follow, and the outer one begins it again. -/
def Process.turn (publisherIgnoreSignalInterrupt : Bool) (recv send : CallResult)
    (p : Process) : Option Process :=
  if p.stop then none
  else match recv, p.unread with
    | .error num, _ => some (p.catchError publisherIgnoreSignalInterrupt num)
    | .done, [] => none
    | .done, part :: unread =>
        let p := { p with unread := unread }
        match send with
        | .error num => some (p.catchError publisherIgnoreSignalInterrupt num)
        | .done => some { p with published := p.published ++ [part] }

/-- The loop, and what it has received: the parts of the messages that are
complete, those of the message that is not, and whether the last send was
interrupted. -/
structure State where
  process : Process
  complete : List (List Part) := []
  current : List Part := []
  lost : Bool := false

/-- Which calls of a turn are interrupted. -/
structure Action where
  recvInterrupted : Bool
  sendInterrupted : Bool

/-- The result of a call that is interrupted, or not. -/
def resultOf (interrupted : Bool) : CallResult := if interrupted then .error 4 else .done

def receivePart (s : State) (part : Part) (lost : Bool) (process : Process) : State :=
  if part.1.more then ⟨process, s.complete, s.current ++ [part], lost⟩
  else ⟨process, s.complete ++ [s.current ++ [part]], [], lost⟩

def step (s : State) (a : Action) : Option State :=
  (s.process.turn true (resultOf a.recvInterrupted) (resultOf a.sendInterrupted)).map
    fun process =>
      match a.recvInterrupted, s.process.unread with
      | false, part :: _ => receivePart s part a.sendInterrupted process
      | _, _ => { s with process := process }

def start (queue : List Frame) : State := { process := { unread := queue.zipIdx } }

/-- What is published is some of the messages, in order and each with all of its
frames; of the message that is not complete, all that have been received. -/
def Whole (s : State) : Prop :=
  ∃ kept : List (List Part), kept.Sublist (s.complete ++ [s.current]) ∧
    s.process.published = kept.flatten

/-- The send of a frame is interrupted exactly if that of the frame before it in
the same message was. -/
def LikeFirst (s : State) (a : Action) : Prop :=
  a.recvInterrupted = false → s.current ≠ [] → a.sendInterrupted = s.lost

/-! ### What a turn does -/

/-- An interrupted receive changes nothing; otherwise a part is received, and
published unless the send is interrupted. -/
theorem step_cases {s s' : State} {a : Action} (hstep : step s a = some s')
    (hstop : s.process.stop = false) :
    (a.recvInterrupted = true ∧ s' = s) ∨
      ∃ part unread, a.recvInterrupted = false ∧ s.process.unread = part :: unread ∧
        s' = receivePart s part a.sendInterrupted ⟨unread,
          s.process.published ++ if a.sendInterrupted then [] else [part], false⟩ := by
  obtain ⟨⟨unread, published, stop⟩, complete, current, lost⟩ := s
  obtain ⟨recvInterrupted, sendInterrupted⟩ := a
  obtain rfl : stop = false := hstop
  cases recvInterrupted with
  | true => exact .inl ⟨rfl, (Option.some.inj hstep).symm⟩
  | false =>
      cases unread with
      | nil => cases hstep
      | cons part unread =>
          refine .inr ⟨part, unread, rfl, rfl, ?_⟩
          cases sendInterrupted with
          | true =>
              rw [if_pos rfl, List.append_nil]
              exact (Option.some.inj hstep).symm
          | false => exact (Option.some.inj hstep).symm

theorem whole_receivePart_iff (s : State) (part : Part) (lost : Bool) (process : Process) :
    Whole (receivePart s part lost process) ↔
      ∃ kept : List (List Part), kept.Sublist (s.complete ++ [s.current ++ [part]]) ∧
        process.published = kept.flatten := by
  unfold receivePart
  split_ifs with hmore
  · exact Iff.rfl
  · constructor
    · rintro ⟨kept, hkept, hpublished⟩
      obtain ⟨front, back, rfl, hfront, hback⟩ := List.sublist_append_iff.mp hkept
      refine ⟨front, hfront, hpublished.trans ?_⟩
      rcases List.sublist_singleton.mp hback with rfl | rfl
      · rw [List.append_nil]
      · rw [List.flatten_append, List.flatten_singleton, List.append_nil]
    · rintro ⟨kept, hkept, hpublished⟩
      exact ⟨kept, hkept.trans (List.sublist_append_left _ _), hpublished⟩

/-! ### The invariant -/

structure Inv (queue : List Frame) (s : State) : Prop where
  running : s.process.stop = false
  received : s.complete.flatten ++ (s.current ++ s.process.unread) = queue.zipIdx
  published : ∃ kept : List (List Part), kept.Sublist s.complete ∧
    s.process.published = kept.flatten ++ if s.lost then [] else s.current

theorem inv_start (queue : List Frame) : Inv queue (start queue) where
  running := rfl
  received := rfl
  published := ⟨[], List.Sublist.refl _, rfl⟩

theorem Inv.nodup {queue : List Frame} {s : State} (hs : Inv queue s) :
    (s.complete.flatten ++ (s.current ++ s.process.unread)).Nodup := by
  rw [hs.received]
  exact List.Nodup.of_map _ (List.nodup_zipIdx_map_snd queue)

theorem whole_of_inv {queue : List Frame} {s : State} (hs : Inv queue s) : Whole s := by
  obtain ⟨kept, hkept, hpublished⟩ := hs.published
  cases hlost : s.lost with
  | true =>
      rw [hlost, if_pos rfl, List.append_nil] at hpublished
      exact ⟨kept, hkept.trans (List.sublist_append_left _ _), hpublished⟩
  | false =>
      rw [hlost, if_neg Bool.false_ne_true] at hpublished
      refine ⟨kept ++ [s.current], hkept.append (List.Sublist.refl _), ?_⟩
      rw [hpublished, List.flatten_append, List.flatten_singleton]

theorem inv_receivePart {queue : List Frame} {s : State} (hs : Inv queue s) {part : Part}
    {unread : List Part} (hunread : s.process.unread = part :: unread) {interrupted : Bool}
    (hlike : s.current ≠ [] → interrupted = s.lost) :
    Inv queue (receivePart s part interrupted ⟨unread,
      s.process.published ++ if interrupted then [] else [part], false⟩) := by
  have hreceived := hs.received
  rw [hunread] at hreceived
  obtain ⟨kept, hkept, hpublished⟩ := hs.published
  have hafter : s.process.published ++ (if interrupted then [] else [part]) =
      kept.flatten ++ if interrupted then [] else s.current ++ [part] := by
    rw [hpublished, List.append_assoc]
    congr 1
    by_cases hcurrent : s.current = []
    · rw [hcurrent, ite_self, List.nil_append, List.nil_append]
    · rw [← hlike hcurrent]
      cases interrupted with
      | true => rfl
      | false => rfl
  by_cases hmore : part.1.more = true
  · rw [receivePart, if_pos hmore]
    refine ⟨rfl, ?_, kept, hkept, hafter⟩
    change s.complete.flatten ++ (s.current ++ [part] ++ unread) = queue.zipIdx
    rw [List.append_assoc]
    exact hreceived
  · rw [receivePart, if_neg hmore]
    refine ⟨rfl, ?_, ?_⟩
    · change (s.complete ++ [s.current ++ [part]]).flatten ++ ([] ++ unread) = queue.zipIdx
      rw [List.flatten_append, List.flatten_singleton, List.nil_append, List.append_assoc,
        List.append_assoc]
      exact hreceived
    · change ∃ kept' : List (List Part), kept'.Sublist (s.complete ++ [s.current ++ [part]]) ∧
        s.process.published ++ (if interrupted then [] else [part]) =
          kept'.flatten ++ if interrupted then [] else []
      rw [hafter, ite_self]
      cases interrupted with
      | true => exact ⟨kept, hkept.trans (List.sublist_append_left _ _), rfl⟩
      | false =>
          refine ⟨kept ++ [s.current ++ [part]], hkept.append (List.Sublist.refl _), ?_⟩
          rw [if_neg Bool.false_ne_true, List.flatten_append, List.flatten_singleton,
            List.append_nil]

theorem inv_of_step {queue : List Frame} {s s' : State} {a : Action} (hs : Inv queue s)
    (hstep : step s a = some s') (hlike : LikeFirst s a) : Inv queue s' := by
  rcases step_cases hstep hs.running with ⟨-, rfl⟩ | ⟨part, unread, hrecv, hunread, rfl⟩
  · exact hs
  · exact inv_receivePart hs hunread (hlike hrecv)

/-- A part that is not of a complete message is in none of them. -/
theorem Inv.not_mem_flatten {queue : List Frame} {s : State} (hs : Inv queue s)
    {kept : List (List Part)} (hkept : kept.Sublist s.complete) {part : Part}
    (hpart : part ∈ s.current ++ s.process.unread) : part ∉ kept.flatten := by
  intro hmem
  obtain ⟨message, hmessage, hmem⟩ := List.mem_flatten.mp hmem
  obtain ⟨-, -, hdisjoint⟩ := List.nodup_append.mp hs.nodup
  exact hdisjoint part (List.mem_flatten.mpr ⟨message, hkept.subset hmessage, hmem⟩) part hpart
    rfl

/-- Two parts of the message that comes last are both in what is kept, or neither. -/
theorem mem_flatten_iff_of_last {queue : List Frame} {s : State} (hs : Inv queue s)
    {kept : List (List Part)} {last : List Part} (hkept : kept.Sublist (s.complete ++ [last]))
    {part part' : Part} (hpart : part ∈ s.current ++ s.process.unread)
    (hpart' : part' ∈ s.current ++ s.process.unread) (hlast : part ∈ last)
    (hlast' : part' ∈ last) : part ∈ kept.flatten ↔ part' ∈ kept.flatten := by
  obtain ⟨front, back, rfl, hfront, hback⟩ := List.sublist_append_iff.mp hkept
  rw [List.flatten_append, List.mem_append, List.mem_append,
    or_iff_right (hs.not_mem_flatten hfront hpart),
    or_iff_right (hs.not_mem_flatten hfront hpart')]
  rcases List.sublist_singleton.mp hback with rfl | rfl
  · exact iff_of_false List.not_mem_nil List.not_mem_nil
  · rw [List.flatten_singleton]
    exact iff_of_true hlast hlast'

/-- A part of the current message and the next one are published alike, if what is
published is whole. -/
theorem like_of_whole {queue : List Frame} {s : State} (hs : Inv queue s) {part : Part}
    {unread : List Part} (hunread : s.process.unread = part :: unread)
    (hcurrent : s.current ≠ []) {interrupted : Bool}
    (hwhole : Whole (receivePart s part interrupted ⟨unread,
      s.process.published ++ if interrupted then [] else [part], false⟩)) :
    interrupted = s.lost := by
  obtain ⟨before, hbefore, hpublished⟩ := hs.published
  obtain ⟨kept, hkept, hafter⟩ := (whole_receivePart_iff _ _ _ _).mp hwhole
  obtain ⟨first, hfirst⟩ := List.exists_mem_of_ne_nil _ hcurrent
  have hfirst' : first ∈ s.current ++ s.process.unread := List.mem_append_left _ hfirst
  have hpart' : part ∈ s.current ++ s.process.unread := by
    rw [hunread]
    exact List.mem_append_right _ List.mem_cons_self
  have hpart : part ∉ s.current := by
    intro hmem
    obtain ⟨-, hrest, -⟩ := List.nodup_append.mp hs.nodup
    obtain ⟨-, -, hdisjoint⟩ := List.nodup_append.mp hrest
    exact hdisjoint part hmem part (by rw [hunread]; exact List.mem_cons_self) rfl
  have hne : first ≠ part := fun heq => hpart (heq ▸ hfirst)
  have hboth := mem_flatten_iff_of_last hs hkept hfirst' hpart'
    (List.mem_append_left _ hfirst) (List.mem_append_right _ List.mem_cons_self)
  rw [← hafter, hpublished, List.mem_append, List.mem_append, List.mem_append,
    List.mem_append, or_iff_right (hs.not_mem_flatten hbefore hfirst'),
    or_iff_right (hs.not_mem_flatten hbefore hpart')] at hboth
  have hfirstSent : (first ∈ (if s.lost then [] else s.current) ∨
      first ∈ if interrupted then [] else [part]) ↔ s.lost = false := by
    cases s.lost <;> cases interrupted <;> simp [hfirst, hne]
  have hpartSent : (part ∈ (if s.lost then [] else s.current) ∨
      part ∈ if interrupted then [] else [part]) ↔ interrupted = false := by
    cases s.lost <;> cases interrupted <;> simp [hpart]
  rw [hfirstSent, hpartSent] at hboth
  exact Bool.eq_iff_iff.mpr (by simpa using hboth.not.symm)

theorem not_whole_of_step {queue : List Frame} {s s' : State} {a : Action} (hs : Inv queue s)
    (hstep : step s a = some s') (hlike : ¬ LikeFirst s a) : ¬ Whole s' := by
  simp only [LikeFirst, Classical.not_imp] at hlike
  obtain ⟨hrecv, hcurrent, hne⟩ := hlike
  rcases step_cases hstep hs.running with ⟨hrecv', -⟩ | ⟨part, unread, -, hunread, rfl⟩
  · rw [hrecv] at hrecv'
    cases hrecv'
  · exact fun hwhole => hne (like_of_whole hs hunread hcurrent hwhole)

/-- For every inbound stream and every pattern of interrupts, whole messages are
published at every point of the run if and only if the sends of a message are
either all interrupted or none is. -/
theorem whole_iff_likeFirst (queue : List Frame) (actions : List Action) :
    Runs.Always step Whole (start queue) actions ↔
      Runs.Throughout step LikeFirst (start queue) actions :=
  Runs.always_iff_throughout step (fun _ hs => whole_of_inv hs)
    (fun _ _ _ hs hstep hlike => inv_of_step hs hstep hlike)
    (fun _ _ _ hs hstep hlike => not_whole_of_step hs hstep hlike) (inv_start queue) actions

/-- The second frame of the first message is lost, and its first frame becomes a
part of the second message. -/
theorem not_whole_send_interrupted :
    ¬ Runs.Always step Whole
      (start (ZmqFrames.inbound [["AAPL".toList, "a".toList], ["GOOG".toList, "b".toList]]))
      [⟨false, false⟩, ⟨false, true⟩] := by
  intro halways
  obtain ⟨kept, hkept, hpublished⟩ := halways _ [] _ (List.append_nil _).symm rfl
  obtain ⟨front, back, rfl, hfront, hback⟩ := List.sublist_append_iff.mp hkept
  have hlength := congrArg List.length hpublished
  rcases List.sublist_singleton.mp hfront with rfl | rfl
  · rcases List.sublist_singleton.mp hback with rfl | rfl
    · cases hlength
    · cases hlength
  · rcases List.sublist_singleton.mp hback with rfl | rfl
    · cases hlength
    · cases hlength

end Atp.Publisher

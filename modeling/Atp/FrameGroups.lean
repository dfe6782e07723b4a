import Atp.ZmqFrames

/-!
Messages that are sent frame by frame and put together again from what `receive`
returns.  The receiver never sees an empty frame, so it does not see the end of a
message either where the last frame is empty.
-/

namespace Atp.FrameGroups

open ZmqFrames

/-- `send_copy`: the size, and the frames sent so far. -/
def sendCopy (sent : List Frame) (input : Text) (sendMore : Bool := false) :
    Nat × List Frame := (input.length, sent ++ [⟨input, sendMore⟩])

/-- The frames of a message, all but the last with the flag for more. -/
def sendMessage (sent : List Frame) : List Text → List Frame
  | [] => sent
  | [frame] => (sendCopy sent frame).2
  | frame :: frame' :: rest => sendMessage (sendCopy sent frame true).2 (frame' :: rest)

def sendMessages (messages : List (List Text)) : List Frame :=
  messages.foldl sendMessage []

/-- The messages put together so far, and the frames of the one that is not at its
end when the receiver blocks. -/
structure Grouped where
  messages : List (List Text)
  pending : List Text
deriving DecidableEq

def groupWithin : Nat → List Text → List Frame → Grouped
  | 0, pending, _ => ⟨[], pending⟩
  | n + 1, pending, queue =>
      match receive queue with
      | none => ⟨[], pending⟩
      | some ((frame, more), queue) =>
          if more then groupWithin n (pending ++ [frame]) queue
          else
            let rest := groupWithin n [] queue
            ⟨(pending ++ [frame]) :: rest.messages, rest.pending⟩

/-- The receiver: frames are added to a message until `receive` returns false. -/
def group (queue : List Frame) : Grouped := groupWithin queue.length [] queue

/-- The frames that `receive` returns. -/
def visible (queue : List Frame) : List Frame := queue.filter fun f => f.bytes ≠ []

/-- The receiver on frames of which none is empty. -/
def groupVisible (pending : List Text) : List Frame → Grouped
  | [] => ⟨[], pending⟩
  | f :: queue =>
      if f.more then groupVisible (pending ++ [f.bytes]) queue
      else
        let rest := groupVisible [] queue
        ⟨(pending ++ [f.bytes]) :: rest.messages, rest.pending⟩

theorem sendMessage_eq (sent : List Frame) (message : List Text) :
    sendMessage sent message = sent ++ multipart message := by
  induction message generalizing sent with
  | nil => exact (List.append_nil sent).symm
  | cons frame rest ih =>
      cases rest with
      | nil => rfl
      | cons frame' rest =>
          rw [sendMessage, ih]
          exact List.append_assoc sent [⟨frame, true⟩] _

theorem sendMessages_eq (messages : List (List Text)) :
    sendMessages messages = inbound messages := by
  have hfold : ∀ sent, messages.foldl sendMessage sent = sent ++ inbound messages := by
    induction messages with
    | nil =>
        intro sent
        exact (List.append_nil sent).symm
    | cons message messages ih =>
        intro sent
        rw [List.foldl_cons, ih, sendMessage_eq, inbound_cons, List.append_assoc]
  exact hfold []

theorem visible_of_empty {skipped : List Frame} (hskipped : ∀ f ∈ skipped, f.bytes = []) :
    visible skipped = [] := by
  refine List.filter_eq_nil_iff.mpr fun f hf => ?_
  simp [hskipped f hf]

theorem visible_of_receive_none {queue : List Frame} (hreceive : receive queue = none) :
    visible queue = [] :=
  visible_of_empty (receive_eq_none_iff.mp hreceive)

theorem visible_of_receive {queue queue' : List Frame} {frame : Text} {more : Bool}
    (hreceive : receive queue = some ((frame, more), queue')) :
    visible queue = ⟨frame, more⟩ :: visible queue' := by
  obtain ⟨skipped, rfl, hskipped, hne⟩ := exists_skipped_of_receive hreceive
  rw [visible, List.filter_append, ← visible, visible_of_empty hskipped, List.nil_append,
    List.filter_cons_of_pos (by simpa using hne)]
  rfl

theorem groupWithin_eq {n : Nat} {queue : List Frame} (hn : queue.length ≤ n)
    (pending : List Text) :
    groupWithin n pending queue = groupVisible pending (visible queue) := by
  induction n generalizing queue pending with
  | zero =>
      obtain rfl := List.length_eq_zero_iff.mp (Nat.le_zero.mp hn)
      rfl
  | succ n ih =>
      rw [groupWithin]
      cases hreceive : receive queue with
      | none => rw [visible_of_receive_none hreceive, groupVisible]
      | some r =>
          obtain ⟨⟨frame, more⟩, queue'⟩ := r
          have hlength := length_receive hreceive
          rw [visible_of_receive hreceive, groupVisible]
          dsimp only
          rw [ih (by omega), ih (by omega)]

theorem groupVisible_multipart {message : List Text} (hne : message ≠ [])
    (pending : List Text) (queue : List Frame) :
    groupVisible pending (multipart message ++ queue) =
      ⟨(pending ++ message) :: (groupVisible [] queue).messages,
        (groupVisible [] queue).pending⟩ := by
  induction message generalizing pending with
  | nil => exact absurd rfl hne
  | cons frame rest ih =>
      cases rest with
      | nil => rfl
      | cons frame' rest =>
          change groupVisible (pending ++ [frame]) (multipart (frame' :: rest) ++ queue) = _
          rw [ih (List.cons_ne_nil _ _), List.append_assoc]
          rfl

/-- A message without its empty frames. -/
def dropEmpty (message : List Text) : List Text := message.filter fun frame => frame ≠ []

theorem getLast?_dropEmpty {message : List Text} {frame : Text}
    (hlast : message.getLast? = some frame) (hframe : frame ≠ []) :
    (dropEmpty message).getLast? = some frame := by
  obtain ⟨front, rfl⟩ := List.getLast?_eq_some_iff.mp hlast
  rw [dropEmpty, List.filter_append, List.filter_singleton, decide_eq_true hframe]
  exact List.getLast?_concat

/-- Where the last frame is not empty, what is seen of a message is the message
without its empty frames. -/
theorem visible_multipart {message : List Text} {frame : Text}
    (hlast : message.getLast? = some frame) (hframe : frame ≠ []) :
    visible (multipart message) = multipart (dropEmpty message) := by
  induction message with
  | nil => cases hlast
  | cons first rest ih =>
      cases rest with
      | nil =>
          obtain rfl : first = frame := Option.some.inj hlast
          simp [visible, multipart, dropEmpty, hframe]
      | cons second rest =>
          rw [List.getLast?_cons_cons] at hlast
          have ih := ih hlast
          have hmore : dropEmpty (second :: rest) ≠ [] := by
            intro hnil
            have hlast' := getLast?_dropEmpty hlast hframe
            rw [hnil] at hlast'
            cases hlast'
          change visible (⟨first, true⟩ :: multipart (second :: rest)) = _
          rcases eq_or_ne first [] with rfl | hne
          · exact ih
          · have hcons : dropEmpty (first :: second :: rest) =
                first :: dropEmpty (second :: rest) := List.filter_cons_of_pos (by simp [hne])
            rw [hcons, visible, List.filter_cons_of_pos (by simp [hne])]
            change _ :: visible (multipart (second :: rest)) = _
            rw [ih, multipart, List.isEmpty_eq_false_iff.mpr hmore]
            rfl

theorem visible_append (queue queue' : List Frame) :
    visible (queue ++ queue') = visible queue ++ visible queue' := List.filter_append _ _

/-- If no message ends in an empty frame, the receiver puts together the messages
that were sent, without their empty frames. -/
theorem group_sendMessages (messages : List (List Text))
    (hlast : ∀ message ∈ messages, ∃ frame, message.getLast? = some frame ∧ frame ≠ []) :
    group (sendMessages messages) = ⟨messages.map dropEmpty, []⟩ := by
  rw [group, groupWithin_eq le_rfl, sendMessages_eq]
  induction messages with
  | nil => rfl
  | cons message messages ih =>
      obtain ⟨⟨frame, hframe, hne⟩, hlast⟩ := List.forall_mem_cons.mp hlast
      have hmore : dropEmpty message ≠ [] := by
        intro hnil
        have hframe' := getLast?_dropEmpty hframe hne
        rw [hnil] at hframe'
        cases hframe'
      rw [inbound_cons, visible_append, visible_multipart hframe hne,
        groupVisible_multipart hmore, ih hlast]
      rfl

theorem dropEmpty_eq_self {message : List Text} (hne : ∀ frame ∈ message, frame ≠ []) :
    dropEmpty message = message := by
  refine List.filter_eq_self.mpr fun frame hframe => ?_
  exact decide_eq_true (hne frame hframe)

/-- What is put together consists of frames that were received. -/
theorem mem_of_mem_groupVisible {pending message : List Text} {queue : List Frame}
    (hmessage : message ∈ (groupVisible pending queue).messages) {frame : Text}
    (hframe : frame ∈ message) : frame ∈ pending ∨ ∃ f ∈ queue, f.bytes = frame := by
  induction queue generalizing pending with
  | nil => cases hmessage
  | cons f queue ih =>
      rw [groupVisible] at hmessage
      split at hmessage
      · rcases ih hmessage with hpending | ⟨f', hf', hbytes⟩
        · rcases List.mem_append.mp hpending with hpending | hf
          · exact Or.inl hpending
          · exact Or.inr ⟨f, List.mem_cons_self, (List.mem_singleton.mp hf).symm⟩
        · exact Or.inr ⟨f', List.mem_cons_of_mem f hf', hbytes⟩
      · rcases List.mem_cons.mp hmessage with rfl | hmessage
        · rcases List.mem_append.mp hframe with hpending | hf
          · exact Or.inl hpending
          · exact Or.inr ⟨f, List.mem_cons_self, (List.mem_singleton.mp hf).symm⟩
        · rcases ih hmessage with hnil | ⟨f', hf', hbytes⟩
          · cases hnil
          · exact Or.inr ⟨f', List.mem_cons_of_mem f hf', hbytes⟩

theorem ne_nil_of_mem_group {queue : List Frame} {message : List Text}
    (hmessage : message ∈ (group queue).messages) {frame : Text} (hframe : frame ∈ message) :
    frame ≠ [] := by
  rw [group, groupWithin_eq le_rfl] at hmessage
  rcases mem_of_mem_groupVisible hmessage hframe with hnil | ⟨f, hf, rfl⟩
  · cases hnil
  · exact of_decide_eq_true (List.mem_filter.mp hf).2

/-- The receiver puts together the messages that were sent if and only if none of
their frames is empty. -/
theorem group_sendMessages_iff (messages : List (List Text))
    (hmessages : ∀ message ∈ messages, message ≠ []) :
    group (sendMessages messages) = ⟨messages, []⟩ ↔
      ∀ message ∈ messages, ∀ frame ∈ message, frame ≠ [] := by
  constructor
  · intro hgroup message hmessage frame hframe
    have hmem : message ∈ (group (sendMessages messages)).messages := by
      rw [hgroup]
      exact hmessage
    exact ne_nil_of_mem_group hmem hframe
  · intro hne
    have hlast : ∀ message ∈ messages, ∃ frame, message.getLast? = some frame ∧ frame ≠ [] := by
      intro message hmessage
      have hnil := hmessages message hmessage
      exact ⟨message.getLast hnil, List.getLast?_eq_getLast_of_ne_nil hnil,
        hne message hmessage _ (List.getLast_mem hnil)⟩
    rw [group_sendMessages messages hlast,
      List.map_congr_left fun message hmessage => dropEmpty_eq_self (hne message hmessage),
      List.map_id']

theorem group_sendMessages_iff_order :
    group (sendMessages [["topic".toList, "order".toList], ["status".toList]]) =
      ⟨[["topic".toList, "order".toList], ["status".toList]], []⟩ :=
  (group_sendMessages_iff [["topic".toList, "order".toList], ["status".toList]]
    (by decide)).mpr (by decide)

/-- An empty payload is lost, and the message after it is taken for its end. -/
theorem group_ne_empty_payload :
    group (sendMessages [["topic".toList, []], ["status".toList]]) ≠
      ⟨[["topic".toList, []], ["status".toList]], []⟩ := by decide

end Atp.FrameGroups

import Atp.Links
import Atp.MessageProcessor
import Atp.SocketConnector

/-!
Messages of two frames: the name of a type and the bytes of a value of it, or a topic
and its payload.  One turn of a connector's loop, and one of a message processor's,
takes exactly one of them.
-/

namespace Atp.TypedMessages

open Links MessageProcessor SocketConnector ZmqFrames

/-- A message of two frames. -/
structure TypedMessage where
  key : Text
  bytes : Text

namespace TypedMessage

def frames (m : TypedMessage) : List Frame := multipart [m.key, m.bytes]

/-- Empty frames are skipped by the receiver. -/
def NonEmpty (m : TypedMessage) : Prop := m.key ≠ [] ∧ m.bytes ≠ []

end TypedMessage

theorem receive_cons {f : Frame} (hf : f.bytes ≠ []) (queue : List Frame) :
    receive (f :: queue) = some ((f.bytes, f.more), queue) := by
  rw [receive, if_pos (List.length_pos_iff.mpr hf)]

/-! ### The connector -/

section

variable {σ P : Type} (c : Connector σ P)

/-- One turn of the loop of `handleReactorInboundMessages`: the response code, and the
state that the call to the API leaves. -/
def connectorTurn (s : σ) (queue : List Frame) : Option ((Nat × σ) × List Frame) :=
  (receive queue).bind fun ((key, more), unread) => SocketConnector.respond c s key more unread

/-- The loop is made of these turns. -/
theorem handleWithin_succ (n : Nat) (s : σ) (queue : List Frame) :
    (handleWithin c (n + 1) s queue).filterMap Event.code =
      match connectorTurn c s queue with
      | none => []
      | some ((code, s), queue) => code :: (handleWithin c n s queue).filterMap Event.code := by
  rw [handleWithin, connectorTurn]
  cases receive queue with
  | none => rfl
  | some r =>
      obtain ⟨⟨key, more⟩, unread⟩ := r
      dsimp only [Option.bind_some]
      cases respond c s key more unread with
      | none => rfl
      | some r => rfl

/-- A turn at a message of a supported type parses it and calls the API. -/
theorem connectorTurn_frames {m : TypedMessage} (hm : m.NonEmpty)
    (hsupported : c.isMessageSupported m.key = true) (hkey : m.key ∈ handlerMap)
    (hinitialized : c.isInitialized (c.parseFromString m.key m.bytes) = true) (s : σ)
    (later : List Frame) :
    connectorTurn c s (m.frames ++ later) =
      some (answer c s m.key (some (c.parseFromString m.key m.bytes)), later) := by
  have hframes : m.frames ++ later = ⟨m.key, true⟩ :: ⟨m.bytes, false⟩ :: later := rfl
  rw [hframes, connectorTurn, receive_cons hm.1, Option.bind_some]
  dsimp only
  simp only [SocketConnector.respond, hsupported, createMessage, if_pos hkey, receiveProto,
    receive_cons (f := ⟨m.bytes, false⟩) hm.2, hinitialized, Bool.not_true, Bool.false_eq_true,
    if_false, if_true, Option.map_some]

end

/-! ### The message processor -/

section

variable {σ : Type} (h : HandlersMap σ)

/-- One turn of the loop of `run`, and whether the loop goes on. -/
def processorTurn (s : σ) (queue : List Frame) : Option ((σ × Bool) × List Frame) :=
  match receive queue with
  | none => none
  | some ((_, false), queue) => some ((s, true), queue)
  | some ((topic, true), queue) =>
      match receive queue with
      | none => none
      | some ((_, true), queue) => some ((s, true), queue)
      | some ((message, false), queue) => some (processRawMessage h s topic message, queue)

/-- The loop is made of these turns. -/
theorem ended_runWithin_succ (n : Nat) (s : σ) (queue : List Frame) :
    (runWithin h (n + 1) s queue).ended =
      match processorTurn h s queue with
      | none => false
      | some ((s, true), queue) => (runWithin h n s queue).ended
      | some ((_, false), _) => true := by
  have hdispatch (topic message : Text) (unread : List Frame) :
      (dispatch h s topic message unread fun s => runWithin h n s unread).ended =
        if (processRawMessage h s topic message).2 then
          (runWithin h n (processRawMessage h s topic message).1 unread).ended
        else true := by
    unfold dispatch
    rcases processRawMessage h s topic message with ⟨s', run⟩
    cases run <;> cases h.isSupported topic <;> rfl
  rw [runWithin, processorTurn]
  rcases receive queue with _ | ⟨⟨topic, more⟩, unread⟩
  · rfl
  · cases more with
    | false => rfl
    | true =>
        dsimp only
        rcases receive unread with _ | ⟨⟨message, more⟩, unread⟩
        · rfl
        · cases more with
          | true => rfl
          | false =>
              dsimp only
              rw [hdispatch]
              rcases processRawMessage h s topic message with ⟨s', run⟩
              cases run <;> rfl

/-- A turn at a message processes it. -/
theorem processorTurn_frames {m : TypedMessage} (hm : m.NonEmpty) (s : σ) (later : List Frame) :
    processorTurn h s (m.frames ++ later) =
      some (processRawMessage h s m.key m.bytes, later) := by
  have hframes : m.frames ++ later = ⟨m.key, true⟩ :: ⟨m.bytes, false⟩ :: later := rfl
  rw [hframes, processorTurn, receive_cons hm.1]
  dsimp only
  rw [receive_cons hm.2]

/-- What messages make of the state, and whether the loop ends at one of them. -/
def processMessages : σ → List TypedMessage → σ × Bool
  | s, [] => (s, false)
  | s, m :: messages =>
      if (processRawMessage h s m.key m.bytes).2 then
        processMessages (processRawMessage h s m.key m.bytes).1 messages
      else ((processRawMessage h s m.key m.bytes).1, true)

/-- The state that calls of the handlers leave. -/
def afterCalls (s : σ) (calls : List Call) : σ :=
  calls.foldl (fun s call => (h.handler s call.topic call.message).1) s

theorem processRawMessage_of_supported (s : σ) {topic : Text}
    (hsupported : h.isSupported topic = true) (message : Text) :
    (processRawMessage h s topic message).1 = (h.handler s topic message).1 := by
  rw [processRawMessage, if_pos hsupported]

theorem walk_messages {messages : List TypedMessage} (hmessages : ∀ m ∈ messages, m.NonEmpty)
    (s : σ) :
    (afterCalls h s (walk h none s (messages.flatMap TypedMessage.frames)).calls,
        (walk h none s (messages.flatMap TypedMessage.frames)).ended) =
      processMessages h s messages := by
  induction messages generalizing s with
  | nil => rfl
  | cons m messages ih =>
      obtain ⟨⟨hkey, hbytes⟩, hmessages⟩ := List.forall_mem_cons.mp hmessages
      have hwalk : walk h none s ((m :: messages).flatMap TypedMessage.frames) =
          dispatch h s m.key m.bytes (messages.flatMap TypedMessage.frames) fun s =>
            walk h none s (messages.flatMap TypedMessage.frames) := by
        rw [List.flatMap_cons]
        change walk h none s (⟨m.key, true⟩ :: ⟨m.bytes, false⟩ :: _) = _
        rw [walk_cons h none s hkey]
        exact walk_cons h (some m.key) s hbytes _
      rw [hwalk, processMessages]
      cases hsupported : h.isSupported m.key with
      | false =>
          have hraw : processRawMessage h s m.key m.bytes = (s, false) :=
            if_neg (Bool.eq_false_iff.mp hsupported)
          rw [dispatch_of_unsupported h s hsupported, hraw]
          rfl
      | true =>
          rw [dispatch_of_supported h s hsupported, afterCalls, Outcome.cons, List.foldl_cons]
          dsimp only
          rw [← processRawMessage_of_supported h s hsupported]
          split_ifs
          · exact ih hmessages _
          · rfl

/-- The loop on messages that are not empty. -/
theorem run_messages {messages : List TypedMessage} (hmessages : ∀ m ∈ messages, m.NonEmpty)
    (s : σ) :
    (afterCalls h s (run h s (messages.flatMap TypedMessage.frames)).calls,
        (run h s (messages.flatMap TypedMessage.frames)).ended) =
      processMessages h s messages := by
  rw [run, runWithin_eq_walk h le_rfl]
  exact walk_messages h hmessages s

end

end Atp.TypedMessages

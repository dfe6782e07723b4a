import Atp.ZmqFrames
import Mathlib

/-!
The loop of a connector's reactor: it reads a key frame, then what belongs to
the message, and ends every message with one response code.  Messages that all
have their key frame and at most one payload frame keep it in step with the
message boundaries; some others do not.
-/

namespace Atp.SocketConnector

open ZmqFrames

/-- What the loop uses of the application, the message types and the API client.
`σ` is the state that calls to the API change. -/
structure Connector (σ P : Type) where
  isMessageSupported : Text → Bool
  parseFromString : (key bytes : Text) → P
  isInitialized : P → Bool
  callApi : σ → (key : Text) → P → σ × Bool

def handlerMap : List Text :=
  ["proto.ib.RequestContractDetails".toList, "proto.ib.RequestMarketData".toList,
    "proto.ib.CancelMarketData".toList, "proto.ib.RequestMarketDepth".toList,
    "proto.ib.CancelMarketDepth".toList, "proto.ib.CancelOrder".toList,
    "proto.ib.MarketOrder".toList, "proto.ib.LimitOrder".toList,
    "proto.ib.StopLimitOrder".toList]

def createMessage (key : Text) : Option Text := if key ∈ handlerMap then some key else none

variable {σ P : Type} (c : Connector σ P)

/-- `atp::receive`: one frame that is the whole message, or no message. -/
def receiveProto (key : Text) (queue : List Frame) : Option (Option P × List Frame) :=
  (receive queue).map fun ((frame, more), queue) =>
    let p := c.parseFromString key frame
    (if more then none else if c.isInitialized p then some p else none, queue)

/-- The response code for what was received as the payload, and the call. -/
def answer (s : σ) (key : Text) : Option P → Nat × σ
  | none => (400, s)
  | some p =>
      if !c.isInitialized p then (412, s)
      else
        let (s, ok) := c.callApi s key p
        (if ok then 200 else 502, s)

/-- What follows the key frame: the response code, and what is left to read.
Nothing if the loop waits for a frame that has not arrived. -/
def respond (s : σ) (key : Text) (more : Bool) (queue : List Frame) :
    Option ((Nat × σ) × List Frame) :=
  if !c.isMessageSupported key then
    (drain more queue).map fun queue => ((404, s), queue)
  else if more then
    match createMessage key with
    | none => some ((503, s), queue)
    | some message =>
        (receiveProto c message queue).map fun (payload, queue) =>
          (answer c s message payload, queue)
  else some ((500, s), queue)

/-- One turn of the loop: the frame taken as the key, the frames that were unread
then, and the code given to `afterMessage`, if the turn got that far. -/
structure Event where
  key : Text
  unread : List Frame
  code : Option Nat

def handleWithin : Nat → σ → List Frame → List Event
  | 0, _, _ => []
  | n + 1, s, queue =>
      match receive queue with
      | none => []
      | some ((key, more), unread) =>
          match respond c s key more unread with
          | none => [⟨key, unread, none⟩]
          | some ((code, s), queue) => ⟨key, unread, some code⟩ :: handleWithin n s queue

/-- The turns of the loop until it waits for more frames. -/
def handleReactorInboundMessages (s : σ) (queue : List Frame) : List Event :=
  handleWithin c queue.length s queue

/-- One turn for each message, in order, which takes the key frame of that
message as the key, at its place, and gives a response code. -/
def InStep : List Event → List (List Text) → Prop
  | [], [] => True
  | event :: events, message :: messages =>
      event.code.isSome ∧
        (∃ rest, keyAndRest message = some (event.key, rest) ∧
          event.unread = multipart rest ++ inbound messages) ∧
        InStep events messages
  | _, _ => False

/-- The frames after the key are drained if the key is unsupported, all empty if
it has no message object, and hold one payload otherwise. -/
def RegularRest (key : Text) (rest : List Text) : Prop :=
  rest = [] ∨
    if c.isMessageSupported key = false then rest.getLast? ≠ some []
    else if key ∈ handlerMap then (rest.filter fun frame => frame ≠ []).length = 1
    else ∀ frame ∈ rest, frame = []

/-- The messages after which the loop is at the next message. -/
def Regular (message : List Text) : Prop :=
  ∃ key rest, keyAndRest message = some (key, rest) ∧ RegularRest c key rest

/-! ### The loop reads through `receive` alone -/

/-- What a turn leaves to read depends on the key and on the frames, not on
payloads or on the API. -/
def readOn (key : Text) (more : Bool) (queue : List Frame) : Option (List Frame) :=
  if c.isMessageSupported key = false then drain more queue
  else if more = true ∧ key ∈ handlerMap then (receive queue).map Prod.snd
  else some queue

theorem respond_queue (s : σ) (key : Text) (more : Bool) (queue : List Frame) :
    (respond c s key more queue).map Prod.snd = readOn c key more queue := by
  unfold respond readOn
  cases c.isMessageSupported key with
  | false => simp [Function.comp_def]
  | true =>
      cases more with
      | false => rfl
      | true =>
          by_cases hkey : key ∈ handlerMap
          · simp [createMessage, hkey, receiveProto, Function.comp_def]
          · simp [createMessage, hkey]

theorem length_readOn {key : Text} {more : Bool} {queue queue' : List Frame}
    (hread : readOn c key more queue = some queue') : queue'.length ≤ queue.length := by
  unfold readOn at hread
  split_ifs at hread
  · exact length_drain hread
  · obtain ⟨r, hr, rfl⟩ := Option.map_eq_some_iff.mp hread
    exact (length_receive hr).le
  · exact (Option.some.inj hread ▸ le_rfl)

theorem handleWithin_eq {n m : Nat} {s : σ} {queue : List Frame} (hn : queue.length ≤ n)
    (hm : queue.length ≤ m) : handleWithin c n s queue = handleWithin c m s queue := by
  induction n generalizing m s queue with
  | zero =>
      obtain rfl := List.length_eq_zero_iff.mp (Nat.le_zero.mp hn)
      cases m <;> rfl
  | succ n ih =>
      cases m with
      | zero =>
          obtain rfl := List.length_eq_zero_iff.mp (Nat.le_zero.mp hm)
          rfl
      | succ m =>
          rw [handleWithin, handleWithin]
          cases hreceive : receive queue with
          | none => rfl
          | some r =>
              obtain ⟨⟨key, more⟩, unread⟩ := r
              have hunread := length_receive hreceive
              cases hrespond : respond c s key more unread with
              | none => simp only [hrespond]
              | some r =>
                  obtain ⟨⟨code, s'⟩, queue'⟩ := r
                  have hread : readOn c key more unread = some queue' := by
                    rw [← respond_queue c s, hrespond]
                    rfl
                  have hqueue' := length_readOn c hread
                  simp only [hrespond]
                  rw [@ih m s' queue' (by omega) (by omega)]

/-- One turn more than there are frames. -/
theorem handleReactorInboundMessages_eq (s : σ) (queue : List Frame) :
    handleReactorInboundMessages c s queue = handleWithin c (queue.length + 1) s queue :=
  handleWithin_eq c le_rfl (Nat.le_succ _)

theorem handle_of_receive_none {s : σ} {queue : List Frame} (hreceive : receive queue = none) :
    handleReactorInboundMessages c s queue = [] := by
  rw [handleReactorInboundMessages_eq, handleWithin, hreceive]

theorem handle_of_blocked {s : σ} {queue unread : List Frame} {key : Text} {more : Bool}
    (hreceive : receive queue = some ((key, more), unread))
    (hrespond : respond c s key more unread = none) :
    handleReactorInboundMessages c s queue = [⟨key, unread, none⟩] := by
  rw [handleReactorInboundMessages_eq, handleWithin, hreceive]
  simp only [hrespond]

theorem handle_of_respond {s s' : σ} {queue unread queue' : List Frame} {key : Text}
    {more : Bool} {code : Nat} (hreceive : receive queue = some ((key, more), unread))
    (hrespond : respond c s key more unread = some ((code, s'), queue')) :
    handleReactorInboundMessages c s queue =
      ⟨key, unread, some code⟩ :: handleReactorInboundMessages c s' queue' := by
  have hread : readOn c key more unread = some queue' := by
    rw [← respond_queue c s, hrespond]
    rfl
  have hlength := (length_readOn c hread).trans (length_receive hreceive).le
  rw [handleReactorInboundMessages_eq, handleWithin, hreceive]
  simp only [hrespond]
  rw [handleReactorInboundMessages, handleWithin_eq c hlength le_rfl]

/-! ### Where the next key frame is read -/

/-- How many frames are unread once the next key frame has been read. -/
def ahead (queue : List Frame) : Option Nat := (receive queue).map fun r => r.2.length

theorem ahead_of_receive {queue unread : List Frame} {r : Text × Bool}
    (hreceive : receive queue = some (r, unread)) : ahead queue = some unread.length := by
  rw [ahead, hreceive]
  rfl

theorem ahead_lt {queue : List Frame} {n : Nat} (hahead : ahead queue = some n) :
    n < queue.length := by
  obtain ⟨r, hr, rfl⟩ := Option.map_eq_some_iff.mp hahead
  exact length_receive hr

theorem ahead_ne_of_le {queue queue' unread : List Frame} {r : Text × Bool}
    (hreceive : receive queue = some (r, unread)) (hle : queue'.length ≤ unread.length) :
    ahead queue' ≠ ahead queue := by
  rw [ahead_of_receive hreceive]
  exact fun heq => (ahead_lt heq).not_ge hle

theorem ahead_multipart_ne {rest : List Text} {p : Text × List Text}
    (hrest : keyAndRest rest = some p) (queue : List Frame) :
    ahead (multipart rest ++ queue) ≠ ahead queue := by
  rw [ahead_of_receive (receive_multipart_of_some hrest queue)]
  intro heq
  have hlt := ahead_lt heq.symm
  rw [List.length_append] at hlt
  exact hlt.not_ge (Nat.le_add_left _ _)

theorem handle_of_receive (s : σ) {queue unread : List Frame} {key : Text} {more : Bool}
    (hreceive : receive queue = some ((key, more), unread)) :
    ∃ code events, handleReactorInboundMessages c s queue = ⟨key, unread, code⟩ :: events := by
  cases hrespond : respond c s key more unread with
  | none => exact ⟨_, _, handle_of_blocked c hreceive hrespond⟩
  | some r => exact ⟨_, _, handle_of_respond c hreceive hrespond⟩

theorem InStep.ahead_eq {s : σ} {queue : List Frame} {messages : List (List Text)}
    (hstep : InStep (handleReactorInboundMessages c s queue) messages) :
    ahead queue = ahead (inbound messages) := by
  cases hreceive : receive queue with
  | none =>
      rw [handle_of_receive_none c hreceive] at hstep
      cases messages with
      | nil => rw [ahead, hreceive]; rfl
      | cons message messages => exact hstep.elim
  | some r =>
      obtain ⟨⟨key, more⟩, unread⟩ := r
      obtain ⟨code, events, hevents⟩ := handle_of_receive c s hreceive
      rw [hevents] at hstep
      cases messages with
      | nil => exact hstep.elim
      | cons message messages =>
          obtain ⟨-, ⟨rest, hkey, rfl⟩, -⟩ := hstep
          rw [ahead_of_receive hreceive, inbound_cons,
            ahead_of_receive (receive_multipart_of_some hkey _)]

/-! ### The frames a turn reads -/

theorem length_filter_eq_one_iff {rest : List Text} :
    (rest.filter fun frame => frame ≠ []).length = 1 ↔
      ∃ frame rest', keyAndRest rest = some (frame, rest') ∧ keyAndRest rest' = none := by
  induction rest with
  | nil => simp [keyAndRest]
  | cons x rest ih =>
      rcases eq_or_ne x [] with rfl | hx
      · simpa [keyAndRest_cons_nil] using ih
      · simp [keyAndRest_cons hx, hx, keyAndRest_eq_none_iff]

theorem regular_iff {message rest : List Text} {key : Text}
    (hkey : keyAndRest message = some (key, rest)) :
    Regular c message ↔ RegularRest c key rest := by
  simp [Regular, hkey]

theorem readOn_of_regular {key : Text} {rest : List Text} (hregular : RegularRest c key rest)
    (queue : List Frame) :
    ∃ queue', readOn c key (!rest.isEmpty) (multipart rest ++ queue) = some queue' ∧
      receive queue' = receive queue := by
  rcases rest with _ | ⟨x, rest⟩
  · refine ⟨queue, ?_, rfl⟩
    simp [readOn, multipart]
  · have hregular := hregular.resolve_left (List.cons_ne_nil x rest)
    change ∃ queue', readOn c key true (multipart (x :: rest) ++ queue) = some queue' ∧ _
    simp only [readOn, true_and]
    split_ifs at hregular ⊢ with hsupported hkey
    · exact ⟨queue, by rw [drain_multipart (List.cons_ne_nil x rest), if_neg hregular], rfl⟩
    · obtain ⟨frame, rest', hframe, hrest'⟩ := length_filter_eq_one_iff.mp hregular
      exact ⟨_, by rw [receive_multipart_of_some hframe]; rfl,
        receive_multipart_of_none hrest' queue⟩
    · exact ⟨_, rfl, receive_multipart_of_none (keyAndRest_eq_none_iff.mpr hregular) queue⟩

theorem readOn_of_not_regular {key : Text} {rest : List Text}
    (hregular : ¬ RegularRest c key rest) {queue queue' : List Frame}
    (hread : readOn c key (!rest.isEmpty) (multipart rest ++ queue) = some queue') :
    ahead queue' ≠ ahead queue := by
  rw [RegularRest, not_or] at hregular
  obtain ⟨hne, hregular⟩ := hregular
  obtain ⟨x, rest, rfl⟩ := List.exists_cons_of_ne_nil hne
  change readOn c key true (multipart (x :: rest) ++ queue) = some queue' at hread
  simp only [readOn, true_and] at hread
  split_ifs at hregular hread with hsupported hkey
  · rw [drain_multipart hne, if_pos (not_not.mp hregular), drain_true] at hread
    obtain ⟨r, hreceive, hdrain⟩ := Option.bind_eq_some_iff.mp hread
    exact ahead_ne_of_le hreceive (length_drain hdrain)
  · obtain ⟨r, hreceive, rfl⟩ := Option.map_eq_some_iff.mp hread
    cases hframe : keyAndRest (x :: rest) with
    | none =>
        rw [receive_multipart_of_none hframe] at hreceive
        exact ahead_ne_of_le hreceive le_rfl
    | some p =>
        rw [receive_multipart_of_some hframe, Option.some.injEq] at hreceive
        rw [← hreceive]
        cases hrest' : keyAndRest p.2 with
        | none => exact absurd (length_filter_eq_one_iff.mpr ⟨_, _, hframe, hrest'⟩) hregular
        | some p' => exact ahead_multipart_ne hrest' queue
  · obtain rfl := Option.some.inj hread
    cases hframe : keyAndRest (x :: rest) with
    | none => exact absurd (keyAndRest_eq_none_iff.mp hframe) hregular
    | some p => exact ahead_multipart_ne hframe queue

theorem InStep.isSome_key {events : List Event} {message : List Text}
    {messages : List (List Text)} (hstep : InStep events (message :: messages)) :
    (keyAndRest message).isSome = true := by
  cases events with
  | nil => exact hstep.elim
  | cons event events =>
      obtain ⟨-, ⟨rest, hrest, -⟩, -⟩ := hstep
      rw [hrest]
      rfl

theorem Regular.isSome_key {message : List Text} (hregular : Regular c message) :
    (keyAndRest message).isSome = true := by
  obtain ⟨key, rest, hrest, -⟩ := hregular
  rw [hrest]
  rfl

theorem inStep_cons_iff {message : List Text} {key : Text} {rest : List Text}
    (hkey : keyAndRest message = some (key, rest)) (messages : List (List Text)) (code : Nat)
    (events : List Event) :
    InStep (⟨key, multipart rest ++ inbound messages, some code⟩ :: events)
        (message :: messages) ↔ InStep events messages := by
  constructor
  · intro hstep
    exact hstep.2.2
  · intro hstep
    exact ⟨rfl, ⟨rest, hkey, rfl⟩, hstep⟩

/-- A loop that starts before the first message stays in step if and only if all
the messages are regular. -/
theorem inStep_iff_of_aligned (s : σ) {queue : List Frame} {messages : List (List Text)}
    (haligned : receive queue = receive (inbound messages)) :
    InStep (handleReactorInboundMessages c s queue) messages ↔
      ∀ message ∈ messages, Regular c message := by
  induction messages generalizing s queue with
  | nil =>
      rw [handle_of_receive_none c haligned]
      simp [InStep]
  | cons message messages ih =>
      rw [List.forall_mem_cons]
      cases hkey : keyAndRest message with
      | none =>
          have hno : (keyAndRest message).isSome ≠ true := by simp [hkey]
          exact iff_of_false (fun hstep => hno hstep.isSome_key)
            fun hregular => hno (Regular.isSome_key c hregular.1)
      | some p =>
          obtain ⟨key, rest⟩ := p
          rw [inbound_cons, receive_multipart_of_some hkey] at haligned
          rw [regular_iff c hkey]
          have hqueue := respond_queue c s key (!rest.isEmpty)
            (multipart rest ++ inbound messages)
          cases hrespond : respond c s key (!rest.isEmpty)
              (multipart rest ++ inbound messages) with
          | none =>
              rw [hrespond] at hqueue
              rw [handle_of_blocked c haligned hrespond]
              refine iff_of_false (fun hstep => ?_) (fun hregular => ?_)
              · exact absurd hstep.1 (by simp)
              · obtain ⟨queue', hread, -⟩ :=
                  readOn_of_regular c hregular.1 (inbound messages)
                rw [hread] at hqueue
                cases hqueue
          | some r =>
              obtain ⟨⟨code, s'⟩, queue'⟩ := r
              rw [hrespond] at hqueue
              have hread := hqueue.symm
              rw [handle_of_respond c haligned hrespond, inStep_cons_iff hkey]
              by_cases hregular : RegularRest c key rest
              · obtain ⟨queue'', hread', hreceive⟩ :=
                  readOn_of_regular c hregular (inbound messages)
                obtain rfl := Option.some.inj (hread.symm.trans hread')
                rw [ih s' hreceive]
                exact (and_iff_right hregular).symm
              · refine iff_of_false (fun hstep => ?_) (fun h => hregular h.1)
                exact readOn_of_not_regular c hregular hread (InStep.ahead_eq c hstep)

/-- For every sequence of messages, the loop gives one response code for each
message, in order, and takes no other frame for a key frame, if and only if every
message is regular. -/
theorem inStep_iff_regular (c : Connector σ P) (s : σ) (messages : List (List Text)) :
    InStep (handleReactorInboundMessages c s (inbound messages)) messages ↔
      ∀ message ∈ messages, Regular c message :=
  inStep_iff_of_aligned c s rfl

theorem InStep.keys {events : List Event} {messages : List (List Text)}
    (hstep : InStep events messages) :
    events.map (fun event => some event.key) =
      messages.map fun message => (keyAndRest message).map Prod.fst := by
  induction events generalizing messages with
  | nil =>
      cases messages with
      | nil => rfl
      | cons message messages => exact hstep.elim
  | cons event events ih =>
      cases messages with
      | nil => exact hstep.elim
      | cons message messages =>
          obtain ⟨-, ⟨rest, hkey, -⟩, hstep⟩ := hstep
          rw [List.map_cons, List.map_cons, ih hstep, hkey]
          rfl

/-- A connector that supports every message, as the default application does,
with payloads that are their own text. -/
def acceptAll : Connector Unit Text where
  isMessageSupported _ := true
  parseFromString _ bytes := bytes
  isInitialized _ := true
  callApi s _ _ := (s, true)

/-- The third frame of the first message is taken for the key frame of the
second. -/
theorem not_inStep_extra_frame :
    ¬ InStep
      (handleReactorInboundMessages acceptAll ()
        (inbound [["proto.ib.CancelOrder".toList, ['a'], ['b']],
          ["proto.ib.CancelOrder".toList, ['c']]]))
      [["proto.ib.CancelOrder".toList, ['a'], ['b']],
        ["proto.ib.CancelOrder".toList, ['c']]] := by
  intro hstep
  have hkeys : ((handleReactorInboundMessages acceptAll ()
        (inbound [["proto.ib.CancelOrder".toList, ['a'], ['b']],
          ["proto.ib.CancelOrder".toList, ['c']]])).map Event.key) =
      ["proto.ib.CancelOrder".toList, ['b'], "proto.ib.CancelOrder".toList] := by
    decide
  have heq := congrArg List.length hstep.keys
  rw [List.length_map, ← List.length_map Event.key, hkeys] at heq
  exact absurd heq (by decide)

end Atp.SocketConnector

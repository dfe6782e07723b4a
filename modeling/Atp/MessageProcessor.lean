import Atp.ZmqFrames

/-!
The listener of a message processor: it reads frames in pairs and dispatches a
pair whose second frame ends a message.  Pairs and messages get out of step, and
a topic without a handler stops the loop like a handler that fails.
-/

namespace Atp.MessageProcessor

open ZmqFrames

/-- The registered handlers.  A handler may change the state `σ`, and either
returns whether to go on or throws. -/
structure HandlersMap (σ : Type) where
  isSupported : Text → Bool
  handler : σ → (id data : Text) → σ × Option Bool

variable {σ : Type} (h : HandlersMap σ)

def processRawMessage (s : σ) (id data : Text) : σ × Bool :=
  if h.isSupported id then
    let (s, result) := h.handler s id data
    (s, result.getD false)
  else (s, false)

/-- A call of a handler, and the frames that are unread at that point. -/
structure Call where
  topic : Text
  message : Text
  unread : List Frame

/-- The calls in order, and whether the loop has ended; it waits for more frames
if not. -/
structure Outcome where
  calls : List Call
  ended : Bool

namespace Outcome

def waiting : Outcome := ⟨[], false⟩

def stopped : Outcome := ⟨[], true⟩

def cons (call : Call) (rest : Outcome) : Outcome := ⟨call :: rest.calls, rest.ended⟩

end Outcome

/-- What comes of a pair of frames: the call, if the topic has a handler, and the
rest of the loop, if it goes on. -/
def dispatch (s : σ) (topic message : Text) (unread : List Frame) (rest : σ → Outcome) :
    Outcome :=
  let (s', run) := processRawMessage h s topic message
  let rest := if run then rest s' else .stopped
  if h.isSupported topic then rest.cons ⟨topic, message, unread⟩ else rest

/-- The turns of the loop: the second frame is read if the first is not the last
of its message, and the pair is processed if the second is. -/
def runWithin : Nat → σ → List Frame → Outcome
  | 0, _, _ => .waiting
  | n + 1, s, queue =>
      match receive queue with
      | none => .waiting
      | some ((_, false), queue) => runWithin n s queue
      | some ((topic, true), queue) =>
          match receive queue with
          | none => .waiting
          | some ((_, true), queue) => runWithin n s queue
          | some ((message, false), queue) =>
              dispatch h s topic message queue fun s => runWithin n s queue

/-- The loop until it ends or waits for more frames. -/
def run (s : σ) (queue : List Frame) : Outcome := runWithin h queue.length s queue

theorem dispatch_of_supported (s : σ) {topic : Text} (hsupported : h.isSupported topic = true)
    (message : Text) (unread : List Frame) (rest : σ → Outcome) :
    dispatch h s topic message unread rest =
      (if (processRawMessage h s topic message).2 = true then
        rest (processRawMessage h s topic message).1 else .stopped).cons
          ⟨topic, message, unread⟩ := if_pos hsupported

theorem dispatch_of_unsupported (s : σ) {topic : Text}
    (hsupported : h.isSupported topic = false) (message : Text) (unread : List Frame)
    (rest : σ → Outcome) : dispatch h s topic message unread rest = .stopped := by
  have hraw : processRawMessage h s topic message = (s, false) :=
    if_neg (Bool.eq_false_iff.mp hsupported)
  unfold dispatch
  rw [hraw, hsupported]
  rfl

/-- A message of two frames whose topic has a handler. -/
def requestOf : List Text → Option (Text × Text)
  | [topic, payload] => if h.isSupported topic then some (topic, payload) else none
  | _ => none

/-- What is expected of the messages: one call for each that is a request, with its
own topic and payload, until a handler fails. -/
def dispatched (s : σ) : List (List Text) → Outcome
  | [] => .waiting
  | message :: messages =>
      match requestOf h message with
      | some (topic, payload) =>
          dispatch h s topic payload (inbound messages) fun s => dispatched s messages
      | none => dispatched s messages

def endsVisible (message : List Text) : Bool :=
  message.getLast?.any fun frame => !frame.isEmpty

/-- Whether the number of frames read is odd after some more frames. -/
def oddAfter (odd : Bool) (frames : List Text) : Bool :=
  frames.foldl (fun odd frame => odd ^^ !frame.isEmpty) odd

/-- The messages are in step with the pairs of frames, up to the one whose handler
fails.  `odd` says whether an odd number of frames that are not empty has come
since the last message that ended in such a frame: it has not where a request
comes, whose frames are not empty, and with any other message that ends in such a
frame it has. -/
def InStep (s : σ) (odd : Bool) : List (List Text) → Prop
  | [] => True
  | message :: messages =>
      match requestOf h message with
      | some (topic, payload) =>
          topic ≠ [] ∧ payload ≠ [] ∧ odd = false ∧
            ((processRawMessage h s topic payload).2 = true →
              InStep (processRawMessage h s topic payload).1 false messages)
      | none =>
          if endsVisible message then
            oddAfter odd message = true ∧ InStep s false messages
          else InStep s (oddAfter odd message) messages

/-! ### The loop, one frame at a time -/

/-- The loop with the topic it has read, if it is at the second frame of a pair. -/
def walk (topic : Option Text) (s : σ) : List Frame → Outcome
  | [] => .waiting
  | f :: queue =>
      if f.bytes = [] then walk topic s queue
      else match topic with
        | none => walk (if f.more then some f.bytes else none) s queue
        | some topic =>
            if f.more then walk none s queue
            else dispatch h s topic f.bytes queue fun s => walk none s queue

theorem walk_cons_of_empty (topic : Option Text) (s : σ) {f : Frame} (hf : f.bytes = [])
    (queue : List Frame) : walk h topic s (f :: queue) = walk h topic s queue := by
  cases topic with
  | none => rw [walk, if_pos hf]
  | some topic => rw [walk, if_pos hf]

theorem walk_cons (topic : Option Text) (s : σ) {f : Frame} (hf : f.bytes ≠ [])
    (queue : List Frame) :
    walk h topic s (f :: queue) =
      match topic with
      | none => walk h (if f.more then some f.bytes else none) s queue
      | some topic =>
          if f.more then walk h none s queue
          else dispatch h s topic f.bytes queue fun s => walk h none s queue := by
  cases topic with
  | none => rw [walk, if_neg hf]
  | some topic => rw [walk, if_neg hf]

theorem walk_append_of_empty (topic : Option Text) (s : σ) {skipped : List Frame}
    (hskipped : ∀ f ∈ skipped, f.bytes = []) (queue : List Frame) :
    walk h topic s (skipped ++ queue) = walk h topic s queue := by
  induction skipped with
  | nil => rfl
  | cons f skipped ih =>
      rw [List.forall_mem_cons] at hskipped
      rw [List.cons_append, walk_cons_of_empty h topic s hskipped.1]
      exact ih hskipped.2

theorem walk_of_receive_none (topic : Option Text) (s : σ) {queue : List Frame}
    (hreceive : receive queue = none) : walk h topic s queue = .waiting := by
  rw [← List.append_nil queue, walk_append_of_empty h topic s (receive_eq_none_iff.mp hreceive)]
  rfl

theorem walk_of_receive (topic : Option Text) (s : σ) {queue queue' : List Frame}
    {frame : Text} {more : Bool} (hreceive : receive queue = some ((frame, more), queue')) :
    walk h topic s queue =
      match topic with
      | none => walk h (if more then some frame else none) s queue'
      | some topic =>
          if more then walk h none s queue'
          else dispatch h s topic frame queue' fun s => walk h none s queue' := by
  obtain ⟨skipped, rfl, hskipped, hne⟩ := exists_skipped_of_receive hreceive
  rw [walk_append_of_empty h topic s hskipped]
  exact walk_cons h topic s hne queue'

theorem runWithin_eq_walk {n : Nat} {queue : List Frame} (hn : queue.length ≤ n) (s : σ) :
    runWithin h n s queue = walk h none s queue := by
  induction n using Nat.strongRecOn generalizing queue s with
  | ind n ih =>
      cases n with
      | zero =>
          obtain rfl := List.length_eq_zero_iff.mp (Nat.le_zero.mp hn)
          rfl
      | succ n =>
          rw [runWithin]
          cases hfirst : receive queue with
          | none => exact (walk_of_receive_none h none s hfirst).symm
          | some r =>
              obtain ⟨⟨topic, more⟩, queue'⟩ := r
              have hlength := length_receive hfirst
              rw [walk_of_receive h none s hfirst]
              cases more with
              | false => exact ih n (Nat.lt_succ_self n) (by omega) s
              | true =>
                  change _ = walk h (some topic) s queue'
                  dsimp only
                  cases hsecond : receive queue' with
                  | none => exact (walk_of_receive_none h _ s hsecond).symm
                  | some r =>
                      obtain ⟨⟨message, more⟩, queue''⟩ := r
                      have hlength' := length_receive hsecond
                      rw [walk_of_receive h _ s hsecond]
                      have hrest : ∀ s, runWithin h n s queue'' = walk h none s queue'' :=
                        ih n (Nat.lt_succ_self n) (by omega)
                      cases more with
                      | true => exact hrest s
                      | false => simp only [hrest, Bool.false_eq_true, if_false]

/-! ### The loop on a message -/

/-- The topic that is kept after a frame with more to follow. -/
def advance (topic : Option Text) (frame : Text) : Option Text :=
  if frame = [] then topic
  else match topic with
    | none => some frame
    | some _ => none

theorem advance_of_empty (topic : Option Text) {frame : Text} (hframe : frame = []) :
    advance topic frame = topic := by
  unfold advance
  exact if_pos hframe

theorem advance_of_ne (topic : Option Text) {frame : Text} (hframe : frame ≠ []) :
    advance topic frame = match topic with
      | none => some frame
      | some _ => none := by
  unfold advance
  exact if_neg hframe

theorem walk_multipart (topic : Option Text) (s : σ) (front : List Text) (last : Text)
    (queue : List Frame) :
    walk h topic s (multipart (front ++ [last]) ++ queue) =
      if last = [] then walk h (front.foldl advance topic) s queue
      else match front.foldl advance topic with
        | none => walk h none s queue
        | some topic => dispatch h s topic last queue fun s => walk h none s queue := by
  induction front generalizing topic with
  | nil =>
      change walk h topic s (⟨last, false⟩ :: queue) = _
      split_ifs with hlast
      · exact walk_cons_of_empty h topic s hlast queue
      · exact walk_cons h topic s hlast queue
  | cons frame front ih =>
      have hmultipart : multipart (frame :: front ++ [last]) =
          ⟨frame, true⟩ :: multipart (front ++ [last]) := by
        have hne : front ++ [last] ≠ [] :=
          List.append_ne_nil_of_right_ne_nil _ (List.cons_ne_nil _ _)
        rw [List.cons_append, multipart, List.isEmpty_eq_false_iff.mpr hne]
        rfl
      rw [hmultipart, List.foldl_cons, List.cons_append, ← ih]
      by_cases hframe : frame = []
      · rw [walk_cons_of_empty h topic s hframe, advance_of_empty topic hframe]
      · rw [walk_cons h topic s hframe, advance_of_ne topic hframe]
        cases topic with
        | none => rfl
        | some topic => rfl

theorem isSome_advance (topic : Option Text) (front : List Text) :
    (front.foldl advance topic).isSome = oddAfter topic.isSome front := by
  induction front generalizing topic with
  | nil => rfl
  | cons frame front ih =>
      rw [List.foldl_cons, ih, oddAfter, oddAfter, List.foldl_cons]
      congr 1
      by_cases hframe : frame = []
      · rw [advance_of_empty topic hframe, hframe, List.isEmpty_nil, Bool.not_true,
          Bool.xor_false]
      · rw [advance_of_ne topic hframe, List.isEmpty_eq_false_iff.mpr hframe]
        cases topic with
        | none => rfl
        | some topic => rfl

theorem oddAfter_append (odd : Bool) (front : List Text) (last : Text) :
    oddAfter odd (front ++ [last]) = (oddAfter odd front ^^ !last.isEmpty) := by
  rw [oddAfter, List.foldl_append]
  rfl

/-- The topic that is kept is never empty. -/
theorem ne_nil_of_advance {topic : Option Text} (htopic : topic ≠ some [])
    (front : List Text) : front.foldl advance topic ≠ some [] := by
  induction front generalizing topic with
  | nil => exact htopic
  | cons frame front ih =>
      rw [List.foldl_cons]
      apply ih
      by_cases hframe : frame = []
      · rw [advance_of_empty topic hframe]
        exact htopic
      · rw [advance_of_ne topic hframe]
        cases topic with
        | none => exact fun h => hframe (Option.some.inj h)
        | some topic => nofun

/-! ### The place of a call -/

/-- The calls leave less unread than `n`. -/
def Before (n : Nat) (outcome : Outcome) : Prop :=
  ∀ call ∈ outcome.calls, call.unread.length < n

theorem before_dispatch {n : Nat} (s : σ) (topic message : Text) {unread : List Frame}
    {rest : σ → Outcome} (hunread : unread.length < n) (hrest : ∀ s, Before n (rest s)) :
    Before n (dispatch h s topic message unread rest) := by
  cases hsupported : h.isSupported topic with
  | false =>
      rw [dispatch_of_unsupported h s hsupported]
      exact fun _ hcall => absurd hcall List.not_mem_nil
  | true =>
      rw [dispatch_of_supported h s hsupported]
      intro call hcall
      rcases List.mem_cons.mp hcall with rfl | hcall
      · exact hunread
      · split_ifs at hcall
        · exact hrest _ call hcall
        · exact absurd hcall List.not_mem_nil

theorem before_walk (topic : Option Text) (s : σ) (queue : List Frame) :
    Before queue.length (walk h topic s queue) := by
  have hlater : ∀ {n : Nat} {outcome : Outcome}, Before n outcome → Before (n + 1) outcome :=
    fun hbefore call hcall => (hbefore call hcall).trans (Nat.lt_succ_self _)
  induction queue generalizing topic s with
  | nil => exact fun _ hcall => absurd hcall List.not_mem_nil
  | cons f queue ih =>
      by_cases hf : f.bytes = []
      · rw [walk_cons_of_empty h topic s hf]
        exact hlater (ih topic s)
      · rw [walk_cons h topic s hf]
        cases topic with
        | none => exact hlater (ih _ s)
        | some topic =>
            dsimp only
            split_ifs
            · exact hlater (ih none s)
            · exact before_dispatch h s topic f.bytes (Nat.lt_succ_self _)
                fun s => hlater (ih none s)

theorem requestOf_eq_some_iff {message : List Text} {topic payload : Text} :
    requestOf h message = some (topic, payload) ↔
      message = [topic, payload] ∧ h.isSupported topic = true := by
  unfold requestOf
  split
  · rename_i topic' payload'
    split_ifs with hsupported
    · rw [Option.some.injEq, Prod.mk.injEq]
      constructor
      · rintro ⟨rfl, rfl⟩
        exact ⟨rfl, hsupported⟩
      · rintro ⟨heq, -⟩
        obtain ⟨htopic, hrest⟩ := List.cons.inj heq
        exact ⟨htopic, (List.cons.inj hrest).1⟩
    · refine iff_of_false nofun ?_
      rintro ⟨heq, htopic⟩
      obtain ⟨rfl, -⟩ := List.cons.inj heq
      exact hsupported htopic
  · rename_i hother
    refine iff_of_false nofun ?_
    rintro ⟨rfl, -⟩
    exact hother topic payload rfl

theorem before_dispatched (s : σ) (messages : List (List Text)) :
    Before (inbound messages).length (dispatched h s messages) := by
  induction messages generalizing s with
  | nil => exact fun _ hcall => absurd hcall List.not_mem_nil
  | cons message messages ih =>
      have hlater : ∀ s, Before (inbound (message :: messages)).length
          (dispatched h s messages) := by
        intro s call hcall
        apply (ih s call hcall).trans_le
        rw [inbound_cons, List.length_append]
        exact Nat.le_add_left _ _
      rw [dispatched]
      cases hrequest : requestOf h message with
      | none => exact hlater s
      | some request =>
          obtain ⟨topic, payload⟩ := request
          obtain ⟨rfl, -⟩ := (requestOf_eq_some_iff h).mp hrequest
          apply before_dispatch h s topic payload _ hlater
          rw [inbound_cons, List.length_append]
          exact Nat.lt_add_of_pos_left Nat.zero_lt_two

/-- The loop ends only at a call. -/
theorem dispatched_ne_stopped (s : σ) (messages : List (List Text)) :
    dispatched h s messages ≠ .stopped := by
  induction messages generalizing s with
  | nil => nofun
  | cons message messages ih =>
      rw [dispatched]
      cases hrequest : requestOf h message with
      | none => exact ih s
      | some request =>
          obtain ⟨topic, payload⟩ := request
          obtain ⟨-, hsupported⟩ := (requestOf_eq_some_iff h).mp hrequest
          dsimp only
          rw [dispatch_of_supported h s hsupported]
          nofun

/-- A call at a place is not among calls that come after it. -/
theorem cons_ne_of_before {outcome rest : Outcome} {topic message : Text}
    {queue : List Frame} (hbefore : Before queue.length outcome) :
    outcome ≠ rest.cons ⟨topic, message, queue⟩ := by
  rintro rfl
  exact absurd (hbefore _ List.mem_cons_self) (Nat.lt_irrefl _)

theorem cons_inj {call : Call} {outcome outcome' : Outcome} :
    outcome.cons call = outcome'.cons call ↔ outcome = outcome' := by
  constructor
  · intro heq
    have hcalls := (List.cons.inj (congrArg Outcome.calls heq)).2
    have hended : (outcome.cons call).ended = (outcome'.cons call).ended :=
      congrArg Outcome.ended heq
    cases outcome
    cases outcome'
    rw [Outcome.mk.injEq]
    exact ⟨hcalls, hended⟩
  · rintro rfl
    rfl

theorem endsVisible_append (front : List Text) (last : Text) :
    endsVisible (front ++ [last]) = !last.isEmpty := by
  rw [endsVisible, List.getLast?_concat]
  rfl

/-- What is expected of the messages to come never begins with a pair whose second
frame is of an earlier message. -/
theorem dispatch_ne_dispatched (s : σ) (topic message : Text) (messages : List (List Text))
    (rest : σ → Outcome) :
    dispatch h s topic message (inbound messages) rest ≠ dispatched h s messages := by
  cases hsupported : h.isSupported topic with
  | true =>
      rw [dispatch_of_supported h s hsupported]
      exact (cons_ne_of_before (before_dispatched h s messages)).symm
  | false =>
      rw [dispatch_of_unsupported h s hsupported]
      exact (dispatched_ne_stopped h s messages).symm

/-- A request without a topic is not dispatched under its own, empty, topic. -/
theorem walk_empty_id_ne {topic : Option Text} (s : σ) (payload : Text)
    (queue : List Frame) (next : Outcome) : topic ≠ some [] →
    (match topic with
      | none => walk h none s queue
      | some topic => dispatch h s topic payload queue fun s => walk h none s queue) ≠
      next.cons ⟨[], payload, queue⟩ := by
  intro htopic
  cases topic with
  | none => exact cons_ne_of_before (before_walk h none s queue)
  | some topic =>
      dsimp only
      cases hsupported : h.isSupported topic with
      | true =>
          rw [dispatch_of_supported h s hsupported]
          intro heq
          have hcall := (List.cons.inj (congrArg Outcome.calls heq)).1
          rw [(Call.mk.inj hcall).1] at htopic
          exact htopic rfl
      | false =>
          rw [dispatch_of_unsupported h s hsupported]
          nofun

/-- A request is dispatched as such exactly if both its frames are not empty and no
topic is kept when it comes. -/
theorem walk_request_iff {topic : Option Text} (htopic : topic ≠ some []) (s : σ)
    {id : Text} (hsupported : h.isSupported id = true) (payload : Text) (queue : List Frame)
    (next : σ → Outcome) :
    walk h topic s (multipart [id, payload] ++ queue) = dispatch h s id payload queue next ↔
      id ≠ [] ∧ payload ≠ [] ∧ topic.isSome = false ∧
        ((processRawMessage h s id payload).2 = true →
          walk h none (processRawMessage h s id payload).1 queue =
            next (processRawMessage h s id payload).1) := by
  rw [dispatch_of_supported h s hsupported]
  have hwalk := walk_multipart h topic s [id] payload queue
  change walk h topic s (multipart [id, payload] ++ queue) = _ at hwalk
  rw [hwalk, List.foldl_cons, List.foldl_nil]
  by_cases hpayload : payload = []
  · rw [if_pos hpayload]
    exact iff_of_false (cons_ne_of_before (before_walk h _ s _)) fun hall => hall.2.1 hpayload
  rw [if_neg hpayload]
  by_cases hid : id = []
  · rw [advance_of_empty topic hid, hid]
    exact iff_of_false (walk_empty_id_ne h s payload queue _ htopic) fun hall => hall.1 rfl
  rw [advance_of_ne topic hid]
  cases topic with
  | some topic =>
      refine iff_of_false ?_ fun hall => absurd hall.2.2.1 nofun
      exact cons_ne_of_before (before_walk h none s _)
  | none =>
      dsimp only
      rw [dispatch_of_supported h s hsupported, cons_inj]
      split_ifs with hrun
      · constructor
        · exact fun heq => ⟨hid, hpayload, rfl, fun _ => heq⟩
        · exact fun hall => hall.2.2.2 hrun
      · exact iff_of_true rfl ⟨hid, hpayload, rfl, fun h => absurd h hrun⟩

/-- From a topic that is kept, the loop does what is expected of the messages if
and only if they are in step. -/
theorem walk_eq_dispatched_iff {topic : Option Text} (htopic : topic ≠ some []) (s : σ)
    (messages : List (List Text)) :
    walk h topic s (inbound messages) = dispatched h s messages ↔
      InStep h s topic.isSome messages := by
  have hnone : (none : Option Text) ≠ some [] := nofun
  induction messages generalizing topic s with
  | nil => exact iff_of_true rfl trivial
  | cons message messages ih =>
      rw [inbound_cons, dispatched, InStep]
      cases hrequest : requestOf h message with
      | some request =>
          obtain ⟨id, payload⟩ := request
          obtain ⟨rfl, hsupported⟩ := (requestOf_eq_some_iff h).mp hrequest
          dsimp only
          refine (walk_request_iff h htopic s hsupported payload _ _).trans ?_
          simp only [ih hnone, Option.isSome_none]
      | none =>
          dsimp only
          rcases List.eq_nil_or_concat message with rfl | ⟨front, last, rfl⟩
          · exact ih htopic s
          · rw [List.concat_eq_append, walk_multipart, endsVisible_append, oddAfter_append,
              ← isSome_advance]
            have hkept := ne_nil_of_advance htopic front
            by_cases hlast : last = []
            · rw [if_pos hlast, hlast, List.isEmpty_nil, Bool.not_true, Bool.xor_false]
              exact ih hkept s
            · rw [if_neg hlast, List.isEmpty_eq_false_iff.mpr hlast, Bool.not_false,
                if_pos rfl, Bool.xor_true]
              cases hadvance : front.foldl advance topic with
              | none => exact (ih hnone s).trans (and_iff_right rfl).symm
              | some topic' =>
                  refine iff_of_false ?_ fun hstep => absurd hstep.1 nofun
                  exact dispatch_ne_dispatched h s topic' last messages _

/-- For every stream of messages, the loop makes the expected calls, and ends where
one of them fails and nowhere else, if and only if the messages are in step with
the pairs of frames. -/
theorem run_eq_dispatched_iff (h : HandlersMap σ) (s : σ) (messages : List (List Text)) :
    run h s (inbound messages) = dispatched h s messages ↔ InStep h s false messages := by
  rw [run, runWithin_eq_walk h le_rfl]
  have hnone : (none : Option Text) ≠ some [] := nofun
  exact walk_eq_dispatched_iff h hnone s messages

/-- A topic that a subscription lets through as a longer one of its key has no
handler, and ends the loop. -/
theorem not_dispatched_longer_topic :
    run ⟨fun id => id = "AAPL".toList, fun _ _ _ => ((), some true)⟩ ()
        (inbound [["AAPL.STK".toList, "a".toList], ["AAPL".toList, "b".toList]]) ≠
      dispatched ⟨fun id => id = "AAPL".toList, fun _ _ _ => ((), some true)⟩ ()
        [["AAPL.STK".toList, "a".toList], ["AAPL".toList, "b".toList]] := by
  intro heq
  exact absurd (congrArg Outcome.ended heq) (by decide)

end Atp.MessageProcessor

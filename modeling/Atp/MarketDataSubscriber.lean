import Atp.Protos
import Atp.Runs

/-!
The event loop of a market data subscriber, with receive calls that may throw.
An exception is logged and the turn goes on, so that a turn without a topic reads
the topic of the next message as its payload.
-/

namespace Atp.MarketDataSubscriber

/-- A frame, with the message it is of and its position in it, which the loop does
not see. -/
structure Part where
  bytes : Text
  more : Bool
  message : Nat
  position : Nat

/-- The parsers of the protobuf library.  Both messages have required fields. -/
structure Parsers where
  parseMarketDepth : Text → Option MarketDepth
  parseMarketData : Text → Option MarketData
  parseMarketDepth_nil : parseMarketDepth [] = none
  parseMarketData_nil : parseMarketData [] = none

/-- `atp::zmq::receive`: the next part that is not empty. -/
def receive : List Part → Option (Part × List Part)
  | [] => none
  | p :: unread => if p.bytes.length > 0 then some (p, unread) else receive unread

/-- A receive call in a `try` block, if more frames follow.  The frame stays empty
if the call throws. -/
def tryReceive (more throws : Bool) (unread : List Part) :
    Option (Option Part × List Part) :=
  if more && !throws then (receive unread).map fun (p, unread) => (some p, unread)
  else some (none, unread)

def bytesOf (frame : Option Part) : Text := (frame.map Part.bytes).getD []

/-- The value of `more` after a receive call. -/
def moreAfter (more : Bool) (frame : Option Part) : Bool := (frame.map Part.more).getD more

def isDepth (topic : Text) : Bool := "depth".toList.isPrefixOf topic

def isAdmin (topic : Text) : Bool := "admin:".toList.isPrefixOf topic

/-- What a turn reads, and whether it calls `process` or `handleAdminMessage`. -/
structure Turn where
  frame1 : Option Part
  frame2 : Option Part
  frame3 : Option Part
  processed : Bool

/-- Which receive calls of a turn throw, and what the handler of the message
returns. -/
structure Action where
  firstThrows : Bool
  secondThrows : Bool
  thirdThrows : Bool
  continueProcess : Bool

variable (parsers : Parsers)

/-- A turn of the loop; nothing if a receive call blocks. -/
def turn (a : Action) (unread : List Part) : Option (Turn × List Part) := do
  let (frame1, unread) ← tryReceive true a.firstThrows unread
  let more := moreAfter true frame1
  if isDepth (bytesOf frame1) then
    let (frame2, unread) ← tryReceive more a.secondThrows unread
    some (⟨frame1, frame2, none, (parsers.parseMarketDepth (bytesOf frame2)).isSome⟩, unread)
  else if isAdmin (bytesOf frame1) then
    let (frame2, unread) ← tryReceive more a.secondThrows unread
    let more := moreAfter more frame2
    let (frame3, unread) ← tryReceive more a.thirdThrows unread
    some (⟨frame1, frame2, frame3, true⟩, unread)
  else
    let (frame2, unread) ← tryReceive more a.secondThrows unread
    some (⟨frame1, frame2, none, (parsers.parseMarketData (bytesOf frame2)).isSome⟩, unread)

/-- The loop, and the turns it has made. -/
structure State where
  unread : List Part
  turns : List Turn := []
  stopped : Bool := false

def step (s : State) (a : Action) : Option State :=
  if s.stopped then none
  else (turn parsers a s.unread).map fun (t, unread) =>
    { unread := unread, turns := s.turns ++ [t],
      stopped := t.processed && !a.continueProcess }

/-! ### The messages -/

/-- A data message has a topic and a payload, an admin message a topic, a verb and
data, which may be empty. -/
def WellFormed (message : List Text) : Prop :=
  (∃ topic payload, message = [topic, payload] ∧ topic ≠ [] ∧ payload ≠ [] ∧
      isAdmin topic = false) ∨
    ∃ topic verb data, message = [topic, verb, data] ∧ isAdmin topic = true ∧ verb ≠ []

def messageParts (n : Nat) (message : List Text) : List Part :=
  message.zipIdx.map fun (bytes, i) => ⟨bytes, decide (i + 1 < message.length), n, i⟩

/-- The parts of the messages, which are numbered from `n` on. -/
def inbound : Nat → List (List Text) → List Part
  | _, [] => []
  | n, message :: messages => messageParts n message ++ inbound (n + 1) messages

namespace Turn

def payload (t : Turn) : List Part := t.frame2.toList ++ t.frame3.toList

/-- The turn hands a frame or a message on. -/
def Uses (t : Turn) : Prop := t.processed = true ∨ t.payload ≠ []

/-- What a turn uses is of the message whose first frame is its topic. -/
def Own (t : Turn) : Prop :=
  t.Uses → ∃ topic, t.frame1 = some topic ∧ topic.position = 0 ∧
    ∀ p ∈ t.payload, p.message = topic.message

instance (t : Turn) : Decidable t.Uses := inferInstanceAs (Decidable (_ ∨ _))

/-- The message that a turn uses. -/
def message (t : Turn) : Option Nat := if t.Uses then t.frame1.map Part.message else none

end Turn

/-- Every turn uses its own frames, and no message is used twice. -/
def Separate (s : State) : Prop :=
  (∀ t ∈ s.turns, t.Own) ∧ (s.turns.filterMap Turn.message).Nodup

/-- If the first call throws, the second one does; a frame in the place of the
topic that is not one has no admin prefix, and nothing is read after it; and an
admin message of which two frames are read after the topic has two that are not
empty. -/
def InSync (s : State) (a : Action) : Prop :=
  if a.firstThrows then a.secondThrows = true
  else ∀ p unread, receive s.unread = some (p, unread) →
    if p.position = 0 then
      isAdmin p.bytes = true → a.secondThrows = false → a.thirdThrows = false →
        2 ≤ (unread.filter fun q => q.bytes ≠ [] ∧ q.message = p.message).length
    else isAdmin p.bytes = false ∧ (p.more = true → a.secondThrows = true)

/-! ### What a turn reads -/

/-- The parts that a receive call can return. -/
def visible (unread : List Part) : List Part := unread.filter fun p => p.bytes ≠ []

theorem visible_append (unread unread' : List Part) :
    visible (unread ++ unread') = visible unread ++ visible unread' :=
  List.filter_append _ _

theorem receive_eq (unread : List Part) :
    (receive unread).map (fun r => r.1 :: visible r.2) =
      if visible unread = [] then none else some (visible unread) := by
  induction unread with
  | nil => rfl
  | cons p unread ih =>
      rw [receive]
      by_cases hp : p.bytes = []
      · rw [if_neg (by simp [hp]), ih]
        simp [visible, hp]
      · rw [if_pos (List.length_pos_iff.mpr hp)]
        simp [visible, hp]

theorem visible_of_receive {unread rest : List Part} {p : Part}
    (hreceive : receive unread = some (p, rest)) : visible unread = p :: visible rest := by
  have heq := receive_eq unread
  rw [hreceive, Option.map_some] at heq
  split_ifs at heq
  exact (Option.some.inj heq).symm

theorem exists_receive {unread left : List Part} {p : Part}
    (hvisible : visible unread = p :: left) :
    ∃ rest, receive unread = some (p, rest) ∧ visible rest = left := by
  have heq := receive_eq unread
  rw [hvisible, if_neg (List.cons_ne_nil _ _), Option.map_eq_some_iff] at heq
  obtain ⟨⟨q, rest⟩, hreceive, hcons⟩ := heq
  obtain ⟨rfl, hrest⟩ := List.cons.inj hcons
  exact ⟨rest, hreceive, hrest⟩

theorem tryReceive_cases {more throws : Bool} {unread rest : List Part}
    {frame : Option Part} (hread : tryReceive more throws unread = some (frame, rest)) :
    visible unread = frame.toList ++ visible rest ∧ frame.isSome = (more && !throws) := by
  rw [tryReceive] at hread
  split_ifs at hread with hreads
  · obtain ⟨⟨p, unread'⟩, hreceive, heq⟩ := Option.map_eq_some_iff.mp hread
    obtain ⟨rfl, rfl⟩ := Prod.mk.inj heq
    exact ⟨visible_of_receive hreceive, hreads.symm⟩
  · obtain ⟨rfl, rfl⟩ := Prod.mk.inj (Option.some.inj hread)
    exact ⟨rfl, (eq_false_of_ne_true hreads).symm⟩

/-- Which frames a turn reads, and what it does with them. -/
structure Reads (a : Action) (unread : List Part) (t : Turn) (rest : List Part) : Prop where
  visible_eq : visible unread = t.frame1.toList ++ t.payload ++ visible rest
  first : t.frame1.isSome = !a.firstThrows
  second : t.frame2.isSome = (moreAfter true t.frame1 && !a.secondThrows)
  third : t.frame3.isSome = (isAdmin (bytesOf t.frame1) &&
    (moreAfter (moreAfter true t.frame1) t.frame2 && !a.thirdThrows))
  admin : isAdmin (bytesOf t.frame1) = true → t.processed = true
  data : isAdmin (bytesOf t.frame1) = false → t.frame2 = none → t.processed = false

theorem isAdmin_of_isDepth {topic : Text} (hdepth : isDepth topic = true) :
    isAdmin topic = false := by
  obtain ⟨rest, rfl⟩ := List.isPrefixOf_iff_prefix.mp hdepth
  rfl

theorem reads_of_turn {a : Action} {unread rest : List Part} {t : Turn}
    (hturn : turn parsers a unread = some (t, rest)) : Reads a unread t rest := by
  obtain ⟨⟨frame1, unread1⟩, hread1, hturn⟩ := Option.bind_eq_some_iff.mp hturn
  obtain ⟨hvisible1, hfirst⟩ := tryReceive_cases hread1
  dsimp only at hturn
  split_ifs at hturn with hdepth hadmin
  · obtain ⟨⟨frame2, unread2⟩, hread2, hturn⟩ := Option.bind_eq_some_iff.mp hturn
    obtain ⟨hvisible2, hsecond⟩ := tryReceive_cases hread2
    obtain ⟨rfl, rfl⟩ := Prod.mk.inj (Option.some.inj hturn)
    have hnot := isAdmin_of_isDepth hdepth
    refine ⟨?_, hfirst, hsecond, ?_, ?_, ?_⟩
    · simp [hvisible1, hvisible2, Turn.payload]
    · simp [hnot]
    · simp [hnot]
    · rintro - rfl
      simp [bytesOf, parsers.parseMarketDepth_nil]
  · obtain ⟨⟨frame2, unread2⟩, hread2, hturn⟩ := Option.bind_eq_some_iff.mp hturn
    obtain ⟨hvisible2, hsecond⟩ := tryReceive_cases hread2
    obtain ⟨⟨frame3, unread3⟩, hread3, hturn⟩ := Option.bind_eq_some_iff.mp hturn
    obtain ⟨hvisible3, hthird⟩ := tryReceive_cases hread3
    obtain ⟨rfl, rfl⟩ := Prod.mk.inj (Option.some.inj hturn)
    refine ⟨?_, hfirst, hsecond, ?_, fun _ => rfl, fun hnot => ?_⟩
    · simp [hvisible1, hvisible2, hvisible3, Turn.payload]
    · simp [hadmin, hthird]
    · exact absurd (hadmin.symm.trans hnot) Bool.noConfusion
  · obtain ⟨⟨frame2, unread2⟩, hread2, hturn⟩ := Option.bind_eq_some_iff.mp hturn
    obtain ⟨hvisible2, hsecond⟩ := tryReceive_cases hread2
    obtain ⟨rfl, rfl⟩ := Prod.mk.inj (Option.some.inj hturn)
    refine ⟨?_, hfirst, hsecond, ?_, fun h => absurd h hadmin, ?_⟩
    · simp [hvisible1, hvisible2, Turn.payload]
    · simp [hadmin]
    · rintro - rfl
      simp [bytesOf, parsers.parseMarketData_nil]

/-- A turn that reads no frame after a topic that is not an admin one hands nothing
on. -/
theorem uses_iff_of_reads {a : Action} {unread rest : List Part} {t : Turn}
    (hreads : Reads a unread t rest) :
    t.Uses ↔ isAdmin (bytesOf t.frame1) = true ∨ t.payload ≠ [] := by
  constructor
  · rintro (hprocessed | hpayload)
    · by_cases hadmin : isAdmin (bytesOf t.frame1) = true
      · exact .inl hadmin
      · refine .inr fun hpayload => ?_
        have hframe2 : t.frame2 = none := by
          cases hframe : t.frame2 with
          | none => rfl
          | some p => simp [Turn.payload, hframe] at hpayload
        rw [hreads.data (eq_false_of_ne_true hadmin) hframe2] at hprocessed
        cases hprocessed
    · exact .inr hpayload
  · exact Or.imp_left hreads.admin

theorem length_payload (t : Turn) :
    t.payload.length = t.frame2.isSome.toNat + t.frame3.isSome.toNat := by
  rw [Turn.payload, List.length_append]
  cases t.frame2 <;> cases t.frame3 <;> rfl

/-- Without the admin prefix at most one frame is read after the topic. -/
theorem length_payload_of_data {a : Action} {unread rest : List Part} {t : Turn}
    (hreads : Reads a unread t rest) (hdata : isAdmin (bytesOf t.frame1) = false) :
    t.payload.length = (moreAfter true t.frame1 && !a.secondThrows).toNat := by
  rw [length_payload, hreads.second, hreads.third, hdata, Bool.false_and, Bool.toNat_false,
    Nat.add_zero]

theorem uses_iff_of_data {a : Action} {unread rest : List Part} {t : Turn}
    (hreads : Reads a unread t rest) (hdata : isAdmin (bytesOf t.frame1) = false) :
    t.Uses ↔ moreAfter true t.frame1 = true ∧ a.secondThrows = false := by
  rw [uses_iff_of_reads hreads, hdata, or_iff_right Bool.false_ne_true, ne_eq,
    ← List.length_eq_zero_iff, length_payload_of_data hreads hdata, Bool.toNat_eq_zero,
    Bool.not_eq_false, Bool.and_eq_true, Bool.not_eq_true']

/-! ### The parts of a message -/

/-- The parts of a message that a receive call can return: its topic and the others. -/
structure Opens (n : Nat) (topic : Part) (others : List Part) : Prop where
  position : topic.position = 0
  message : topic.message = n
  more : topic.more = true
  own : ∀ q ∈ others, q.message = n ∧ q.position ≠ 0
  ne_nil : others ≠ []
  verb : isAdmin topic.bytes = true → ∀ q ∈ others.head?, q.more = true

theorem opens_of_wellFormed {message : List Text} (hmessage : WellFormed message) (n : Nat) :
    ∃ topic others, visible (messageParts n message) = topic :: others ∧
      Opens n topic others := by
  rcases hmessage with ⟨topic, payload, rfl, htopic, hpayload, hdata⟩ |
    ⟨topic, verb, data, rfl, hadmin, hverb⟩
  · refine ⟨⟨topic, true, n, 0⟩, [⟨payload, false, n, 1⟩], ?_, rfl, rfl, rfl, ?_, ?_, ?_⟩
    · simp [messageParts, visible, htopic, hpayload]
    · simp
    · simp
    · exact fun hadmin => absurd (hadmin.symm.trans hdata) Bool.noConfusion
  · have htopic : topic ≠ [] := by
      rintro rfl
      cases hadmin
    refine ⟨⟨topic, true, n, 0⟩, ⟨verb, true, n, 1⟩ :: visible [⟨data, false, n, 2⟩],
      ?_, rfl, rfl, rfl, ?_, List.cons_ne_nil _ _, ?_⟩
    · simp [messageParts, visible, htopic, hverb]
    · intro q hq
      rcases List.mem_cons.mp hq with rfl | hq
      · simp
      · obtain rfl := List.mem_singleton.mp (List.mem_of_mem_filter hq)
        simp
    · simp

theorem le_message_of_mem {n : Nat} {messages : List (List Text)} {p : Part}
    (hp : p ∈ visible (inbound n messages)) : n ≤ p.message := by
  replace hp := List.mem_of_mem_filter hp
  induction messages generalizing n with
  | nil => cases hp
  | cons message messages ih =>
      rcases List.mem_append.mp hp with hp | hp
      · obtain ⟨x, -, rfl⟩ := List.mem_map.mp hp
        exact Nat.le_refl n
      · exact (Nat.le_succ n).trans (ih hp)

theorem length_filter_own {n : Nat} {unread others : List Part}
    {messages : List (List Text)}
    (hvisible : visible unread = others ++ visible (inbound (n + 1) messages))
    (hothers : ∀ q ∈ others, q.message = n ∧ q.position ≠ 0) :
    (unread.filter fun q => q.bytes ≠ [] ∧ q.message = n).length = others.length := by
  have hfilter : (unread.filter fun q => q.bytes ≠ [] ∧ q.message = n) =
      (visible unread).filter fun q => q.message = n := by
    simp [visible, List.filter_filter, and_comm]
  have hlater : ((visible (inbound (n + 1) messages)).filter fun q => q.message = n) = [] := by
    refine List.filter_eq_nil_iff.mpr fun q hq => ?_
    have hle := le_message_of_mem hq
    simp only [decide_eq_true_eq]
    omega
  rw [hfilter, hvisible, List.filter_append, hlater, List.append_nil,
    List.filter_eq_self.mpr fun q hq => decide_eq_true (hothers q hq).1]

/-- After a topic, at most the other frames of its message are read. -/
theorem length_payload_le_iff {a : Action} {unread rest others tail : List Part} {t : Turn}
    {topic : Part} {n : Nat} (hreads : Reads a unread t rest) (htopic : t.frame1 = some topic)
    (hopens : Opens n topic others) (hsplit : t.payload ++ visible rest = others ++ tail) :
    t.payload.length ≤ others.length ↔
      (isAdmin topic.bytes = true → a.secondThrows = false → a.thirdThrows = false →
        2 ≤ others.length) := by
  have hpos := List.length_pos_iff.mpr hopens.ne_nil
  have hmore : moreAfter true t.frame1 = true := by rw [htopic]; exact hopens.more
  by_cases hadmin : isAdmin topic.bytes = true
  · have hmore2 : moreAfter true t.frame2 = true := by
      cases hframe2 : t.frame2 with
      | none => rfl
      | some q =>
          obtain ⟨o, others, rfl⟩ := List.exists_cons_of_ne_nil hopens.ne_nil
          rw [Turn.payload, hframe2] at hsplit
          obtain ⟨rfl, -⟩ := List.cons.inj hsplit
          exact hopens.verb hadmin q rfl
    have hlength : t.payload.length = (!a.secondThrows).toNat + (!a.thirdThrows).toNat := by
      rw [length_payload, hreads.second, hreads.third, hmore, hmore2, htopic]
      simp [bytesOf, hadmin]
    rw [hlength]
    cases a.secondThrows <;> cases a.thirdThrows <;> simp [hadmin] <;> omega
  · have hdata : isAdmin (bytesOf t.frame1) = false := by
      rw [htopic]
      exact eq_false_of_ne_true hadmin
    have hle : t.payload.length ≤ 1 := by
      rw [length_payload_of_data hreads hdata]
      exact Bool.toNat_le _
    exact iff_of_true (hle.trans hpos) fun h => absurd h hadmin

/-! ### The invariant -/

/-- What can still be received are left-over frames that are not topics, and then
whole messages. -/
def Pending (next : Nat) (unread : List Part) : Prop :=
  ∃ left messages, visible unread = left ++ visible (inbound next messages) ∧
    (∀ p ∈ left, p.position ≠ 0) ∧ ∀ message ∈ messages, WellFormed message

/-- The message of the turn, if it uses one, has a number from `n` up to `n'`. -/
def Turn.Between (t : Turn) (n n' : Nat) : Prop := ∀ k ∈ t.message, n ≤ k ∧ k < n'

theorem Turn.between_of_not_uses {t : Turn} (huses : ¬ t.Uses) (n n' : Nat) :
    t.Between n n' := by
  intro k hk
  rw [Turn.message, if_neg huses] at hk
  cases hk

theorem Turn.between_of_frame1 {t : Turn} {topic : Part} (hframe1 : t.frame1 = some topic) :
    t.Between topic.message (topic.message + 1) := by
  intro k hk
  rw [Turn.message, hframe1] at hk
  split_ifs at hk with huses
  · obtain rfl := Option.some.inj hk
    exact ⟨Nat.le_refl _, Nat.lt_succ_self _⟩
  · cases hk

/-- A turn whose first frame is not a topic must not use anything. -/
theorem Turn.own_iff_not_uses {t : Turn} (hfirst : ∀ topic ∈ t.frame1, topic.position ≠ 0) :
    t.Own ↔ ¬ t.Uses := by
  constructor
  · intro hown huses
    obtain ⟨topic, htopic, hposition, -⟩ := hown huses
    exact hfirst topic htopic hposition
  · exact fun hnot huses => absurd huses hnot

section

variable {s : State} {a : Action} {rest : List Part} {t : Turn} {next : Nat}

theorem own_of_no_topic (hfirst : ∀ topic ∈ t.frame1, topic.position ≠ 0)
    (hsync : InSync s a ↔ ¬ t.Uses) (hpending : t.payload = [] → Pending next rest) :
    (InSync s a ↔ t.Own) ∧
      (t.Own → ∃ next', next ≤ next' ∧ Pending next' rest ∧ t.Between next next') := by
  have hown := Turn.own_iff_not_uses hfirst
  refine ⟨hsync.trans hown.symm, fun h => ?_⟩
  have hpayload : t.payload = [] := not_not.mp fun hne => hown.mp h (.inr hne)
  exact ⟨next, Nat.le_refl _, hpending hpayload, Turn.between_of_not_uses (hown.mp h) _ _⟩

variable (hreads : Reads a s.unread t rest)

include hreads

theorem inSync_iff_of_first_throws (hthrows : a.firstThrows = true) :
    InSync s a ↔ ¬ t.Uses := by
  have hframe1 : t.frame1 = none := by
    have hfirst := hreads.first
    rw [hthrows] at hfirst
    exact Option.isNone_iff_eq_none.mp (Option.isSome_eq_false_iff.mp hfirst)
  rw [uses_iff_of_data hreads (by rw [hframe1]; rfl), hframe1, InSync, if_pos hthrows]
  simp [moreAfter]

theorem inSync_iff_of_left {p : Part} {left : List Part} (hthrows : a.firstThrows = false)
    (hframe1 : t.frame1 = some p) (hvisible : visible s.unread = p :: left)
    (hposition : p.position ≠ 0) : InSync s a ↔ ¬ t.Uses := by
  obtain ⟨unread, hreceive, -⟩ := exists_receive hvisible
  have hiff : InSync s a ↔
      isAdmin p.bytes = false ∧ (p.more = true → a.secondThrows = true) := by
    simp [InSync, hthrows, hreceive, hposition]
  rw [hiff]
  by_cases hadmin : isAdmin p.bytes = true
  · have huses : t.Uses := (uses_iff_of_reads hreads).mpr (.inl (by rw [hframe1]; exact hadmin))
    simp [hadmin, huses]
  · have hdata : isAdmin (bytesOf t.frame1) = false := by
      rw [hframe1]
      exact eq_false_of_ne_true hadmin
    rw [uses_iff_of_data hreads hdata, hframe1]
    simp [hadmin, moreAfter]

theorem inSync_iff_of_topic {topic : Part} {others left : List Part}
    {messages : List (List Text)} (hthrows : a.firstThrows = false)
    (hframe1 : t.frame1 = some topic) (hopens : Opens next topic others)
    (hvisible : visible s.unread = topic :: left)
    (hleft : left = others ++ visible (inbound (next + 1) messages)) :
    InSync s a ↔ t.payload.length ≤ others.length := by
  obtain ⟨unread, hreceive, hunread⟩ := exists_receive hvisible
  have hsplit : t.payload ++ visible rest = others ++ visible (inbound (next + 1) messages) := by
    have heq := hreads.visible_eq
    rw [hvisible, hframe1, hleft] at heq
    exact (List.cons.inj heq).2.symm
  rw [length_payload_le_iff hreads hframe1 hopens hsplit]
  rw [InSync, if_neg (by rw [hthrows]; exact Bool.false_ne_true), hreceive,
    ← length_filter_own (hunread.trans hleft) hopens.own]
  constructor
  · intro hall
    have htopic := hall topic unread rfl
    rwa [if_pos hopens.position, hopens.message] at htopic
  · rintro htopic p unread' heq
    obtain ⟨rfl, rfl⟩ := Prod.mk.inj (Option.some.inj heq)
    rwa [if_pos hopens.position, hopens.message]

/-- The frames read after a topic are of its message exactly if they are not more
than the message has. -/
theorem own_iff_of_topic {topic : Part} {others : List Part} {messages : List (List Text)}
    (hframe1 : t.frame1 = some topic) (hopens : Opens next topic others)
    (hvisible : visible s.unread =
      topic :: (others ++ visible (inbound (next + 1) messages))) :
    (t.Own ↔ t.payload.length ≤ others.length) ∧
      (t.Own → ∃ left, visible rest = left ++ visible (inbound (next + 1) messages) ∧
        ∀ p ∈ left, p.position ≠ 0) := by
  have hsplit : others ++ visible (inbound (next + 1) messages) = t.payload ++ visible rest := by
    have heq := hreads.visible_eq
    rw [hvisible, hframe1] at heq
    exact (List.cons.inj heq).2
  have hfew : ∀ left, others = t.payload ++ left →
      visible rest = left ++ visible (inbound (next + 1) messages) →
      (t.Own ↔ t.payload.length ≤ others.length) ∧
        (t.Own → ∃ left, visible rest = left ++ visible (inbound (next + 1) messages) ∧
          ∀ p ∈ left, p.position ≠ 0) := by
    intro left hothers hrest
    have hmem : ∀ p, p ∈ t.payload ∨ p ∈ left → p ∈ others := fun p hp => by
      rw [hothers]
      exact List.mem_append.mpr hp
    refine ⟨iff_of_true (fun _ => ⟨topic, hframe1, hopens.position, fun p hp => ?_⟩) ?_,
      fun _ => ⟨left, hrest, fun p hp => (hopens.own p (hmem p (.inr hp))).2⟩⟩
    · rw [hopens.message]
      exact (hopens.own p (hmem p (.inl hp))).1
    · rw [hothers, List.length_append]
      exact Nat.le_add_right _ _
  rcases List.append_eq_append_iff.mp hsplit with ⟨extra, hpayload, htail⟩ |
    ⟨left, hothers, hrest⟩
  · rcases extra with _ | ⟨p, extra⟩
    · rw [List.append_nil] at hpayload
      exact hfew [] (by rw [List.append_nil, hpayload]) htail.symm
    · have hnot : ¬ t.Own := by
        intro hown
        have hp : p ∈ t.payload := by
          rw [hpayload]
          exact List.mem_append_right _ List.mem_cons_self
        obtain ⟨topic', htopic', -, hmessage⟩ := hown (.inr (List.ne_nil_of_mem hp))
        obtain rfl := Option.some.inj (hframe1.symm.trans htopic')
        have hle : next + 1 ≤ p.message :=
          le_message_of_mem (by rw [htail]; exact List.mem_cons_self)
        rw [hmessage p hp, hopens.message] at hle
        exact Nat.not_succ_le_self _ hle
      refine ⟨iff_of_false hnot ?_, fun hown => absurd hown hnot⟩
      rw [hpayload, List.length_append, List.length_cons]
      omega
  · exact hfew left hothers hrest

/-- A turn is in step exactly if what it uses is its own, and then what is pending
are again left-over frames and whole messages. -/
theorem own_of_reads (hpending : Pending next s.unread) :
    (InSync s a ↔ t.Own) ∧
      (t.Own → ∃ next', next ≤ next' ∧ Pending next' rest ∧ t.Between next next') := by
  obtain ⟨left, messages, hvisible, hleft, hmessages⟩ := hpending
  have heq := hreads.visible_eq
  rw [hvisible] at heq
  cases hthrows : a.firstThrows with
  | true =>
      have hframe1 := hreads.first
      rw [hthrows, Bool.not_true, Option.isSome_eq_false_iff, Option.isNone_iff_eq_none]
        at hframe1
      apply own_of_no_topic (by simp [hframe1]) (inSync_iff_of_first_throws hreads hthrows)
      intro hpayload
      rw [hframe1, hpayload] at heq
      exact ⟨left, messages, heq.symm, hleft, hmessages⟩
  | false =>
      have hsome := hreads.first
      rw [hthrows, Bool.not_false, Option.isSome_iff_exists] at hsome
      obtain ⟨p, hframe1⟩ := hsome
      rw [hframe1] at heq
      rcases left with _ | ⟨q, left⟩
      · rcases messages with _ | ⟨message, messages⟩
        · cases heq
        · obtain ⟨hmessage, hmessages⟩ := List.forall_mem_cons.mp hmessages
          obtain ⟨topic, others, hparts, hopens⟩ := opens_of_wellFormed hmessage next
          rw [List.nil_append, inbound, visible_append, hparts] at heq hvisible
          obtain ⟨rfl, -⟩ := List.cons.inj heq
          obtain ⟨hiff, hrest⟩ := own_iff_of_topic hreads hframe1 hopens hvisible
          refine ⟨(inSync_iff_of_topic hreads hthrows hframe1 hopens hvisible rfl).trans
            hiff.symm, fun hown => ⟨next + 1, Nat.le_succ _, ?_, ?_⟩⟩
          · obtain ⟨left, hrest, hleft⟩ := hrest hown
            exact ⟨left, messages, hrest, hleft, hmessages⟩
          · rw [← hopens.message]
            exact Turn.between_of_frame1 hframe1
      · obtain ⟨rfl, htail⟩ := List.cons.inj heq
        obtain ⟨hposition, hleft⟩ := List.forall_mem_cons.mp hleft
        apply own_of_no_topic (by simpa [hframe1] using hposition)
          (inSync_iff_of_left hreads hthrows hframe1 hvisible hposition)
        intro hpayload
        rw [hpayload] at htail
        exact ⟨left, messages, htail.symm, hleft, hmessages⟩

end

structure Inv (s : State) : Prop where
  separate : Separate s
  pending : ∃ next, Pending next s.unread ∧ ∀ t ∈ s.turns, t.Between 0 next

/-- The loop before its first turn. -/
def start (messages : List (List Text)) : State := { unread := inbound 0 messages }

theorem inv_start {messages : List (List Text)}
    (hmessages : ∀ message ∈ messages, WellFormed message) : Inv (start messages) where
  separate := ⟨List.forall_mem_nil _, List.nodup_nil⟩
  pending := ⟨0, ⟨[], messages, rfl, List.forall_mem_nil _, hmessages⟩, List.forall_mem_nil _⟩

theorem step_cases {s s' : State} {a : Action} (hstep : step parsers s a = some s') :
    ∃ t, Reads a s.unread t s'.unread ∧ s'.turns = s.turns ++ [t] := by
  rw [step] at hstep
  split_ifs at hstep
  obtain ⟨⟨t, unread⟩, hturn, rfl⟩ := Option.map_eq_some_iff.mp hstep
  exact ⟨t, reads_of_turn parsers hturn, rfl⟩

theorem inv_of_step {s s' : State} {a : Action} (hs : Inv s)
    (hstep : step parsers s a = some s') (hsync : InSync s a) : Inv s' := by
  obtain ⟨t, hreads, hturns⟩ := step_cases parsers hstep
  obtain ⟨next, hpending, hbefore⟩ := hs.pending
  obtain ⟨hiff, hrest⟩ := own_of_reads hreads hpending
  have hown := hiff.mp hsync
  obtain ⟨next', hle, hpending', hbetween⟩ := hrest hown
  refine ⟨⟨?_, ?_⟩, next', hpending', ?_⟩
  · rw [hturns, List.forall_mem_append, List.forall_mem_singleton]
    exact ⟨hs.separate.1, hown⟩
  · rw [hturns, List.filterMap_append, List.nodup_append]
    refine ⟨hs.separate.2, ?_, ?_⟩
    · cases hmessage : t.message with
      | none => simp [hmessage]
      | some k => simp [hmessage]
    · intro k hk k' hk'
      obtain ⟨old, hold, hkey⟩ := List.mem_filterMap.mp hk
      obtain ⟨new, hnew, hkey'⟩ := List.mem_filterMap.mp hk'
      obtain rfl := List.mem_singleton.mp hnew
      have hlt := (hbefore old hold k hkey).2
      have hge := (hbetween k' hkey').1
      omega
  · rw [hturns, List.forall_mem_append, List.forall_mem_singleton]
    refine ⟨fun old hold k hk => ?_, fun k hk => ?_⟩
    · exact ⟨Nat.zero_le _, (hbefore old hold k hk).2.trans_le hle⟩
    · exact ⟨Nat.zero_le _, (hbetween k hk).2⟩

theorem not_separate_of_step {s s' : State} {a : Action} (hs : Inv s)
    (hstep : step parsers s a = some s') (hsync : ¬ InSync s a) : ¬ Separate s' := by
  obtain ⟨t, hreads, hturns⟩ := step_cases parsers hstep
  obtain ⟨next, hpending, -⟩ := hs.pending
  obtain ⟨hiff, -⟩ := own_of_reads hreads hpending
  rintro ⟨hown, -⟩
  rw [hturns, List.forall_mem_append, List.forall_mem_singleton] at hown
  exact hsync (hiff.mpr hown.2)

/-- For all well-formed messages and all failures of receive calls, the turns of the
loop use their own messages, each at most once, if and only if the loop is in step
before every turn. -/
theorem separate_iff_inSync {messages : List (List Text)}
    (hmessages : ∀ message ∈ messages, WellFormed message) (actions : List Action) :
    Runs.Always (step parsers) Separate (start messages) actions ↔
      Runs.Throughout (step parsers) InSync (start messages) actions :=
  Runs.always_iff_throughout (step parsers) (fun _ hs => hs.separate)
    (fun _ _ _ hs hstep hsync => inv_of_step parsers hs hstep hsync)
    (fun _ _ _ hs hstep hsync => not_separate_of_step parsers hs hstep hsync)
    (inv_start hmessages) actions

def quote : MarketData :=
  { timestamp := 1, symbol := "A".toList, event := "BID".toList,
    value := { type := .double }, contractId := 1 }

def quoteBytes : Text :=
  "\x08\x01\x12\x01A\x1a\x03BID\"\x02\x08\x00(\x01".toList

/-- The parsers on the frames of the examples, none of which is a `MarketDepth`. -/
def quoteParsers : Parsers where
  parseMarketDepth _ := none
  parseMarketData bytes := if bytes = quoteBytes then some quote else none
  parseMarketDepth_nil := rfl
  parseMarketData_nil := by decide

theorem separate_iff_inSync_quote :
    Runs.Always (step quoteParsers) Separate
        (start [["A".toList, quoteBytes], ["admin:a".toList, "stop".toList, []]])
        [⟨false, false, false, true⟩, ⟨false, true, false, true⟩] ↔
      Runs.Throughout (step quoteParsers) InSync
        (start [["A".toList, quoteBytes], ["admin:a".toList, "stop".toList, []]])
        [⟨false, false, false, true⟩, ⟨false, true, false, true⟩] := by
  apply separate_iff_inSync
  rw [List.forall_mem_cons, List.forall_mem_singleton]
  constructor
  · exact .inl ⟨_, _, rfl, List.cons_ne_nil _ _, List.cons_ne_nil _ _, rfl⟩
  · exact .inr ⟨_, _, _, rfl, rfl, List.cons_ne_nil _ _⟩

/-- The second call of the first turn throws, and the first call of the two after
it.  The first payload is processed without a topic, and the second topic is read
as a payload. -/
theorem not_separate_first_throws :
    ¬ Runs.Always (step quoteParsers) Separate
      (start [["A".toList, quoteBytes], ["B".toList, quoteBytes]])
      [⟨false, true, false, true⟩, ⟨true, false, false, true⟩, ⟨true, false, false, true⟩] := by
  intro halways
  obtain ⟨hown, -⟩ := halways _ [] _ (List.append_nil _).symm rfl
  have hsecond := hown _ (List.mem_cons_of_mem _ List.mem_cons_self)
  obtain ⟨topic, htopic, -⟩ := hsecond (.inr (List.cons_ne_nil _ _))
  cases htopic

end Atp.MarketDataSubscriber

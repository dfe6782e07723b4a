import Atp.ZmqFrames
import Mathlib.Data.UInt

/-!
Messages that are sent in two frames, the type name and the bytes, and received
from the one frame after the name.
-/

namespace Atp.ZmqProtoBuffer

open ZmqFrames

/-- What `send` and `receive` use of a message type, which is generated.  Parsing
leaves what was read also where it fails; a message that has a required field is
initialized once it was parsed, and is not parsed from nothing. -/
structure MessageType (P : Type) where
  typeName : Text
  typeName_ne : typeName ≠ []
  setMessageId : UInt64 → P → P
  setTimestamp : UInt64 → P → P
  serializeToString : P → Option Text
  parseFromString : Text → Bool × P
  isInitialized : P → Bool
  initialized_of_parse : ∀ bytes,
    (parseFromString bytes).1 = true → isInitialized (parseFromString bytes).2 = true
  parse_nil : (parseFromString []).1 = false

variable {P : Type} (T : MessageType P)

/-! ### Sending -/

/-- What a call of `socket.send` comes to. -/
inductive Outcome where
  | sent | thrown
deriving DecidableEq

/-- The number that `send` returns, the caller's message after it, and the frames that
the socket took. -/
structure Sent (P : Type) where
  sent : Nat
  proto : P
  frames : List Frame

/-- The copy that is sent, and committed to the caller's message. -/
def stamped (timestamp messageId : UInt64) (proto : P) : P :=
  T.setTimestamp timestamp (T.setMessageId messageId proto)

/-- `send`, with the outcomes of its two calls of `send_copy`. -/
def send (first second : Outcome) (timestamp messageId : UInt64) (proto : P) : Sent P :=
  let copy := stamped T timestamp messageId proto
  match T.serializeToString copy with
  | none => ⟨0, proto, []⟩
  | some buff =>
      match first with
      | .thrown => ⟨0, proto, []⟩
      | .sent =>
          match second with
          | .thrown => ⟨T.typeName.length, proto, [⟨T.typeName, true⟩]⟩
          | .sent =>
              ⟨T.typeName.length + buff.length, copy, [⟨T.typeName, true⟩, ⟨buff, false⟩]⟩

/-- Both frames are out, and the caller has the message that was sent. -/
def Committed (timestamp messageId : UInt64) (proto : P) (result : Sent P) : Prop :=
  ∃ buff, T.serializeToString (stamped T timestamp messageId proto) = some buff ∧
    result.frames = [⟨T.typeName, true⟩, ⟨buff, false⟩] ∧
    result.proto = stamped T timestamp messageId proto

/-- A positive number stands for a message that was sent and committed; without one
nothing has changed. -/
structure Reliable (timestamp messageId : UInt64) (proto : P) (result : Sent P) : Prop where
  positive_iff : 0 < result.sent ↔ Committed T timestamp messageId proto result
  otherwise : ¬ Committed T timestamp messageId proto result →
    result.sent = 0 ∧ result.proto = proto

theorem not_committed_of_frames {timestamp messageId : UInt64} {proto : P} {result : Sent P}
    (hframes : result.frames.length ≠ 2) : ¬ Committed T timestamp messageId proto result := by
  rintro ⟨buff, -, hsent, -⟩
  rw [hsent] at hframes
  exact hframes rfl

/-- The number is right unless the first frame is sent and the second is not. -/
theorem reliable_send_iff (first second : Outcome) (timestamp messageId : UInt64) (proto : P) :
    Reliable T timestamp messageId proto (send T first second timestamp messageId proto) ↔
      T.serializeToString (stamped T timestamp messageId proto) = none ∨ first = .thrown ∨
        second = .sent := by
  have hname : 0 < T.typeName.length := List.length_pos_iff.mpr T.typeName_ne
  have hnothing : Reliable T timestamp messageId proto ⟨0, proto, []⟩ := by
    have hnone : ¬ Committed T timestamp messageId proto ⟨0, proto, []⟩ :=
      not_committed_of_frames T (by simp)
    exact ⟨iff_of_false (Nat.lt_irrefl 0) hnone, fun _ => ⟨rfl, rfl⟩⟩
  unfold send
  dsimp only
  cases hserialize : T.serializeToString (stamped T timestamp messageId proto) with
  | none => exact iff_of_true hnothing (.inl rfl)
  | some buff =>
      cases first with
      | thrown => exact iff_of_true hnothing (.inr (.inl rfl))
      | sent =>
          cases second with
          | thrown =>
              refine iff_of_false ?_ (by simp)
              intro hreliable
              exact not_committed_of_frames T (by simp) (hreliable.positive_iff.mp hname)
          | sent =>
              refine iff_of_true ?_ (.inr (.inr rfl))
              have hcommitted : Committed T timestamp messageId proto
                  ⟨T.typeName.length + buff.length, stamped T timestamp messageId proto,
                    [⟨T.typeName, true⟩, ⟨buff, false⟩]⟩ := ⟨buff, hserialize, rfl, rfl⟩
              exact ⟨iff_of_true (Nat.add_pos_left hname _) hcommitted,
                fun h => absurd hcommitted h⟩

/-! ### Receiving -/

/-- What `receive` makes of a frame and its flag: its result, and the caller's message
after it.  The result of `ParseFromString` is not looked at. -/
def ofFrame (proto : P) (frame1 : Text) (more : Bool) : Bool × P :=
  if more then (false, proto)
  else
    let p := (T.parseFromString frame1).2
    if T.isInitialized p then (true, p) else (false, proto)

/-- `receive`, and what is left to read.  Nothing if the call blocks. -/
def receiveProto (proto : P) (queue : List Frame) : Option ((Bool × P) × List Frame) :=
  (receive queue).map fun ((frame1, more), queue) => (ofFrame T proto frame1 more, queue)

/-- Exactly one frame is accepted, if it parses, and gives the message that was parsed;
anything else is refused and changes nothing. -/
def Exact (rest : List Text) (proto : P) (result : Option ((Bool × P) × List Frame)) : Prop :=
  ∃ r left, result = some (r, left) ∧
    ((∃ frame, rest = [frame] ∧ (T.parseFromString frame).1 = true ∧
        r = (true, (T.parseFromString frame).2)) ∨
      (¬ ∃ frame, rest = [frame] ∧ (T.parseFromString frame).1 = true) ∧ r = (false, proto))

theorem receive_singleton {frame : Text} (hframe : (T.parseFromString frame).1 = true)
    (later : List Frame) : receive (multipart [frame] ++ later) = some ((frame, false), later) := by
  have hne : frame ≠ [] := by
    rintro rfl
    rw [T.parse_nil] at hframe
    cases hframe
  exact if_pos (List.length_pos_iff.mpr hne)

theorem ofFrame_refused {proto : P} {frame : Text} {more : Bool}
    (hrefused : more = true ∨ T.isInitialized (T.parseFromString frame).2 = false) :
    ofFrame T proto frame more = (false, proto) := by
  unfold ofFrame
  rcases hrefused with hmore | hinit
  · exact if_pos hmore
  · dsimp only
    rw [hinit, if_neg Bool.false_ne_true, ite_self]

theorem ofFrame_accepted {proto : P} {frame : Text}
    (hinit : T.isInitialized (T.parseFromString frame).2 = true) :
    ofFrame T proto frame false = (true, (T.parseFromString frame).2) := by
  unfold ofFrame
  dsimp only
  rw [if_neg Bool.false_ne_true, if_pos hinit]

/-- The frames after the name, and what comes after them, are received as they should
be if and only if a frame arrives that is followed by others, or leaves the message
uninitialized, or is all there is and parses. -/
theorem exact_receive_iff (rest : List Text) (later : List Frame) (proto : P) :
    Exact T rest proto (receiveProto T proto (multipart rest ++ later)) ↔
      ∃ frame more left, receive (multipart rest ++ later) = some ((frame, more), left) ∧
        (more = true ∨ T.isInitialized (T.parseFromString frame).2 = false ∨
          rest = [frame] ∧ (T.parseFromString frame).1 = true) := by
  constructor
  · rintro ⟨r, left, hresult, hexact⟩
    obtain ⟨⟨⟨frame, more⟩, left'⟩, hreceive, hpair⟩ := Option.map_eq_some_iff.mp hresult
    obtain ⟨hr, rfl⟩ := Prod.mk.inj hpair
    refine ⟨frame, more, left', hreceive, ?_⟩
    rcases hexact with ⟨frame', rfl, hparse, -⟩ | ⟨-, hrefused⟩
    · obtain ⟨⟨rfl, rfl⟩, -⟩ : (frame' = frame ∧ false = more) ∧ later = left' := by
        simpa using (receive_singleton T hparse later).symm.trans hreceive
      exact .inr (.inr ⟨rfl, hparse⟩)
    · cases more with
      | true => exact .inl rfl
      | false =>
          cases hinit : T.isInitialized (T.parseFromString frame).2 with
          | false => exact .inr (.inl rfl)
          | true =>
              cases (ofFrame_accepted T hinit).symm.trans (hr.trans hrefused)
  · rintro ⟨frame, more, left, hreceive, hcases⟩
    refine ⟨ofFrame T proto frame more, left, by rw [receiveProto, hreceive]; rfl, ?_⟩
    by_cases hone : ∃ frame, rest = [frame] ∧ (T.parseFromString frame).1 = true
    · obtain ⟨frame', rfl, hparse⟩ := hone
      obtain ⟨⟨rfl, rfl⟩, -⟩ : (frame' = frame ∧ false = more) ∧ later = left := by
        simpa using (receive_singleton T hparse later).symm.trans hreceive
      exact .inl ⟨frame', rfl, hparse, ofFrame_accepted T (T.initialized_of_parse _ hparse)⟩
    · refine .inr ⟨hone, ofFrame_refused T ?_⟩
      rcases hcases with hmore | hinit | hparsed
      · exact .inl hmore
      · exact .inr hinit
      · exact absurd ⟨frame, hparsed⟩ hone

/-- A single frame of some length is received as it should be if and only if parsing it
succeeds or leaves the message uninitialized. -/
theorem exact_receive_singleton_iff {frame : Text} (hframe : frame ≠ []) (later : List Frame)
    (proto : P) : Exact T [frame] proto (receiveProto T proto (multipart [frame] ++ later)) ↔
      ((T.parseFromString frame).1 = false →
        T.isInitialized (T.parseFromString frame).2 = false) := by
  have hreceive : receive (multipart [frame] ++ later) = some ((frame, false), later) :=
    if_pos (List.length_pos_iff.mpr hframe)
  rw [exact_receive_iff, hreceive]
  cases hparse : (T.parseFromString frame).1 with
  | true => simp [hparse]
  | false => simp [hparse]

/-! ### A message of three numbers -/

/-- `CancelOrder`, of which any field may be missing. -/
structure CancelOrder where
  timestamp : Option UInt64 := none
  messageId : Option UInt64 := none
  orderId : Option UInt64 := none
deriving DecidableEq

namespace CancelOrder

def isInitialized (p : CancelOrder) : Bool :=
  p.timestamp.isSome && p.messageId.isSome && p.orderId.isSome

/-- A number in groups of seven bits, the lowest first. -/
def putVarint : Nat → Nat → Text
  | 0, _ => []
  | bytes + 1, n =>
      if n < 128 then [Char.ofNat n]
      else Char.ofNat (128 + n % 128) :: putVarint bytes (n / 128)

def putField (tag : Nat) (value : Option UInt64) : Text :=
  (value.map fun v => Char.ofNat tag :: putVarint 10 v.toNat).getD []

def serializeToString (p : CancelOrder) : Option Text :=
  if p.isInitialized then
    some (putField 8 p.timestamp ++ putField 16 p.messageId ++ putField 24 p.orderId)
  else none

def getVarint : Text → Option (Nat × Text)
  | [] => none
  | c :: s =>
      if c.toNat < 128 then some (c.toNat, s)
      else (getVarint s).map fun (n, s) => (c.toNat - 128 + 128 * n, s)

/-- The fields that can be read, and whether they are all there is. -/
def mergeFields : Nat → Text → CancelOrder → Bool × CancelOrder
  | _, [], p => (true, p)
  | 0, _, p => (false, p)
  | bytes + 1, tag :: s, p =>
      match getVarint s with
      | none => (false, p)
      | some (v, s) =>
          match tag.toNat with
          | 8 => mergeFields bytes s { p with timestamp := some (UInt64.ofNat v) }
          | 16 => mergeFields bytes s { p with messageId := some (UInt64.ofNat v) }
          | 24 => mergeFields bytes s { p with orderId := some (UInt64.ofNat v) }
          | _ => (false, p)

def parseFromString (bytes : Text) : Bool × CancelOrder :=
  let (read, p) := mergeFields bytes.length bytes {}
  (read && p.isInitialized, p)

end CancelOrder

def cancelOrderType : MessageType CancelOrder where
  typeName := "proto.ib.CancelOrder".toList
  typeName_ne := by decide
  setMessageId id p := { p with messageId := some id }
  setTimestamp timestamp p := { p with timestamp := some timestamp }
  serializeToString := CancelOrder.serializeToString
  parseFromString := CancelOrder.parseFromString
  isInitialized := CancelOrder.isInitialized
  initialized_of_parse _ hparse := (Bool.and_eq_true_iff.mp hparse).2
  parse_nil := rfl

/-- The socket takes the name, and fails on the bytes: twenty bytes are reported, and
the message has no id. -/
theorem not_reliable_second_thrown :
    ¬ Reliable cancelOrderType 1 2 { orderId := some 3 }
      (send cancelOrderType .sent .thrown 1 2 { orderId := some 3 }) := by
  intro hreliable
  obtain ⟨buff, -, hframes, -⟩ := hreliable.positive_iff.mp (by decide)
  cases hframes

/-- All three numbers and one byte too many. -/
def corrupted : Text :=
  [Char.ofNat 8, Char.ofNat 1, Char.ofNat 16, Char.ofNat 2, Char.ofNat 24, Char.ofNat 3,
    Char.ofNat 8]

theorem not_exact_corrupted :
    ¬ Exact cancelOrderType [corrupted] {}
      (receiveProto cancelOrderType {} (multipart [corrupted] ++ [])) := by
  rintro ⟨r, left, hresult, hexact⟩
  obtain ⟨rfl, -⟩ := Prod.mk.inj (Option.some.inj hresult)
  rcases hexact with ⟨frame, hframe, hparse, -⟩ | ⟨-, hrefused⟩
  · obtain rfl := List.singleton_inj.mp hframe
    contradiction
  · contradiction

end Atp.ZmqProtoBuffer

import Atp.Text

/-!
Multipart messages on a socket.  The frames of a message arrive one after the
other, each with a flag that says whether more of the same message follow, and
nothing else separates one message from the next.
-/

namespace Atp

structure Frame where
  bytes : Text
  more : Bool

namespace ZmqFrames

def multipart : List Text → List Frame
  | [] => []
  | x :: xs => ⟨x, !xs.isEmpty⟩ :: multipart xs

def inbound (messages : List (List Text)) : List Frame := messages.flatMap multipart

theorem inbound_cons (message : List Text) (messages : List (List Text)) :
    inbound (message :: messages) = multipart message ++ inbound messages := rfl

/-- `atp::zmq::receive`: the next frame that is not empty, its flag, and what is
left to read.  Without such a frame the call blocks. -/
def receive : List Frame → Option ((Text × Bool) × List Frame)
  | [] => none
  | f :: queue =>
      if f.bytes.length > 0 then some ((f.bytes, f.more), queue) else receive queue

/-- `while (more) more = receive(..)`; nothing if that blocks. -/
def drain : Bool → List Frame → Option (List Frame)
  | false, queue => some queue
  | true, [] => none
  | true, f :: queue => if f.bytes.length > 0 then drain f.more queue else drain true queue

/-- The first frame of a message that is not empty, and the frames after it. -/
def keyAndRest (message : List Text) : Option (Text × List Text) :=
  match message.dropWhile List.isEmpty with
  | [] => none
  | key :: rest => some (key, rest)

theorem receive_eq_none_iff {queue : List Frame} :
    receive queue = none ↔ ∀ f ∈ queue, f.bytes = [] := by
  induction queue with
  | nil => exact iff_of_true rfl nofun
  | cons f queue ih =>
      rw [receive, List.forall_mem_cons]
      split_ifs with hpos
      · exact iff_of_false nofun fun h => List.length_pos_iff.mp hpos h.1
      · rw [ih, and_iff_right (List.length_eq_zero_iff.mp (Nat.eq_zero_of_not_pos hpos))]

/-- Only empty frames come before the one that is received. -/
theorem exists_skipped_of_receive {queue queue' : List Frame} {r : Text × Bool}
    (hreceive : receive queue = some (r, queue')) :
    ∃ skipped, queue = skipped ++ ⟨r.1, r.2⟩ :: queue' ∧ (∀ f ∈ skipped, f.bytes = []) ∧
      r.1 ≠ [] := by
  induction queue with
  | nil => cases hreceive
  | cons f queue ih =>
      rw [receive] at hreceive
      split_ifs at hreceive with hpos
      · obtain ⟨rfl, rfl⟩ := Prod.mk.inj (Option.some.inj hreceive)
        exact ⟨[], rfl, nofun, List.length_pos_iff.mp hpos⟩
      · obtain ⟨skipped, rfl, hskipped, hne⟩ := ih hreceive
        have hempty : f.bytes = [] := List.length_eq_zero_iff.mp (Nat.eq_zero_of_not_pos hpos)
        exact ⟨f :: skipped, rfl, List.forall_mem_cons.mpr ⟨hempty, hskipped⟩, hne⟩

theorem length_receive {queue queue' : List Frame} {r : Text × Bool}
    (hreceive : receive queue = some (r, queue')) : queue'.length < queue.length := by
  obtain ⟨skipped, rfl, -⟩ := exists_skipped_of_receive hreceive
  rw [List.length_append, List.length_cons]
  omega

@[simp] theorem drain_false (queue : List Frame) : drain false queue = some queue := by
  cases queue <;> rfl

theorem drain_true (queue : List Frame) :
    drain true queue = (receive queue).bind fun r => drain r.1.2 r.2 := by
  induction queue with
  | nil => rfl
  | cons f queue ih =>
      rw [drain, receive]
      split_ifs
      · rfl
      · exact ih

theorem length_drain {more : Bool} {queue queue' : List Frame}
    (hdrain : drain more queue = some queue') : queue'.length ≤ queue.length := by
  induction queue generalizing more with
  | nil => cases more <;> simp_all [drain]
  | cons f queue ih =>
      cases more with
      | false => simp_all [drain]
      | true =>
          rw [drain] at hdrain
          split_ifs at hdrain
          · exact (ih hdrain).trans (Nat.le_succ _)
          · exact (ih hdrain).trans (Nat.le_succ _)

theorem keyAndRest_cons_nil (message : List Text) :
    keyAndRest ([] :: message) = keyAndRest message := by
  simp [keyAndRest]

theorem keyAndRest_cons {x : Text} (hx : x ≠ []) (message : List Text) :
    keyAndRest (x :: message) = some (x, message) := by
  simp [keyAndRest, hx]

theorem receive_multipart (message : List Text) (queue : List Frame) :
    receive (multipart message ++ queue) =
      match keyAndRest message with
      | none => receive queue
      | some (key, rest) => some ((key, !rest.isEmpty), multipart rest ++ queue) := by
  induction message with
  | nil => rfl
  | cons x message ih =>
      rcases eq_or_ne x [] with rfl | hx
      · rw [keyAndRest_cons_nil, ← ih]
        rfl
      · rw [keyAndRest_cons hx]
        simp [multipart, receive, List.length_pos_iff, hx]

theorem receive_multipart_of_some {message rest : List Text} {key : Text}
    (hkey : keyAndRest message = some (key, rest)) (queue : List Frame) :
    receive (multipart message ++ queue) =
      some ((key, !rest.isEmpty), multipart rest ++ queue) := by
  rw [receive_multipart, hkey]

theorem receive_multipart_of_none {message : List Text} (hkey : keyAndRest message = none)
    (queue : List Frame) : receive (multipart message ++ queue) = receive queue := by
  rw [receive_multipart, hkey]

theorem drain_multipart {rest : List Text} (hrest : rest ≠ []) (queue : List Frame) :
    drain true (multipart rest ++ queue) =
      if rest.getLast? = some [] then drain true queue else some queue := by
  induction rest with
  | nil => exact absurd rfl hrest
  | cons x rest ih =>
      rcases rest with _ | ⟨y, rest⟩
      · rcases eq_or_ne x [] with rfl | hx
        · rfl
        · simp [multipart, drain, List.length_pos_iff, hx]
      · have ih := ih (List.cons_ne_nil _ _)
        rw [List.getLast?_cons_cons, ← ih]
        rcases eq_or_ne x [] with rfl | hx
        · rfl
        · simp [multipart, drain, List.length_pos_iff, hx]

theorem keyAndRest_eq_none_iff {message : List Text} :
    keyAndRest message = none ↔ ∀ frame ∈ message, frame = [] := by
  induction message with
  | nil => simp [keyAndRest]
  | cons x message ih =>
      rcases eq_or_ne x [] with rfl | hx
      · simp [keyAndRest_cons_nil, ih]
      · simp [keyAndRest_cons hx, hx]

theorem getLast?_of_keyAndRest {message rest : List Text} {key : Text}
    (hkey : keyAndRest message = some (key, rest)) :
    message.getLast? = (key :: rest).getLast? := by
  induction message with
  | nil => cases hkey
  | cons x message ih =>
      rcases eq_or_ne x [] with rfl | hx
      · rw [keyAndRest_cons_nil] at hkey
        have hne : message ≠ [] := by
          rintro rfl
          cases hkey
        rw [← ih hkey, List.getLast?_cons_of_ne_nil hne]
      · rw [keyAndRest_cons hx, Option.some.injEq, Prod.mk.injEq] at hkey
        rw [hkey.1, hkey.2]

theorem ne_nil_of_keyAndRest {message rest : List Text} {key : Text}
    (hkey : keyAndRest message = some (key, rest)) : key ≠ [] := by
  induction message with
  | nil => cases hkey
  | cons x message ih =>
      rcases eq_or_ne x [] with rfl | hx
      · exact ih (by rwa [keyAndRest_cons_nil] at hkey)
      · rw [keyAndRest_cons hx, Option.some.injEq, Prod.mk.injEq] at hkey
        exact hkey.1 ▸ hx

end ZmqFrames

end Atp

import Atp.PendingFutures
import Atp.Text
import Mathlib.Data.UInt

/-!
The order manager: senders put orders on the wire and then register where the
status is to be delivered, while a listener hands each status to the entry that
is registered under its order id.
-/

namespace Atp.OrderManager

abbrev OrderId := UInt64

structure OrderStatus where
  orderId : OrderId
  status : Text
  filled : UInt32
  remaining : UInt32

/-- One call of `send`, under way once its message has been handed to the socket.
`sent` says whether that put the order on the wire, and `returned` whether the
pending entry has been registered. -/
structure Send where
  key : OrderId
  sent : Bool
  returned : Bool

/-- The calls of `send` are numbered, and so are the futures they return.
`owed` records which of them were on the wire when a status for their id was
handled. -/
structure State where
  sends : Nat → Option Send
  pendingOrders : OrderId → Option Nat
  responses : Nat → Option OrderStatus
  owed : Nat → Prop

def init : State := ⟨fun _ => none, fun _ => none, fun _ => none, fun _ => False⟩

inductive Action where
  | wire (call : Nat) (key : OrderId) (sent : Bool)
  | register (call : Nat)
  | handleOrderStatus (message : Option OrderStatus)

def OnWire (s : State) (key : OrderId) (call : Nat) : Prop :=
  ∃ send, s.sends call = some send ∧ send.key = key ∧ send.sent = true

/-- `set_response` on the future that is pending under the id, if there is one. -/
def setResponse (s : State) (status : OrderStatus) (call : Nat) : Option OrderStatus :=
  if s.pendingOrders status.orderId = some call then some status else s.responses call

/-- The two halves of `send`, and the handler of the listener.  A message that
does not parse is dropped. -/
def step (s : State) : Action → Option State
  | .wire call key sent =>
      match s.sends call with
      | none => some { s with
          sends := Function.update s.sends call (some ⟨key, sent, false⟩) }
      | some _ => none
  | .register call =>
      match s.sends call with
      | some ⟨key, sent, false⟩ => some { s with
          sends := Function.update s.sends call (some ⟨key, sent, true⟩)
          pendingOrders := Function.update s.pendingOrders key (some call) }
      | _ => none
  | .handleOrderStatus none => some s
  | .handleOrderStatus (some status) => some { s with
      responses := setResponse s status
      owed := fun call => s.owed call ∨ OnWire s status.orderId call }

/-- Every send that was on the wire when a status for its id was handled has a
status for that id in its future. -/
def Answered (s : State) : Prop :=
  ∀ call, s.owed call → ∃ send status, s.sends call = some send ∧
    s.responses call = some status ∧ status.orderId = send.key

/-- When a status is handled, every send with its id that is on the wire is the
one registered under the id, or has had its answer. -/
def Settled (s : State) : Action → Prop
  | .handleOrderStatus (some status) => ∀ call, OnWire s status.orderId call →
      s.pendingOrders status.orderId = some call ∨ (s.responses call).isSome
  | _ => True

/-- What every step keeps: entries and answers are those of sends with their id. -/
structure Inv (s : State) : Prop where
  pending : ∀ {key call}, s.pendingOrders key = some call →
    ∃ send, s.sends call = some send ∧ send.key = key
  responses : ∀ {call status}, s.responses call = some status →
    ∃ send, s.sends call = some send ∧ status.orderId = send.key
  answered : Answered s

/-! ### The pending futures -/

def Send.toRequest (send : Send) : PendingFutures.Request OrderId :=
  ⟨send.key, send.sent, send.returned⟩

/-- The manager as requests that wait under their order ids. -/
def State.toFutures (s : State) : PendingFutures.State OrderId OrderStatus where
  requests := Option.map Send.toRequest ∘ s.sends
  pending := s.pendingOrders
  responses := s.responses
  owed := s.owed

section

variable {s s' : State} {action : Action}

/-- Some request of a call has a property if and only if its send has it. -/
theorem exists_request_iff {call : Nat} {P : PendingFutures.Request OrderId → Prop} :
    (∃ request, s.toFutures.requests call = some request ∧ P request) ↔
      ∃ send, s.sends call = some send ∧ P send.toRequest := by
  constructor
  · rintro ⟨request, hrequest, hP⟩
    obtain ⟨send, hsend, rfl⟩ := Option.map_eq_some_iff.mp hrequest
    exact ⟨send, hsend, hP⟩
  · rintro ⟨send, hsend, hP⟩
    exact ⟨send.toRequest, Option.map_eq_some_iff.mpr ⟨send, hsend, rfl⟩, hP⟩

theorem onWire_toFutures_iff {key : OrderId} {call : Nat} :
    PendingFutures.OnWire s.toFutures key call ↔ OnWire s key call := exists_request_iff

theorem answered_toFutures_iff :
    PendingFutures.Answered OrderStatus.orderId s.toFutures ↔ Answered s := by
  apply forall₂_congr
  intro call _
  simp only [exists_and_left]
  exact exists_request_iff

theorem inv_toFutures_iff :
    PendingFutures.Inv OrderStatus.orderId s.toFutures ↔ Inv s := by
  constructor
  · intro h
    exact ⟨fun hpending => exists_request_iff.mp (h.pending hpending),
      fun hresponse => exists_request_iff.mp (h.responses hresponse),
      answered_toFutures_iff.mp h.answered⟩
  · intro h
    exact ⟨fun hpending => exists_request_iff.mpr (h.pending hpending),
      fun hresponse => exists_request_iff.mpr (h.responses hresponse),
      answered_toFutures_iff.mpr h.answered⟩

theorem toFutures_update (call : Nat) (send : Send) (pending : OrderId → Option Nat) :
    State.toFutures { s with
        sends := Function.update s.sends call (some send)
        pendingOrders := pending } =
      { s.toFutures with
        requests := Function.update s.toFutures.requests call (some send.toRequest)
        pending := pending } := by
  unfold State.toFutures
  rw [Function.comp_update]
  rfl

/-- A step is one of the pending futures, settled alike, or changes nothing. -/
theorem step_cases (hstep : step s action = some s') :
    (∃ b, PendingFutures.step OrderStatus.orderId s.toFutures b = some s'.toFutures ∧
      (Settled s action ↔ PendingFutures.Settled OrderStatus.orderId s.toFutures b)) ∨
    s' = s ∧ Settled s action := by
  unfold step at hstep
  split at hstep
  · rename_i call key sent
    split at hstep
    · rename_i hnone
      obtain rfl := Option.some.inj hstep
      refine .inl ⟨.wire call key sent, ?_, Iff.rfl⟩
      have hrequest : s.toFutures.requests call = none := Option.map_eq_none_iff.mpr hnone
      rw [PendingFutures.step, hrequest, toFutures_update]
      rfl
    · cases hstep
  · rename_i call
    split at hstep
    · rename_i key sent hsend
      obtain rfl := Option.some.inj hstep
      refine .inl ⟨.register call, ?_, Iff.rfl⟩
      have hrequest : s.toFutures.requests call = some ⟨key, sent, false⟩ :=
        Option.map_eq_some_iff.mpr ⟨_, hsend, rfl⟩
      rw [PendingFutures.step, hrequest, toFutures_update]
      rfl
    · cases hstep
  · exact .inr ⟨(Option.some.inj hstep).symm, trivial⟩
  · rename_i status
    obtain rfl := Option.some.inj hstep
    have hwire : PendingFutures.OnWire s.toFutures status.orderId = OnWire s status.orderId := by
      funext call
      exact propext onWire_toFutures_iff
    refine .inl ⟨.respond status, ?_, ?_⟩
    · rw [PendingFutures.step, hwire]
      rfl
    · apply forall_congr'
      intro call
      rw [onWire_toFutures_iff]
      rfl

end

theorem inv_init : Inv init := inv_toFutures_iff.mp (PendingFutures.inv_init _)

theorem inv_of_step {s s' : State} {action : Action} (hs : Inv s)
    (hstep : step s action = some s') (hsettled : Settled s action) : Inv s' := by
  rcases step_cases hstep with ⟨b, hfutures, hiff⟩ | ⟨rfl, -⟩
  · exact inv_toFutures_iff.mp
      (PendingFutures.inv_of_step (inv_toFutures_iff.mpr hs) hfutures (hiff.mp hsettled))
  · exact hs

theorem not_answered_of_step {s s' : State} {action : Action}
    (hstep : step s action = some s') (hsettled : ¬ Settled s action) : ¬ Answered s' := by
  intro hanswered
  rcases step_cases hstep with ⟨b, hfutures, hiff⟩ | ⟨-, h⟩
  · exact PendingFutures.not_answered_of_step hfutures (fun h => hsettled (hiff.mpr h))
      (answered_toFutures_iff.mpr hanswered)
  · exact hsettled h

/-- In every interleaving of sends with statuses, all futures due for a status
hold one, in every state reached, if and only if the sends are settled whenever
a status is handled. -/
theorem answered_iff_settled (actions : List Action) :
    Runs.Always step Answered init actions ↔ Runs.Throughout step Settled init actions :=
  Runs.always_iff_throughout step (fun _ hs => hs.answered)
    (fun _ _ _ hs hstep hsettled => inv_of_step hs hstep hsettled)
    (fun _ _ _ _ hstep hsettled => not_answered_of_step hstep hsettled) inv_init actions

/-- A status that is handled between the two halves of a send is lost. -/
theorem status_before_register :
    ¬ Runs.Always step Answered init
      [.wire 0 7 true, .handleOrderStatus (some ⟨7, "filled".toList, 100, 0⟩),
        .register 0] := by
  intro halways
  have hanswered := halways _ [] _ (List.append_nil _).symm rfl
  obtain ⟨send, status, -, hstatus, -⟩ := hanswered 0 (.inr ⟨_, rfl, rfl, rfl⟩)
  cases hstatus

end Atp.OrderManager

import Atp.LatestResponses
import Atp.OrderWire
import Atp.TypedMessages

/-!
Orders on their way from the order manager to the gateway, and their statuses on the way
back.  The order manager sends an order and then waits for its status under the order's
id; the execution manager takes the orders one by one and calls the API; whatever the
gateway reports is published, and a listener hands it to the future that waits for it.
-/

namespace Atp.OrderFlow

open Links MessageProcessor OrderMarshall SocketConnector TypedMessages ZmqFrames

/-! ### The messages -/

/-- The messages that `OrderManager::send` takes. -/
inductive OrderMessage where
  | cancelOrder (orderId : UInt64)
  | newOrder (request : Request)

namespace OrderMessage

/-- The id under which the status is waited for. -/
def orderId : OrderMessage → UInt64
  | cancelOrder orderId => orderId
  | newOrder request => request.order.id

def typeName : OrderMessage → Text
  | cancelOrder _ => "proto.ib.CancelOrder".toList
  | newOrder (.marketOrder _) => "proto.ib.MarketOrder".toList
  | newOrder (.limitOrder _ _) => "proto.ib.LimitOrder".toList
  | newOrder (.stopLimitOrder _ _ _) => "proto.ib.StopLimitOrder".toList

end OrderMessage

structure OrderStatus where
  timestamp : UInt64
  messageId : UInt64
  orderId : UInt64
  status : Text
  filled : UInt32
  remaining : UInt32
  avgFillPrice : Money
  lastFillPrice : Money
  clientId : UInt32
  permId : UInt32
  parentId : UInt32
  whyHeld : Text
deriving DecidableEq

def statusTypeName : Text := "proto.ib.OrderStatus".toList

/-- The arguments of the wrapper's `orderStatus`. -/
structure StatusCallback where
  orderId : Int64
  status : Text
  filled : Int32
  remaining : Int32
  avgFillPrice : Double
  permId : Int32
  parentId : Int32
  lastFillPrice : Double
  clientId : Int32
  whyHeld : Text

/-- What `OrderEventEWrapper::orderStatus` publishes, with the two readings of the clock. -/
def orderStatus (timestamp messageId : UInt64) (c : StatusCallback) : OrderStatus where
  timestamp := timestamp
  messageId := messageId
  orderId := c.orderId.toUInt64
  status := c.status
  filled := c.filled.toUInt32
  remaining := c.remaining.toUInt32
  avgFillPrice := ⟨c.avgFillPrice, none⟩
  lastFillPrice := ⟨c.lastFillPrice, none⟩
  clientId := c.clientId.toUInt32
  permId := c.permId.toUInt32
  parentId := c.parentId.toUInt32
  whyHeld := c.whyHeld

/-- The protobuf library.  Nothing is parsed of the bytes of a message whose required
fields are not set. -/
structure Wires where
  serializeOrder : (timestamp messageId : UInt64) → OrderMessage → Text
  parseOrder : (typeName bytes : Text) → Option OrderMessage
  parse_serializeOrder : ∀ timestamp messageId m,
    parseOrder m.typeName (serializeOrder timestamp messageId m) = some m
  serializeOrder_ne_nil : ∀ timestamp messageId m, serializeOrder timestamp messageId m ≠ []
  status : Codec OrderStatus
  serializeStatus_ne_nil : ∀ v, status.serializeToString v ≠ []

/-! ### The execution manager -/

inductive ApiCall where
  | cancelOrder (orderId : Int64)
  | placeOrder (call : PlaceOrder)

def ApiCall.orderId : ApiCall → Int64
  | cancelOrder orderId => orderId
  | placeOrder call => call.orderId

/-- The call of the API for a message, where `callApi` returns true. -/
def apiCall (new : NewOrder) : OrderMessage → Option ApiCall
  | .cancelOrder orderId => some (.cancelOrder orderId.toInt64)
  | .newOrder request => (OrderMarshall.callApi new request).map .placeOrder

/-- `EM_VALID_MESSAGES_`. -/
def emValidMessages : List Text :=
  ["proto.ib.CancelOrder".toList, "proto.ib.MarketOrder".toList, "proto.ib.LimitOrder".toList,
    "proto.ib.StopLimitOrder".toList]

section

variable (new : NewOrder) (wires : Wires)

def executionManager : Connector (List ApiCall) (Option OrderMessage) where
  isMessageSupported key := emValidMessages.contains key
  parseFromString := wires.parseOrder
  isInitialized := Option.isSome
  callApi calls _ p :=
    match p.bind (apiCall new) with
    | some call => (calls ++ [call], true)
    | none => (calls, false)

/-! ### The order manager -/

abbrev Futures := PendingFutures.State UInt64 OrderStatus

/-- `handleOrderStatus`: what does not parse is dropped. -/
def handleOrderStatus (s : Futures) (message : Text) : Futures :=
  match wires.status.parseFromString message with
  | none => s
  | some status => (PendingFutures.step OrderStatus.orderId s (.respond status)).getD s

/-- The handlers of the listener. -/
def handlers : HandlersMap Futures where
  isSupported topic := topic = statusTypeName || topic = "stop".toList
  handler s topic message :=
    if topic = statusTypeName then (handleOrderStatus wires s message, some true)
    else (s, some false)

/-! ### The system -/

/-- A message with the two readings of the clock that `atp::send` puts into it. -/
structure Stamped where
  timestamp : UInt64
  messageId : UInt64
  message : OrderMessage

def orderFrames (m : Stamped) : List Frame :=
  TypedMessage.frames ⟨m.message.typeName, wires.serializeOrder m.timestamp m.messageId m.message⟩

def statusFrames (v : OrderStatus) : List Frame :=
  TypedMessage.frames ⟨statusTypeName, wires.status.serializeToString v⟩

/-- The futures of the order manager, the frames at the two sockets, whether the execution
manager is connected and the listener goes on, and the calls that the gateway has got.
Noted are the messages that were sent, the statuses that were delivered to the listener's
socket, how many of them have been handled, and how many had been when each call of `send`
registered its future. -/
structure State where
  futures : Futures
  toConnector : List Frame
  connected : Bool
  apiCalls : List ApiCall
  toListener : List Frame
  listening : Bool
  sent : List Stamped
  delivered : List OrderStatus
  handled : Nat
  registered : Nat → Nat

def init : State := ⟨PendingFutures.init, [], false, [], [], true, [], [], 0, fun _ => 0⟩

/-- The two halves of a call of `send`; the connection to the gateway; a turn of the
execution manager; a status that the gateway reports, which may be dropped on its way; a
turn of the listener. -/
inductive Action where
  | wire (call : Nat) (m : Stamped) (sent : Bool)
  | register (call : Nat)
  | connect
  | reactor
  | orderStatus (timestamp messageId : UInt64) (callback : StatusCallback) (delivered : Bool)
  | listener

def step (s : State) : Action → Option State
  | .wire call m sent =>
      (PendingFutures.step OrderStatus.orderId s.futures
        (.wire call m.message.orderId sent)).map fun futures =>
          if sent then
            { s with
              futures := futures
              toConnector := s.toConnector ++ orderFrames wires m
              sent := s.sent ++ [m] }
          else { s with futures := futures }
  | .register call =>
      (PendingFutures.step OrderStatus.orderId s.futures (.register call)).map fun futures =>
        { s with
          futures := futures
          registered := Function.update s.registered call s.handled }
  | .connect => some { s with connected := true }
  | .reactor =>
      if s.connected then
        (connectorTurn (executionManager new wires) s.apiCalls s.toConnector).map
          fun ((_, apiCalls), queue) => { s with apiCalls := apiCalls, toConnector := queue }
      else none
  | .orderStatus timestamp messageId callback delivered =>
      let status := OrderFlow.orderStatus timestamp messageId callback
      some (if delivered then
          { s with
            toListener := s.toListener ++ statusFrames wires status
            delivered := s.delivered ++ [status] }
        else s)
  | .listener =>
      if s.listening then
        (processorTurn (handlers wires) s.futures s.toListener).map
          fun ((futures, run), queue) =>
            { s with
              futures := futures
              toListener := queue
              listening := run
              handled := s.handled + 1 }
      else none

end

/-- The gateway reports only on orders that it was given or asked to cancel. -/
def Honest (s : State) : Action → Prop
  | .orderStatus _ _ callback _ => ∃ call ∈ s.apiCalls, call.orderId = callback.orderId
  | _ => True

/-- The last of the statuses for an order among those that were handled since the future of
a call was registered. -/
def latest (s : State) (key : UInt64) (call : Nat) : Option OrderStatus :=
  (((s.delivered.take s.handled).drop (s.registered call)).filter
    fun status => status.orderId = key).getLast?

/-! ### The readers -/

section

variable (new : NewOrder) (wires : Wires)

theorem typeName_mem_emValidMessages (m : OrderMessage) : m.typeName ∈ emValidMessages := by
  rcases m with orderId | request
  · exact List.mem_cons_self
  · cases request with
    | marketOrder _ => exact List.mem_cons_of_mem _ List.mem_cons_self
    | limitOrder _ _ => exact List.mem_cons_of_mem _ (List.mem_cons_of_mem _ List.mem_cons_self)
    | stopLimitOrder _ _ _ =>
        exact List.mem_cons_of_mem _ (List.mem_cons_of_mem _
          (List.mem_cons_of_mem _ List.mem_cons_self))

theorem handled_emValidMessages : ∀ key ∈ emValidMessages, key ∈ handlerMap ∧ key ≠ [] := by
  decide

/-- A turn of the execution manager takes one order and makes the call for it. -/
theorem reads_connector (calls : List ApiCall) :
    Reads (orderFrames wires)
      (fun m => (calls ++ (apiCall new m.message).toList))
      (fun queue => (connectorTurn (executionManager new wires) calls queue).map
        fun r => (r.1.2, r.2)) where
  whole m later := by
    have hvalid := typeName_mem_emValidMessages m.message
    obtain ⟨hhandled, hne⟩ := handled_emValidMessages _ hvalid
    have hparse := wires.parse_serializeOrder m.timestamp m.messageId m.message
    have hturn := connectorTurn_frames (executionManager new wires)
      (m := ⟨m.message.typeName, wires.serializeOrder m.timestamp m.messageId m.message⟩)
      ⟨hne, wires.serializeOrder_ne_nil _ _ _⟩ (List.contains_iff_mem.mpr hvalid) hhandled
      (by simp [executionManager, hparse]) calls later
    rw [orderFrames, hturn, Option.map_some]
    simp only [answer, executionManager, hparse, Option.isSome_some, Bool.not_true,
      Bool.false_eq_true, if_false, Option.bind_some]
    cases apiCall new m.message <;> simp
  waits := rfl

/-- A turn of the listener takes one status and hands it to the future. -/
theorem reads_listener (futures : Futures) :
    Reads (statusFrames wires)
      (fun status =>
        ((PendingFutures.step OrderStatus.orderId futures (.respond status)).getD futures, true))
      (processorTurn (handlers wires) futures) where
  whole status later := by
    have hturn := processorTurn_frames (handlers wires)
      (m := ⟨statusTypeName, wires.status.serializeToString status⟩)
      ⟨show statusTypeName ≠ [] by decide, wires.serializeStatus_ne_nil status⟩ futures later
    rw [statusFrames, hturn]
    simp [processRawMessage, handlers, handleOrderStatus]
  waits := rfl

end

/-! ### Runs -/

section

variable (new : NewOrder) (wires : Wires)

/-- The statuses that have been handled. -/
def State.seen (s : State) : List OrderStatus := s.delivered.take s.handled

/-- The execution manager has made the calls of the orders it has taken, and the futures
hold what the statuses that were handled have put there. -/
structure Inv (s : State) (taken : List Stamped) : Prop where
  orders : Holds (orderFrames wires) s.sent taken s.toConnector
  apiCalls : s.apiCalls = taken.filterMap fun m => apiCall new m.message
  statuses : Holds (statusFrames wires) s.delivered s.seen s.toListener
  handled : s.handled ≤ s.delivered.length
  listening : s.listening = true
  futures : PendingFutures.Fresh OrderStatus.orderId s.futures s.seen s.registered

variable {new wires} {s s' : State} {taken : List Stamped}

theorem inv_init : Inv new wires init [] where
  orders := holds_nil
  apiCalls := rfl
  statuses := holds_nil
  handled := Nat.zero_le _
  listening := rfl
  futures := PendingFutures.fresh_init _

theorem length_seen (hs : Inv new wires s taken) : s.seen.length = s.handled := by
  rw [State.seen, List.length_take, Nat.min_eq_left hs.handled]

theorem Inv.wire (hs : Inv new wires s taken) {call : Nat} {m : Stamped} {sent : Bool}
    (hstep : step new wires s (.wire call m sent) = some s') : Inv new wires s' taken := by
  obtain ⟨futures, hfutures, rfl⟩ := Option.map_eq_some_iff.mp hstep
  have hfresh := hs.futures.wire hfutures
  cases sent with
  | true => exact { hs with orders := hs.orders.send m, futures := hfresh }
  | false => exact { hs with futures := hfresh }

theorem Inv.register (hs : Inv new wires s taken) {call : Nat}
    (hstep : step new wires s (.register call) = some s') : Inv new wires s' taken := by
  obtain ⟨futures, hfutures, rfl⟩ := Option.map_eq_some_iff.mp hstep
  have hfresh := hs.futures.register hfutures
  rw [length_seen hs] at hfresh
  exact { hs with futures := hfresh }

theorem Inv.reactor (hs : Inv new wires s taken)
    (hstep : step new wires s .reactor = some s') :
    ∃ m, Inv new wires s' (taken ++ [m]) := by
  simp only [step] at hstep
  split_ifs at hstep
  obtain ⟨⟨⟨code, calls⟩, queue⟩, hturn, rfl⟩ := Option.map_eq_some_iff.mp hstep
  obtain ⟨m, rfl, horders⟩ := hs.orders.take (reads_connector new wires s.apiCalls)
    (Option.map_eq_some_iff.mpr ⟨_, hturn, rfl⟩)
  refine ⟨m, { hs with orders := horders, apiCalls := ?_ }⟩
  rw [hs.apiCalls, List.filterMap_append]
  cases hcall : apiCall new m.message <;> simp [hcall]

theorem Inv.orderStatus (hs : Inv new wires s taken) (status : OrderStatus) :
    Inv new wires { s with
      toListener := s.toListener ++ statusFrames wires status
      delivered := s.delivered ++ [status] } taken := by
  have hseen : (s.delivered ++ [status]).take s.handled = s.seen :=
    List.take_append_of_le_length hs.handled
  refine { hs with statuses := ?_, handled := ?_, futures := ?_ }
  · change Holds _ _ ((s.delivered ++ [status]).take s.handled) _
    rw [hseen]
    exact hs.statuses.send status
  · change s.handled ≤ (s.delivered ++ [status]).length
    rw [List.length_append]
    exact hs.handled.trans (Nat.le_add_right _ _)
  · change PendingFutures.Fresh _ _ ((s.delivered ++ [status]).take s.handled) _
    rw [hseen]
    exact hs.futures

theorem Inv.listener (hs : Inv new wires s taken)
    (hstep : step new wires s .listener = some s') : Inv new wires s' taken := by
  rw [step, if_pos hs.listening] at hstep
  obtain ⟨⟨⟨futures, run⟩, queue⟩, hturn, rfl⟩ := Option.map_eq_some_iff.mp hstep
  obtain ⟨status, heq, hstatuses⟩ := hs.statuses.take (reads_listener wires s.futures) hturn
  obtain ⟨rfl, rfl⟩ := Prod.mk.inj heq
  -- The status that was read is the next of those that were delivered.
  have hseen : s.delivered.take (s.handled + 1) = s.seen ++ [status] := by
    have hinitial := List.prefix_iff_eq_take.mp hstatuses.taken_isPrefix
    rw [List.length_append, length_seen hs, List.length_singleton] at hinitial
    exact hinitial.symm
  refine { hs with statuses := ?_, handled := ?_, listening := rfl, futures := ?_ }
  · change Holds _ _ (s.delivered.take (s.handled + 1)) _
    rw [hseen]
    exact hstatuses
  · have hlength := hstatuses.taken_isPrefix.length_le
    rw [List.length_append, length_seen hs] at hlength
    exact hlength
  · change PendingFutures.Fresh _ _ (s.delivered.take (s.handled + 1)) _
    rw [hseen]
    exact hs.futures.respond status

theorem inv_of_step (hs : Inv new wires s taken) {action : Action}
    (hstep : step new wires s action = some s') :
    ∃ taken', taken <+: taken' ∧ Inv new wires s' taken' := by
  cases action with
  | wire call m sent => exact ⟨taken, List.prefix_refl _, hs.wire hstep⟩
  | register call => exact ⟨taken, List.prefix_refl _, hs.register hstep⟩
  | connect =>
      obtain rfl := Option.some.inj hstep
      exact ⟨taken, List.prefix_refl _, { hs with }⟩
  | reactor =>
      obtain ⟨m, hinv⟩ := hs.reactor hstep
      exact ⟨taken ++ [m], List.prefix_append _ _, hinv⟩
  | orderStatus timestamp messageId callback delivered =>
      obtain rfl := Option.some.inj hstep
      refine ⟨taken, List.prefix_refl _, ?_⟩
      cases delivered with
      | true => exact hs.orderStatus _
      | false => exact hs
  | listener => exact ⟨taken, List.prefix_refl _, hs.listener hstep⟩

theorem inv_of_run {actions : List Action}
    (hrun : Runs.run (step new wires) init actions = some s) : ∃ taken, Inv new wires s taken := by
  apply Runs.inv_of_run (step new wires) (P := fun s => ∃ taken, Inv new wires s taken) _
    ⟨[], inv_init⟩ hrun
  rintro s action s' ⟨taken, hs⟩ hstep
  obtain ⟨taken', -, hs'⟩ := inv_of_step hs hstep
  exact ⟨taken', hs'⟩

end

def orderStatusWire : Wire OrderStatus :=
  open RecordWire OrderWire Wire in
  (uint64.pair (uint64.pair (uint64.pair (text.pair (uint32.pair (uint32.pair (money.pair
      (money.pair (uint32.pair (uint32.pair (uint32.pair text))))))))))).iso
    (fun f => ⟨f.1, f.2.1, f.2.2.1, f.2.2.2.1, f.2.2.2.2.1, f.2.2.2.2.2.1, f.2.2.2.2.2.2.1,
      f.2.2.2.2.2.2.2.1, f.2.2.2.2.2.2.2.2.1, f.2.2.2.2.2.2.2.2.2.1, f.2.2.2.2.2.2.2.2.2.2.1,
      f.2.2.2.2.2.2.2.2.2.2.2⟩)
    (fun s => (s.timestamp, s.messageId, s.orderId, s.status, s.filled, s.remaining,
      s.avgFillPrice, s.lastFillPrice, s.clientId, s.permId, s.parentId, s.whyHeld))
    fun _ => rfl

/-- The fields of a message after the two readings of the clock. -/
def orderFields : OrderMessage → Text
  | .cancelOrder orderId => RecordWire.uint64.put orderId
  | .newOrder (.marketOrder p) => OrderWire.order.put p
  | .newOrder (.limitOrder p limitPrice) =>
      (OrderWire.order.pair OrderWire.money).put (p, limitPrice)
  | .newOrder (.stopLimitOrder p limitPrice stopPrice) =>
      (OrderWire.order.pair (OrderWire.money.pair OrderWire.money)).put (p, limitPrice, stopPrice)

def parseFields (typeName fields : Text) : Option OrderMessage :=
  if typeName = "proto.ib.CancelOrder".toList then
    (RecordWire.uint64.parse fields).map .cancelOrder
  else if typeName = "proto.ib.MarketOrder".toList then
    (OrderWire.order.parse fields).map fun p => .newOrder (.marketOrder p)
  else if typeName = "proto.ib.LimitOrder".toList then
    ((OrderWire.order.pair OrderWire.money).parse fields).map fun f =>
      .newOrder (.limitOrder f.1 f.2)
  else if typeName = "proto.ib.StopLimitOrder".toList then
    ((OrderWire.order.pair (OrderWire.money.pair OrderWire.money)).parse fields).map fun f =>
      .newOrder (.stopLimitOrder f.1 f.2.1 f.2.2)
  else none

theorem parseFields_orderFields (m : OrderMessage) :
    parseFields m.typeName (orderFields m) = some m := by
  have hmarket : "proto.ib.MarketOrder".toList ≠ "proto.ib.CancelOrder".toList := by decide
  have hlimit : "proto.ib.LimitOrder".toList ≠ "proto.ib.CancelOrder".toList ∧
      "proto.ib.LimitOrder".toList ≠ "proto.ib.MarketOrder".toList := by decide
  have hstop : "proto.ib.StopLimitOrder".toList ≠ "proto.ib.CancelOrder".toList ∧
      "proto.ib.StopLimitOrder".toList ≠ "proto.ib.MarketOrder".toList ∧
      "proto.ib.StopLimitOrder".toList ≠ "proto.ib.LimitOrder".toList := by decide
  rcases m with orderId | request
  · exact (if_pos rfl).trans (congrArg (Option.map OrderMessage.cancelOrder) (Wire.parse_put _ _))
  · cases request with
    | marketOrder p =>
        apply (if_neg hmarket).trans
        exact (if_pos rfl).trans (congrArg (Option.map _) (Wire.parse_put _ _))
    | limitOrder p limitPrice =>
        apply (if_neg hlimit.1).trans
        apply (if_neg hlimit.2).trans
        exact (if_pos rfl).trans (congrArg (Option.map _) (Wire.parse_put _ _))
    | stopLimitOrder p limitPrice stopPrice =>
        apply (if_neg hstop.1).trans
        apply (if_neg hstop.2.1).trans
        apply (if_neg hstop.2.2).trans
        exact (if_pos rfl).trans (congrArg (Option.map _) (Wire.parse_put _ _))

def wires : Wires where
  serializeOrder timestamp messageId m :=
    (RecordWire.uint64.pair (RecordWire.uint64.pair Wire.text)).put
      (timestamp, messageId, orderFields m)
  parseOrder typeName bytes :=
    ((RecordWire.uint64.pair (RecordWire.uint64.pair Wire.text)).parse bytes).bind fun f =>
      parseFields typeName f.2.2
  parse_serializeOrder timestamp messageId m := by
    rw [Wire.parse_put, Option.bind_some, parseFields_orderFields]
  serializeOrder_ne_nil timestamp messageId m := by
    simp [Wire.pair, RecordWire.uint64, Wire.iso, Wire.nat]
  status := ⟨orderStatusWire.put, orderStatusWire.parse, orderStatusWire.parse_put⟩
  serializeStatus_ne_nil v := by
    simp [orderStatusWire, Wire.iso, Wire.pair, RecordWire.uint64, Wire.nat]

end Atp.OrderFlow

import Atp.ContractManager
import Atp.LatestResponses
import Atp.MarketRequests
import Atp.OrderWire
import Atp.TypedMessages

/-!
Requests for contract details on their way from the contract manager to the gateway, and
the details on their way back.  The details of a request are published before its end,
so that they can be looked up once the future of the request is ready.
-/

namespace Atp.ContractFlow

open ContractManager Links MessageProcessor SocketConnector TypedMessages ZmqFrames

/-! ### The messages -/

structure RequestContractDetails where
  requestId : UInt32
  contract : Contract

def requestTypeName : Text := "proto.ib.RequestContractDetails".toList

def responseTypeName : Text := "proto.ib.ContractDetailsResponse".toList

def endTypeName : Text := "proto.ib.ContractDetailsEnd".toList

/-- The four requests of the contract manager. -/
inductive Requested where
  | stock (symbol : Text)
  | option (symbol : Text) (expiry : Date) (strike : Double) (putOrCall : Right)
  | optionChain (symbol : Text)
  | index (symbol : Text)

/-- The contract of a request, whose id is to be filled by the response. -/
def Requested.contract : Requested → Contract
  | stock symbol => {
      id := 0, symbol := symbol, localSymbol := some symbol, type := some .stock
      strike := some ⟨⟨0⟩, some .usd⟩ }
  | option symbol expiry strike putOrCall => {
      id := 0, symbol := symbol, localSymbol := some symbol, type := some .option
      right := some putOrCall, strike := some ⟨strike, some .usd⟩, expiry := some expiry }
  | optionChain symbol => { id := 0, symbol := symbol, type := some .option }
  | index symbol => { id := 0, symbol := symbol, localSymbol := some symbol, type := some .index }

/-- The callbacks of the gateway that concern requests for details. -/
inductive Callback where
  | contractDetails (reqId : Int32) (details : IbContractDetails)
  | contractDetailsEnd (reqId : Int32)
  | error (id errorCode : Int32)

/-- What the wrapper publishes. -/
inductive Event where
  | details (now : UInt64) (p : Published)
  | finished (e : ContractDetailsEnd)

def Event.details? : Event → Option Published
  | details _ p => some p
  | finished _ => none

def Event.finished? : Event → Option ContractDetailsEnd
  | details _ _ => none
  | finished e => some e

def contractDetailsEnd (now : UInt64) (reqId : Int32) : ContractDetailsEnd :=
  ⟨now, now, reqId.toUInt32⟩

/-- Details that do not convert are not published; a request without a contract is ended
by the wrapper itself. -/
def event (now : UInt64) : Callback → Option Event
  | .contractDetails _ details =>
      match h : DetailKeys.detailsToProto details with
      | .ok _ => some (.details now (ofApi h))
      | .error _ => none
  | .contractDetailsEnd reqId => some (.finished (contractDetailsEnd now reqId))
  | .error id errorCode =>
      if errorCode = 200 then some (.finished (contractDetailsEnd now id)) else none

/-- The protobuf library.  Nothing is parsed of the bytes of a message whose required
fields are not set. -/
structure Wires where
  serializeRequest : (timestamp messageId : UInt64) → RequestContractDetails → Text
  parseRequest : Text → Option RequestContractDetails
  parse_serializeRequest : ∀ timestamp messageId r,
    parseRequest (serializeRequest timestamp messageId r) = some r
  serializeRequest_ne_nil : ∀ timestamp messageId r, serializeRequest timestamp messageId r ≠ []
  serializeResponse : (now : UInt64) → Published → Text
  parseResponse : Text → Option Published
  parse_serializeResponse : ∀ now p, parseResponse (serializeResponse now p) = some p
  serializeResponse_ne_nil : ∀ now p, serializeResponse now p ≠ []
  ends : Codec ContractDetailsEnd
  serializeEnd_ne_nil : ∀ e, ends.serializeToString e ≠ []

/-! ### The connector -/

/-- `reqContractDetails`. -/
structure ApiCall where
  reqId : Int32
  contract : IbContract

/-- The call of the API for a request, where `callApi` returns true. -/
def apiCall (r : RequestContractDetails) : Option ApiCall :=
  (MarketRequests.marshall r.contract).map fun contract =>
    ⟨(Int64.ofNat r.requestId.toNat).toInt32, contract⟩

section

variable (wires : Wires)

def connector : Connector (List ApiCall) (Option RequestContractDetails) where
  isMessageSupported key := [requestTypeName].contains key
  parseFromString _ bytes := wires.parseRequest bytes
  isInitialized := Option.isSome
  callApi calls _ p :=
    match p.bind apiCall with
    | some call => (calls ++ [call], true)
    | none => (calls, false)

/-! ### The contract manager -/

/-- The handlers of the listener. -/
def handlers : HandlersMap ContractManager.State where
  isSupported topic :=
    topic = responseTypeName || topic = endTypeName || topic = "stop".toList
  handler s topic message :=
    if topic = responseTypeName then
      ((ContractManager.step s (.handleContractDetailsResponse
        (wires.parseResponse message))).getD s, some true)
    else if topic = endTypeName then
      ((ContractManager.step s (.handleContractDetailsEnd
        (wires.ends.parseFromString message))).getD s, some true)
    else (s, some false)

/-! ### The system -/

/-- A request with the two readings of the clock that `atp::send` puts into it. -/
structure Stamped where
  timestamp : UInt64
  messageId : UInt64
  request : RequestContractDetails

def requestFrames (m : Stamped) : List Frame :=
  TypedMessage.frames ⟨requestTypeName, wires.serializeRequest m.timestamp m.messageId m.request⟩

def eventFrames : Event → List Frame
  | .details now p => TypedMessage.frames ⟨responseTypeName, wires.serializeResponse now p⟩
  | .finished e => TypedMessage.frames ⟨endTypeName, wires.ends.serializeToString e⟩

/-- The contract manager, the frames at the two sockets, whether the connector is connected
and the listener goes on, and the calls that the gateway has got.  Noted are the requests
that were sent, the events that were delivered to the listener's socket, and how many of
them have been handled. -/
structure State where
  manager : ContractManager.State
  toConnector : List Frame
  connected : Bool
  apiCalls : List ApiCall
  toListener : List Frame
  listening : Bool
  sent : List Stamped
  delivered : List Event
  handled : Nat

def init : State := ⟨ContractManager.init, [], false, [], [], true, [], [], 0⟩

def State.seen (s : State) : List Event := s.delivered.take s.handled

/-- The two halves of a request; the connection to the gateway; a turn of the connector; a
callback of the gateway, whose event may be dropped on its way; a turn of the listener. -/
inductive Action where
  | request (call : Nat) (id : Int32) (requested : Requested) (timestamp messageId : UInt64)
      (sent : Bool)
  | register (call : Nat)
  | connect
  | reactor
  | callback (now : UInt64) (c : Callback) (delivered : Bool)
  | listener

def deliver (s : State) (e : Event) : State :=
  { s with
    toListener := s.toListener ++ eventFrames wires e
    delivered := s.delivered ++ [e] }

def step (s : State) : Action → Option State
  | .request call id requested timestamp messageId sent =>
      let m : Stamped := ⟨timestamp, messageId, ⟨id.toUInt32, requested.contract⟩⟩
      (ContractManager.step s.manager (.requestContractDetails call id sent)).map fun manager =>
        if sent then
          { s with
            manager := manager
            toConnector := s.toConnector ++ requestFrames wires m
            sent := s.sent ++ [m] }
        else { s with manager := manager }
  | .register call =>
      (ContractManager.step s.manager (.register call)).map fun manager =>
        { s with manager := manager }
  | .connect => some { s with connected := true }
  | .reactor =>
      if s.connected then
        (connectorTurn (connector wires) s.apiCalls s.toConnector).map
          fun ((_, apiCalls), queue) => { s with apiCalls := apiCalls, toConnector := queue }
      else none
  | .callback now c delivered =>
      some (if delivered then ((event now c).map (deliver wires s)).getD s else s)
  | .listener =>
      if s.listening then
        (processorTurn (handlers wires) s.manager s.toListener).map
          fun ((manager, run), queue) =>
            { s with
              manager := manager
              toListener := queue
              listening := run
              handled := s.handled + 1 }
      else none

end

/-- The gateway ends only requests that it was given. -/
def Honest (s : State) : Action → Prop
  | .callback now c _ => ∀ e, event now c = some (.finished e) →
      ∃ api ∈ s.apiCalls, api.reqId = endKey e
  | _ => True

/-! ### The readers -/

/-- Contracts without an id are always converted. -/
theorem isSome_apiCall (id : UInt32) (requested : Requested) :
    (apiCall ⟨id, requested.contract⟩).isSome = true := by
  cases requested <;> rfl

section

variable (wires : Wires)

/-- A turn of the connector takes one request and makes the call for it. -/
theorem reads_connector (calls : List ApiCall) :
    Reads (requestFrames wires) (fun m => calls ++ (apiCall m.request).toList)
      (fun queue => (connectorTurn (connector wires) calls queue).map
        fun r => (r.1.2, r.2)) where
  whole m later := by
    have hparse := wires.parse_serializeRequest m.timestamp m.messageId m.request
    have hturn := connectorTurn_frames (connector wires)
      (m := ⟨requestTypeName, wires.serializeRequest m.timestamp m.messageId m.request⟩)
      ⟨show requestTypeName ≠ [] by decide, wires.serializeRequest_ne_nil _ _ _⟩
      (show [requestTypeName].contains requestTypeName = true by decide)
      (show requestTypeName ∈ handlerMap by decide) (by simp [connector, hparse]) calls later
    rw [requestFrames, hturn, Option.map_some]
    simp only [answer, connector, hparse, Option.isSome_some, Bool.not_true,
      Bool.false_eq_true, if_false, Option.bind_some]
    cases apiCall m.request <;> simp
  waits := rfl

/-- What the handler of an event makes of the manager. -/
def handle (s : ContractManager.State) : Event → ContractManager.State
  | .details _ p => (ContractManager.step s (.handleContractDetailsResponse (some p))).getD s
  | .finished e => (ContractManager.step s (.handleContractDetailsEnd (some e))).getD s

/-- A turn of the listener takes one event and handles it. -/
theorem reads_listener (manager : ContractManager.State) :
    Reads (eventFrames wires) (fun e => (handle manager e, true))
      (processorTurn (handlers wires) manager) where
  whole e later := by
    have hne : endTypeName ≠ responseTypeName := by decide
    cases e with
    | details now p =>
        have hturn := processorTurn_frames (handlers wires)
          (m := ⟨responseTypeName, wires.serializeResponse now p⟩)
          ⟨show responseTypeName ≠ [] by decide, wires.serializeResponse_ne_nil now p⟩
          manager later
        rw [eventFrames, hturn]
        simp [processRawMessage, handlers, wires.parse_serializeResponse, handle]
    | finished e =>
        have hturn := processorTurn_frames (handlers wires)
          (m := ⟨endTypeName, wires.ends.serializeToString e⟩)
          ⟨show endTypeName ≠ [] by decide, wires.serializeEnd_ne_nil e⟩ manager later
        rw [eventFrames, hturn]
        simp [processRawMessage, handlers, hne, handle]
  waits := rfl

end

/-! ### Runs -/

section

variable (wires : Wires)

/-- The connector has made the calls of the requests it has taken, and the manager is what
the events that were handled have made it. -/
structure Inv (s : State) (taken : List Stamped) : Prop where
  requests : Holds (requestFrames wires) s.sent taken s.toConnector
  converted : ∀ m ∈ s.sent, (apiCall m.request).isSome = true
  apiCalls : s.apiCalls = taken.filterMap fun m => apiCall m.request
  events : Holds (eventFrames wires) s.delivered s.seen s.toListener
  handled : s.handled ≤ s.delivered.length
  listening : s.listening = true
  futures : ∃ registered, PendingFutures.Fresh endKey s.manager.toState
    (s.seen.filterMap Event.finished?) registered
  stored : Stored s.manager
  details : s.manager.handled = (s.seen.filterMap Event.details?).reverse

variable {wires} {s s' : State} {taken : List Stamped}

theorem inv_init : Inv wires init [] where
  requests := holds_nil
  converted m hm := by cases hm
  apiCalls := rfl
  events := holds_nil
  handled := Nat.zero_le _
  listening := rfl
  futures := ⟨fun _ => 0, PendingFutures.fresh_init _⟩
  stored := stored_init
  details := rfl

theorem length_seen (hs : Inv wires s taken) : s.seen.length = s.handled := by
  rw [State.seen, List.length_take, Nat.min_eq_left hs.handled]

theorem Inv.request (hs : Inv wires s taken) {call : Nat} {id : Int32} {requested : Requested}
    {timestamp messageId : UInt64} {sent : Bool}
    (hstep : step wires s (.request call id requested timestamp messageId sent) = some s') :
    Inv wires s' taken := by
  obtain ⟨manager, hmanager, rfl⟩ := Option.map_eq_some_iff.mp hstep
  obtain ⟨hwire, hdetails, hhandled⟩ := stepFutures_eq_some_iff.mp hmanager
  obtain ⟨registered, hfresh⟩ := hs.futures
  have hfutures : ∃ registered, PendingFutures.Fresh endKey manager.toState
      (s.seen.filterMap Event.finished?) registered := ⟨registered, hfresh.wire hwire⟩
  have hstored : Stored manager := stored_of_step hs.stored hmanager
  have hlist : manager.handled = (s.seen.filterMap Event.details?).reverse :=
    hhandled.trans hs.details
  cases sent with
  | false => exact { hs with futures := hfutures, stored := hstored, details := hlist }
  | true =>
      refine { hs with
        requests := hs.requests.send _, converted := ?_, futures := hfutures, stored := hstored
        details := hlist }
      rw [if_pos rfl, List.forall_mem_append]
      exact ⟨hs.converted, List.forall_mem_singleton.mpr (isSome_apiCall _ requested)⟩

theorem Inv.register (hs : Inv wires s taken) {call : Nat}
    (hstep : step wires s (.register call) = some s') : Inv wires s' taken := by
  obtain ⟨manager, hmanager, rfl⟩ := Option.map_eq_some_iff.mp hstep
  obtain ⟨hregister, hdetails, hhandled⟩ := stepFutures_eq_some_iff.mp hmanager
  obtain ⟨registered, hfresh⟩ := hs.futures
  exact { hs with
    futures := ⟨_, hfresh.register hregister⟩
    stored := stored_of_step hs.stored hmanager
    details := hhandled.trans hs.details }

theorem Inv.reactor (hs : Inv wires s taken) (hstep : step wires s .reactor = some s') :
    ∃ m, Inv wires s' (taken ++ [m]) := by
  simp only [step] at hstep
  split_ifs at hstep
  obtain ⟨⟨⟨code, calls⟩, queue⟩, hturn, rfl⟩ := Option.map_eq_some_iff.mp hstep
  obtain ⟨m, rfl, hrequests⟩ := hs.requests.take (reads_connector wires s.apiCalls)
    (Option.map_eq_some_iff.mpr ⟨_, hturn, rfl⟩)
  refine ⟨m, { hs with requests := hrequests, apiCalls := ?_ }⟩
  rw [hs.apiCalls, List.filterMap_append]
  cases hcall : apiCall m.request <;> simp [hcall]

theorem Inv.publish (hs : Inv wires s taken) (e : Event) : Inv wires (deliver wires s e) taken := by
  have hseen : (deliver wires s e).seen = s.seen := List.take_append_of_le_length hs.handled
  refine { hs with events := ?_, handled := ?_, futures := ?_, details := ?_ }
  · rw [hseen]
    exact hs.events.send e
  · change s.handled ≤ (s.delivered ++ [e]).length
    rw [List.length_append]
    exact Nat.le_trans hs.handled (Nat.le_add_right _ _)
  · rw [hseen]
    exact hs.futures
  · rw [hseen]
    exact hs.details

/-- The handler of an event keeps the manager as it should be. -/
theorem handle_cases (manager : ContractManager.State) (e : Event) :
    ((handle manager e).handled = e.details?.toList ++ manager.handled) ∧
      (Stored manager → Stored (handle manager e)) ∧
      ∀ {handled : List ContractDetailsEnd} {registered : Nat → Nat},
        PendingFutures.Fresh endKey manager.toState handled registered →
          PendingFutures.Fresh endKey (handle manager e).toState
            (handled ++ e.finished?.toList) registered := by
  cases e with
  | details now p =>
      refine ⟨rfl, fun hstored => ?_, fun hfresh => ?_⟩
      · have hstep : ContractManager.step manager (.handleContractDetailsResponse (some p)) =
            some (handle manager (.details now p)) := rfl
        exact stored_of_step hstored hstep
      · change PendingFutures.Fresh endKey manager.toState (_ ++ []) _
        rw [List.append_nil]
        exact hfresh
  | finished e =>
      refine ⟨rfl, fun hstored => ?_, fun hfresh => ?_⟩
      · have hstep : ContractManager.step manager (.handleContractDetailsEnd (some e)) =
            some (handle manager (.finished e)) := rfl
        exact stored_of_step hstored hstep
      · exact hfresh.respond e

theorem Inv.listener (hs : Inv wires s taken) (hstep : step wires s .listener = some s') :
    Inv wires s' taken := by
  rw [step, if_pos hs.listening] at hstep
  obtain ⟨⟨⟨manager, run⟩, queue⟩, hturn, rfl⟩ := Option.map_eq_some_iff.mp hstep
  obtain ⟨e, heq, hevents⟩ := hs.events.take (reads_listener wires s.manager) hturn
  obtain ⟨rfl, rfl⟩ := Prod.mk.inj heq
  obtain ⟨hlist, hstored, hfutures⟩ := handle_cases s.manager e
  -- The event that was read is the next of those that were delivered.
  have hseen : s.delivered.take (s.handled + 1) = s.seen ++ [e] := by
    have hinitial := List.prefix_iff_eq_take.mp hevents.taken_isPrefix
    rw [List.length_append, length_seen hs, List.length_singleton] at hinitial
    exact hinitial.symm
  refine { hs with
    events := ?_, handled := ?_, listening := rfl, futures := ?_, stored := hstored hs.stored
    details := ?_ }
  · change Holds _ _ (s.delivered.take (s.handled + 1)) _
    rw [hseen]
    exact hevents
  · have hlength := hevents.taken_isPrefix.length_le
    rw [List.length_append, length_seen hs] at hlength
    exact hlength
  · obtain ⟨registered, hfresh⟩ := hs.futures
    refine ⟨registered, ?_⟩
    change PendingFutures.Fresh _ _ ((s.delivered.take (s.handled + 1)).filterMap _) _
    rw [hseen, List.filterMap_append]
    have hlast : [e].filterMap Event.finished? = e.finished?.toList := by
      cases e <;> rfl
    rw [hlast]
    exact hfutures hfresh
  · change (handle s.manager e).handled =
      ((s.delivered.take (s.handled + 1)).filterMap Event.details?).reverse
    have hlast : [e].filterMap Event.details? = e.details?.toList := by
      cases e <;> rfl
    rw [hlist, hs.details, hseen, List.filterMap_append, List.reverse_append, hlast]
    cases e <;> rfl

theorem inv_of_step (hs : Inv wires s taken) {action : Action}
    (hstep : step wires s action = some s') :
    ∃ taken', taken <+: taken' ∧ Inv wires s' taken' := by
  cases action with
  | request call id requested timestamp messageId sent =>
      exact ⟨taken, List.prefix_refl _, hs.request hstep⟩
  | register call => exact ⟨taken, List.prefix_refl _, hs.register hstep⟩
  | connect =>
      obtain rfl := Option.some.inj hstep
      exact ⟨taken, List.prefix_refl _, { hs with }⟩
  | reactor =>
      obtain ⟨m, hinv⟩ := hs.reactor hstep
      exact ⟨taken ++ [m], List.prefix_append _ _, hinv⟩
  | callback now c delivered =>
      obtain rfl := Option.some.inj hstep
      refine ⟨taken, List.prefix_refl _, ?_⟩
      split_ifs
      · cases event now c with
        | none => exact hs
        | some e => exact hs.publish e
      · exact hs
  | listener => exact ⟨taken, List.prefix_refl _, hs.listener hstep⟩

theorem inv_of_run {actions : List Action}
    (hrun : Runs.run (step wires) init actions = some s) : ∃ taken, Inv wires s taken := by
  apply Runs.inv_of_run (step wires) (P := fun s => ∃ taken, Inv wires s taken) _
    ⟨[], inv_init⟩ hrun
  rintro s action s' ⟨taken, hs⟩ hstep
  obtain ⟨taken', -, hs'⟩ := inv_of_step hs hstep
  exact ⟨taken', hs'⟩

end

def detailsWire : Wire ContractDetails :=
  open RecordWire OrderWire Wire in
  (uint64.pair (text.pair (contract.pair ((optional text).pair ((optional text).pair
      ((optional double).pair ((optional text).pair ((optional text).pair ((optional int32).pair
        ((optional int32).pair ((optional text).pair ((optional text).pair ((optional text).pair
          ((optional text).pair ((optional text).pair ((optional text).pair
            ((optional text).pair (optional text)))))))))))))))))).iso
    (fun ⟨f1, f2, f3, f4, f5, f6, f7, f8, f9, f10, f11, f12, f13, f14, f15, f16, f17, f18⟩ =>
      ⟨f1, f2, f3, f4, f5, f6, f7, f8, f9, f10, f11, f12, f13, f14, f15, f16, f17, f18⟩)
    (fun d => (d.id, d.symbol, d.summary, d.marketName, d.tradingClass, d.minTick, d.orderTypes,
      d.validExchanges, d.priceMagnifier, d.underConId, d.longName, d.contractMonth, d.industry,
      d.category, d.subcategory, d.timeZoneId, d.tradingHours, d.liquidHours))
    fun _ => rfl

def published (details : ContractDetails) : Option Published :=
  if h : details.symbol = ContractSymbol.symbolFromContract details.summary then
    some ⟨details, h⟩
  else none

def requestWire : Wire RequestContractDetails :=
  (RecordWire.uint32.pair OrderWire.contract).iso (fun f => ⟨f.1, f.2⟩)
    (fun r => (r.requestId, r.contract)) fun _ => rfl

def endWire : Wire ContractDetailsEnd :=
  (RecordWire.uint64.pair (RecordWire.uint64.pair RecordWire.uint32)).iso
    (fun f => ⟨f.1, f.2.1, f.2.2⟩) (fun e => (e.timestamp, e.messageId, e.requestId)) fun _ => rfl

/-- A message with its timestamp and its id in front. -/
def stampedWire {α : Type} (wire : Wire α) : Wire (UInt64 × UInt64 × α) :=
  RecordWire.uint64.pair (RecordWire.uint64.pair wire)

theorem stampedWire_ne_nil {α : Type} (wire : Wire α) (m : UInt64 × UInt64 × α) :
    (stampedWire wire).put m ≠ [] := by
  simp [stampedWire, Wire.pair, RecordWire.uint64, Wire.iso, Wire.nat]

def wires : Wires where
  serializeRequest timestamp messageId r := (stampedWire requestWire).put (timestamp, messageId, r)
  parseRequest bytes := ((stampedWire requestWire).parse bytes).map fun f => f.2.2
  parse_serializeRequest timestamp messageId r := by rw [Wire.parse_put]; rfl
  serializeRequest_ne_nil timestamp messageId r := stampedWire_ne_nil _ _
  serializeResponse now p := (stampedWire detailsWire).put (now, now, p.details)
  parseResponse bytes := ((stampedWire detailsWire).parse bytes).bind fun f => published f.2.2
  parse_serializeResponse now p := by
    rw [Wire.parse_put]
    exact dif_pos p.filed
  serializeResponse_ne_nil now p := stampedWire_ne_nil _ _
  ends := ⟨endWire.put, endWire.parse, endWire.parse_put⟩
  serializeEnd_ne_nil e := by
    simp [endWire, Wire.pair, RecordWire.uint64, Wire.iso, Wire.nat]

/-- A request whose details come in two messages, and one that the gateway refuses. -/
def lookup : List Action :=
  [.connect,
    .request 0 300 (.stock ['A']) 1 2 true,
    .register 0,
    .request 1 301 (.index ['B']) 3 4 true,
    .reactor,
    .callback 5 (.contractDetails 300
      { summary := { conId := 9, symbol := ['A'], secType := "STK".toList,
                     currency := "USD".toList } }) true,
    .listener,
    .callback 6 (.contractDetailsEnd 300) true,
    .reactor,
    .callback 7 (.error 301 200) true,
    .listener,
    .register 1,
    .listener]

end Atp.ContractFlow

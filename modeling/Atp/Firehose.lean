import Atp.ContractRegistry
import Atp.EventLog
import Atp.HistorianLoader
import Atp.MarketRequests
import Atp.OrderWire
import Atp.Runs
import Atp.TypedMessages

/-!
The firehose: sessions that take requests for market data, and callbacks of their gateways
that are published.  All sessions register contracts in one ticker map, in whatever order
their requests are taken.
-/

namespace Atp.Firehose

open EventLog HistorianLoader Links MarketRequests SocketConnector TypedMessages ZmqFrames

abbrev SessionId := UInt32

/-! ### The messages -/

/-- The messages of `FIREHOSE_VALID_MESSAGES_`. -/
inductive Message where
  | request (request : MarketRequests.Request)
  | cancelMarketData (contract : Contract)
  | cancelMarketDepth (contract : Contract)

namespace Message

def typeName : Message → Text
  | request (.marketData _) => "proto.ib.RequestMarketData".toList
  | request (.marketDepth _) => "proto.ib.RequestMarketDepth".toList
  | cancelMarketData _ => "proto.ib.CancelMarketData".toList
  | cancelMarketDepth _ => "proto.ib.CancelMarketDepth".toList

def contract : Message → Contract
  | request r => r.contract
  | cancelMarketData contract => contract
  | cancelMarketDepth contract => contract

/-- The contract that a message registers. -/
def registers : Message → Option IbContract
  | request r => marshall r.contract
  | cancelMarketData _ => none
  | cancelMarketDepth _ => none

end Message

def firehoseValidMessages : List Text :=
  ["proto.ib.RequestMarketData".toList, "proto.ib.RequestMarketDepth".toList,
    "proto.ib.CancelMarketData".toList, "proto.ib.CancelMarketDepth".toList]

/-- The protobuf library.  Nothing is parsed of the bytes of a message whose required
fields are not set. -/
structure Wires where
  serializeMessage : (timestamp messageId : UInt64) → Message → Text
  parseMessage : (typeName bytes : Text) → Option Message
  parse_serializeMessage : ∀ timestamp messageId m,
    parseMessage m.typeName (serializeMessage timestamp messageId m) = some m
  serializeMessage_ne_nil : ∀ timestamp messageId m, serializeMessage timestamp messageId m ≠ []

/-! ### The calls -/

inductive ApiCall where
  | request (call : EClientCall)
  | cancelMktData (tickerId : Int64)
  | cancelMktDepth (tickerId : Int64)

/-- What the sessions share, and the calls that their API clients have got. -/
structure Api where
  tickerMap : TickerMap
  calls : List (SessionId × ApiCall)

def Api.init : Api := ⟨.empty, []⟩

/-- `callApi` of the four messages.  A cancellation leaves the contract registered. -/
def Api.callApi (api : Api) (session : SessionId) : Message → Api × Bool
  | .request request =>
      let called := request.callApi api.tickerMap
      (⟨called.tickerMap, api.calls ++ called.calls.map fun call => (session, .request call)⟩,
        called.result)
  | .cancelMarketData contract =>
      ({ api with calls := api.calls ++ [(session, .cancelMktData contract.id.toInt64)] }, true)
  | .cancelMarketDepth contract =>
      ({ api with calls := api.calls ++ [(session, .cancelMktDepth contract.id.toInt64)] }, true)

/-- A callback of the gateway, with the time that the wrapper has tracked for it. -/
inductive Tick where
  | data (micros : UInt64) (callback : Callback)
  | depth (micros : UInt64) (callback : DepthCallback)

def Tick.tickerId : Tick → Int64
  | data _ callback => callback.tickerId
  | depth _ callback => callback.id

inductive Published where
  | data (v : MarketData)
  | depth (v : Depth)

namespace Published

def symbol : Published → Text
  | data v => v.symbol
  | depth v => v.symbol

def contractId : Published → UInt64
  | data v => v.contractId
  | depth v => v.contractId

end Published

/-- `publish` and `publishDepth`. -/
def publishTick (m : TickerMap) : Tick → Option Published
  | .data micros callback => (publish m micros callback).map .data
  | .depth micros callback => (publishDepth m micros callback).map .depth

/-! ### The system -/

/-- A message with the two readings of the clock that `atp::send` puts into it. -/
structure Stamped where
  timestamp : UInt64
  messageId : UInt64
  message : Message

section

variable (wires : Wires)

def connector (session : SessionId) : Connector Api (Option Message) where
  isMessageSupported key := firehoseValidMessages.contains key
  parseFromString := wires.parseMessage
  isInitialized := Option.isSome
  callApi api _ p := (p.map (api.callApi session)).getD (api, false)

def messageFrames (m : Stamped) : List Frame :=
  TypedMessage.frames
    ⟨m.message.typeName, wires.serializeMessage m.timestamp m.messageId m.message⟩

/-- The ticker map and the calls, of each session the frames at its socket and whether it is
connected, and what has been published.  Noted are the messages that were sent to each
session, and the callbacks. -/
structure State where
  api : Api
  toConnector : SessionId → List Frame
  connected : SessionId → Bool
  published : List Published
  sent : SessionId → List Stamped
  ticks : List Tick

def init : State := ⟨.init, fun _ => [], fun _ => false, [], fun _ => [], []⟩

/-- A client sends a message to a session; the session is connected to its gateway; a turn
of its connector; a callback of its gateway. -/
inductive Action where
  | send (session : SessionId) (m : Stamped)
  | connect (session : SessionId)
  | reactor (session : SessionId)
  | callback (session : SessionId) (tick : Tick)

def step (s : State) : Action → Option State
  | .send session m =>
      some { s with
        toConnector := Function.update s.toConnector session
          (s.toConnector session ++ messageFrames wires m)
        sent := Function.update s.sent session (s.sent session ++ [m]) }
  | .connect session => some { s with connected := Function.update s.connected session true }
  | .reactor session =>
      if s.connected session then
        (connectorTurn (connector wires session) s.api (s.toConnector session)).map
          fun ((_, api), queue) =>
            { s with
              api := api
              toConnector := Function.update s.toConnector session queue }
      else none
  | .callback _ tick =>
      some { s with
        published := s.published ++ (publishTick s.api.tickerMap tick).toList
        ticks := s.ticks ++ [tick] }

end

/-- A gateway calls back only for requests that it was given. -/
def Honest (s : State) : Action → Prop
  | .callback session tick =>
      ∃ call, (session, .request call) ∈ s.api.calls ∧ call.requestId = tick.tickerId
  | _ => True

/-! ### What is published, said without the ticker map -/

/-- The message of a callback under the given key. -/
def Tick.under (key : Text) : Tick → Published
  | data micros c => .data {
      timestamp := micros
      symbol := key
      event := c.fieldName
      value := c.value
      contractId := c.tickerId.toUInt64 }
  | depth micros c => .depth {
      timestamp := micros
      symbol := key
      contractId := c.id.toUInt64
      side := publishedSide c.side
      operation := publishedOperation c.operation
      level := c.position.toUInt32
      price := c.price
      size := c.size.toInt64.toUInt64
      mm := c.marketMaker.getD "L1".toList }

/-- The key of the contract that a call asks for under an id. -/
def ApiCall.keyFor (tickerId : Int64) : ApiCall → Option Text
  | request call =>
      if call.requestId = tickerId then some (TickerMap.symbolFromContract call.contract) else none
  | cancelMktData _ => none
  | cancelMktDepth _ => none

def keyOf (calls : List (SessionId × ApiCall)) (tickerId : Int64) : Option Text :=
  calls.findSome? fun call => call.2.keyFor tickerId

/-- What the messages make of the ticker map and the calls, taken one after the other. -/
def after (taken : List (SessionId × Stamped)) : Api :=
  taken.foldl (fun api m => (api.callApi m.1 m.2.message).1) .init

/-- The messages of one session. -/
def ofSession (session : SessionId) (taken : List (SessionId × Stamped)) : List Stamped :=
  (taken.filter fun m => m.1 = session).map Prod.snd

/-- Some message asked for a contract with that key, and with that id unless it had none. -/
def Asked (taken : List (SessionId × Stamped)) (p : Published) : Prop :=
  ∃ m ∈ taken, ∃ c, m.2.message.registers = some c ∧
    TickerMap.symbolFromContract c = p.symbol ∧ (c.conId = p.contractId.toInt64 ∨ c.conId = 0)

/-- A session has called its API for the contract, or the id of the contract has another
key. -/
def CalledOrRefused (api : Api) (session : SessionId) (c : IbContract) : Prop :=
  (∃ call, (session, .request call) ∈ api.calls ∧ call.contract = c) ∨
    ContractRegistry.Refused api.tickerMap c.conId (TickerMap.symbolFromContract c)

/-! ### The ticker map -/

/-- The ticker map knows keys of the given contracts only, at most one for each of them, and
none for the id zero. -/
structure Registered (m : TickerMap) (contracts : List IbContract) : Prop where
  keys : ∀ tickerId key, m.getSubscriptionKeyFromId tickerId = some key →
    ∃ c ∈ contracts, TickerMap.symbolFromContract c = key ∧ (c.conId = tickerId ∨ c.conId = 0)
  length : m.tickerIdContractMap.entries.length ≤ contracts.length
  zero : contracts.length < 2 ^ 63 → m.getSubscriptionKeyFromId 0 = none

theorem registered_empty : Registered .empty [] where
  keys tickerId key hkey := by cases hkey
  length := Nat.le_refl 0
  zero _ := rfl

theorem tickerIdOf_cases (m : TickerMap) (c : IbContract) :
    c.conId = m.tickerIdOf c ∨ c.conId = 0 := by
  by_cases hid : c.conId = 0
  · exact .inr hid
  · exact .inl (m.tickerIdOf_of_ne_zero hid).symm

/-- A number that is given to a contract without an id is not zero. -/
theorem tickerIdOf_ne_zero {m : TickerMap} (c : IbContract)
    (hlength : m.tickerIdContractMap.entries.length + 1 < 2 ^ 63) : m.tickerIdOf c ≠ 0 := by
  unfold TickerMap.tickerIdOf
  split_ifs with hid
  · intro hzero
    have hint := congrArg Int64.toInt hzero
    rw [Int64.toInt_ofInt_of_le (by omega) (by omega), Int64.toInt_zero] at hint
    omega
  · exact hid

theorem length_registerContract (m : TickerMap) (c : IbContract) :
    (m.registerContract c).2.tickerIdContractMap.entries.length ≤
      m.tickerIdContractMap.entries.length + 1 := by
  unfold TickerMap.registerContract
  dsimp only
  split
  · rw [AList.entries_insert, List.length_cons]
    exact Nat.succ_le_succ (List.kerase_sublist _ _).length_le
  · exact Nat.le_succ _

theorem Registered.register {m : TickerMap} {contracts : List IbContract}
    (hm : Registered m contracts) (c : IbContract) :
    Registered (m.registerContract c).2 (contracts ++ [c]) where
  keys tickerId key hkey := by
    rcases TickerMap.key_of_registerContract hkey with hkey | ⟨rfl, rfl⟩
    · obtain ⟨old, hold, hsymbol, hid⟩ := hm.keys tickerId key hkey
      exact ⟨old, List.mem_append_left _ hold, hsymbol, hid⟩
    · exact ⟨c, List.mem_append_right _ List.mem_cons_self, rfl, tickerIdOf_cases m c⟩
  length := by
    rw [List.length_append]
    exact (length_registerContract m c).trans (Nat.add_le_add_right hm.length 1)
  zero hlength := by
    rw [List.length_append, List.length_singleton] at hlength
    have hnone := hm.zero (Nat.lt_of_succ_lt hlength)
    apply Option.eq_none_iff_forall_not_mem.mpr
    intro key hkey
    rcases TickerMap.key_of_registerContract hkey with hkey | ⟨hid, -⟩
    · rw [hnone] at hkey
      cases hkey
    · have hlt := (Nat.add_le_add_right hm.length 1).trans_lt hlength
      exact tickerIdOf_ne_zero c hlt hid.symm

/-! ### What a message does -/

theorem tickerMap_callApi (api : Api) (session : SessionId) (m : Message) :
    (api.callApi session m).1.tickerMap =
      match m.registers with
      | none => api.tickerMap
      | some c => (api.tickerMap.registerContract c).2 := by
  cases m with
  | request request => cases request <;> exact tickerMap_callRegistered _ _ _
  | cancelMarketData contract => rfl
  | cancelMarketDepth contract => rfl

theorem key_callApi {api : Api} {tickerId : Int64} {key : Text}
    (hkey : api.tickerMap.getSubscriptionKeyFromId tickerId = some key) (session : SessionId)
    (m : Message) :
    (api.callApi session m).1.tickerMap.getSubscriptionKeyFromId tickerId = some key := by
  rw [tickerMap_callApi]
  cases m.registers with
  | none => exact hkey
  | some c => exact TickerMap.getSubscriptionKeyFromId_registerContract hkey c

theorem calls_isPrefix_callApi (api : Api) (session : SessionId) (m : Message) :
    api.calls <+: (api.callApi session m).1.calls := by
  cases m <;> exact List.prefix_append _ _

theorem mem_calls_callApi {api : Api} {session caller : SessionId} {m : Message}
    {call : EClientCall} (hcall : (caller, .request call) ∈ (api.callApi session m).1.calls) :
    (caller, .request call) ∈ api.calls ∨
      ∃ request, m = .request request ∧ call ∈ (request.callApi api.tickerMap).calls := by
  cases m with
  | request request =>
      refine (List.mem_append.mp hcall).imp_right fun hnew => ⟨request, rfl, ?_⟩
      obtain ⟨made, hmade, heq⟩ := List.mem_map.mp hnew
      obtain rfl := ApiCall.request.inj (Prod.mk.inj heq).2
      exact hmade
  | cancelMarketData contract =>
      refine .inl ((List.mem_append.mp hcall).resolve_right fun hnew => ?_)
      simp at hnew
  | cancelMarketDepth contract =>
      refine .inl ((List.mem_append.mp hcall).resolve_right fun hnew => ?_)
      simp at hnew

/-- All calls have the ids of their contracts, and are publishable if these are ones. -/
def AllPublishable (api : Api) : Prop :=
  ∀ session call, (session, .request call) ∈ api.calls →
    call.requestId = call.contract.conId ∧
      (call.requestId ≠ 0 → Publishable api.tickerMap call)

theorem AllPublishable.callApi {api : Api} (hapi : AllPublishable api) (session : SessionId)
    (m : Message) : AllPublishable (api.callApi session m).1 := by
  intro caller call hcall
  rcases mem_calls_callApi hcall with hold | ⟨request, rfl, hmade⟩
  · obtain ⟨hconId, hpublishable⟩ := hapi caller call hold
    exact ⟨hconId, fun hid => key_callApi (hpublishable hid) session m⟩
  · exact publishable_of_callApi hmade

/-- A request for a contract with an id is made if no other contract has the id. -/
theorem calledOrRefused_callApi (api : Api) (session : SessionId) {m : Message} {c : IbContract}
    (hc : m.registers = some c) (hid : 0 < c.conId) :
    CalledOrRefused (api.callApi session m).1 session c := by
  by_cases hrefused : ContractRegistry.Refused api.tickerMap c.conId
      (TickerMap.symbolFromContract c)
  · obtain ⟨other, hother, hne⟩ := hrefused
    exact .inr ⟨other, key_callApi hother session m, hne⟩
  · have hne : c.conId ≠ 0 := by
      intro hzero
      rw [hzero] at hid
      cases hid
    have htickerId := api.tickerMap.tickerIdOf_of_ne_zero hne
    rw [← htickerId] at hrefused hid
    have haccepted := (ContractRegistry.fst_registerContract_of_not_refused hrefused).1
    rw [← haccepted] at hid
    cases m with
    | request request =>
        have hcalls : ∃ call ∈ (request.callApi api.tickerMap).calls, call.contract = c := by
          cases request <;> exact ⟨_, mem_calls_callRegistered hc hid _, rfl⟩
        obtain ⟨call, hcall, hcontract⟩ := hcalls
        exact .inl ⟨call, List.mem_append_right _ (List.mem_map.mpr ⟨call, hcall, rfl⟩), hcontract⟩
    | cancelMarketData contract => cases hc
    | cancelMarketDepth contract => cases hc

theorem CalledOrRefused.callApi {api : Api} {session : SessionId} {c : IbContract}
    (h : CalledOrRefused api session c) (other : SessionId) (m : Message) :
    CalledOrRefused (api.callApi other m).1 session c := by
  rcases h with ⟨call, hcall, hcontract⟩ | ⟨key, hkey, hne⟩
  · exact .inl ⟨call, (calls_isPrefix_callApi api other m).subset hcall, hcontract⟩
  · exact .inr ⟨key, key_callApi hkey other m, hne⟩

theorem after_concat (taken : List (SessionId × Stamped)) (session : SessionId) (m : Stamped) :
    after (taken ++ [(session, m)]) = ((after taken).callApi session m.message).1 := by
  rw [after, List.foldl_append]
  rfl

theorem allPublishable_after (taken : List (SessionId × Stamped)) :
    AllPublishable (after taken) := by
  induction taken using List.reverseRecOn with
  | nil =>
      intro session call hcall
      cases hcall
  | append_singleton taken m ih =>
      obtain ⟨session, m⟩ := m
      rw [after_concat]
      exact ih.callApi session m.message

theorem calledOrRefused_after {taken : List (SessionId × Stamped)} {m : SessionId × Stamped}
    (hm : m ∈ taken) {c : IbContract} (hc : m.2.message.registers = some c)
    (hid : 0 < c.conId) : CalledOrRefused (after taken) m.1 c := by
  induction taken using List.reverseRecOn with
  | nil => cases hm
  | append_singleton taken last ih =>
      obtain ⟨session, last⟩ := last
      rw [after_concat]
      rcases List.mem_append.mp hm with hold | hnew
      · exact (ih hold).callApi session last.message
      · obtain rfl := List.mem_singleton.mp hnew
        exact calledOrRefused_callApi _ _ hc hid

theorem registered_after (taken : List (SessionId × Stamped)) :
    Registered (after taken).tickerMap (taken.filterMap fun m => m.2.message.registers) := by
  induction taken using List.reverseRecOn with
  | nil => exact registered_empty
  | append_singleton taken m ih =>
      obtain ⟨session, m⟩ := m
      rw [after_concat, tickerMap_callApi, List.filterMap_append]
      cases hc : m.message.registers with
      | none => simpa [hc] using ih
      | some c => simpa [hc] using ih.register c

/-! ### What is published -/

theorem publishTick_eq (m : TickerMap) (tick : Tick) :
    publishTick m tick = (m.getSubscriptionKeyFromId tick.tickerId).map tick.under := by
  cases tick with
  | data micros c => exact Option.map_map _ _ _
  | depth micros c => exact Option.map_map _ _ _

theorem contractId_under (tick : Tick) (key : Text) :
    (tick.under key).contractId = tick.tickerId.toUInt64 := by
  cases tick <;> rfl

theorem symbol_under (tick : Tick) (key : Text) : (tick.under key).symbol = key := by
  cases tick <;> rfl

theorem toUInt64_ne_zero_iff (tickerId : Int64) : tickerId.toUInt64 ≠ 0 ↔ tickerId ≠ 0 := by
  refine not_congr ⟨fun h => ?_, fun h => h ▸ rfl⟩
  rw [← Int64.toInt64_toUInt64 tickerId, h]
  rfl

theorem mem_calls_of_keyFor {tickerId : Int64} {call : ApiCall} {key : Text}
    (hkey : call.keyFor tickerId = some key) :
    ∃ request, call = .request request ∧ request.requestId = tickerId ∧
      TickerMap.symbolFromContract request.contract = key := by
  cases call with
  | request request =>
      unfold ApiCall.keyFor at hkey
      dsimp only at hkey
      split_ifs at hkey with hid
      exact ⟨request, rfl, hid, Option.some.inj hkey⟩
  | cancelMktData tickerId => cases hkey
  | cancelMktDepth tickerId => cases hkey

/-- The ticker map has the key of the contract that was asked for with an id. -/
theorem getSubscriptionKeyFromId_eq_keyOf {api : Api} (hapi : AllPublishable api)
    {session : SessionId} {call : EClientCall} (hcall : (session, .request call) ∈ api.calls)
    (hid : call.requestId ≠ 0) :
    api.tickerMap.getSubscriptionKeyFromId call.requestId = keyOf api.calls call.requestId := by
  have hsome : (keyOf api.calls call.requestId).isSome = true := by
    rw [keyOf, List.findSome?_isSome_iff]
    refine ⟨_, hcall, ?_⟩
    rw [ApiCall.keyFor, if_pos rfl]
    rfl
  obtain ⟨key, hkey⟩ := Option.isSome_iff_exists.mp hsome
  obtain ⟨⟨other, made⟩, hmade, hkeyFor⟩ := List.exists_of_findSome?_eq_some hkey
  obtain ⟨request, rfl, hrequest, rfl⟩ := mem_calls_of_keyFor hkeyFor
  rw [hkey, ← hrequest]
  exact (hapi other request hmade).2 (hrequest ▸ hid)

/-! ### Runs -/

section

variable (wires : Wires)

theorem typeName_mem_firehoseValidMessages (m : Message) :
    m.typeName ∈ firehoseValidMessages := by
  cases m with
  | request request =>
      cases request with
      | marketData proto => exact List.mem_cons_self
      | marketDepth proto => exact List.mem_cons_of_mem _ List.mem_cons_self
  | cancelMarketData contract =>
      exact List.mem_cons_of_mem _ (List.mem_cons_of_mem _ List.mem_cons_self)
  | cancelMarketDepth contract =>
      exact List.mem_cons_of_mem _ (List.mem_cons_of_mem _
        (List.mem_cons_of_mem _ List.mem_cons_self))

theorem handled_firehoseValidMessages :
    ∀ key ∈ firehoseValidMessages, key ∈ handlerMap ∧ key ≠ [] := by
  decide

/-- A turn of a session's connector takes one message and makes the call for it. -/
theorem reads_connector (session : SessionId) (api : Api) :
    Reads (messageFrames wires) (fun m => (api.callApi session m.message).1)
      (fun queue => (connectorTurn (connector wires session) api queue).map
        fun r => (r.1.2, r.2)) where
  whole m later := by
    have hvalid := typeName_mem_firehoseValidMessages m.message
    obtain ⟨hhandled, hne⟩ := handled_firehoseValidMessages _ hvalid
    have hparse := wires.parse_serializeMessage m.timestamp m.messageId m.message
    have hturn := connectorTurn_frames (connector wires session)
      (m := ⟨m.message.typeName, wires.serializeMessage m.timestamp m.messageId m.message⟩)
      ⟨hne, wires.serializeMessage_ne_nil _ _ _⟩ (List.contains_iff_mem.mpr hvalid) hhandled
      (by simp [connector, hparse]) api later
    rw [messageFrames, hturn, Option.map_some]
    simp [answer, connector, hparse]
  waits := rfl

theorem ofSession_concat_self (session : SessionId) (taken : List (SessionId × Stamped))
    (m : Stamped) :
    ofSession session (taken ++ [(session, m)]) = ofSession session taken ++ [m] := by
  simp [ofSession]

theorem ofSession_concat_ne {session other : SessionId} (hne : other ≠ session)
    (taken : List (SessionId × Stamped)) (m : Stamped) :
    ofSession other (taken ++ [(session, m)]) = ofSession other taken := by
  simp [ofSession, hne.symm]

/-- Of each session a first part of its messages has been taken, the ticker map and the
calls are what all of these have made, and what is published has the keys that the ticker
map still has. -/
structure Inv (s : State) (taken : List (SessionId × Stamped)) : Prop where
  messages : ∀ session, Holds (messageFrames wires) (s.sent session) (ofSession session taken)
    (s.toConnector session)
  api : s.api = after taken
  published : ∀ p ∈ s.published,
    s.api.tickerMap.getSubscriptionKeyFromId p.contractId.toInt64 = some p.symbol

variable {wires} {s s' : State} {taken : List (SessionId × Stamped)}

theorem inv_init : Inv wires init [] where
  messages _ := holds_nil
  api := rfl
  published p hp := by cases hp

theorem Inv.send (hs : Inv wires s taken) {session : SessionId} {m : Stamped}
    (hstep : step wires s (.send session m) = some s') : Inv wires s' taken := by
  obtain rfl := Option.some.inj hstep
  refine { hs with messages := fun other => ?_ }
  dsimp only
  by_cases hother : other = session
  · subst hother
    rw [Function.update_self, Function.update_self]
    exact (hs.messages other).send m
  · rw [Function.update_of_ne hother, Function.update_of_ne hother]
    exact hs.messages other

theorem Inv.reactor (hs : Inv wires s taken) {session : SessionId}
    (hstep : step wires s (.reactor session) = some s') :
    ∃ m, Inv wires s' (taken ++ [(session, m)]) ∧ s'.ticks = s.ticks ∧
      s'.published = s.published ∧ s'.api = (s.api.callApi session m.message).1 := by
  simp only [step] at hstep
  split_ifs at hstep
  obtain ⟨⟨⟨code, api⟩, queue⟩, hturn, rfl⟩ := Option.map_eq_some_iff.mp hstep
  obtain ⟨m, rfl, hmessages⟩ := (hs.messages session).take (reads_connector wires session s.api)
    (Option.map_eq_some_iff.mpr ⟨_, hturn, rfl⟩)
  refine ⟨m, ⟨fun other => ?_, ?_, fun p hp => ?_⟩, rfl, rfl, rfl⟩
  · dsimp only
    by_cases hother : other = session
    · subst hother
      rw [Function.update_self, ofSession_concat_self]
      exact hmessages
    · rw [Function.update_of_ne hother, ofSession_concat_ne hother]
      exact hs.messages other
  · rw [after_concat, ← hs.api]
  · exact key_callApi (hs.published p hp) session m.message

theorem Inv.callback (hs : Inv wires s taken) {session : SessionId} {tick : Tick}
    (hstep : step wires s (.callback session tick) = some s') : Inv wires s' taken := by
  obtain rfl := Option.some.inj hstep
  refine { hs with published := fun p hp => ?_ }
  rcases List.mem_append.mp hp with hold | hnew
  · exact hs.published p hold
  · rw [Option.mem_toList, publishTick_eq] at hnew
    obtain ⟨key, hkey, rfl⟩ := Option.map_eq_some_iff.mp hnew
    rw [contractId_under, symbol_under, Int64.toInt64_toUInt64]
    exact hkey

theorem inv_of_step (hs : Inv wires s taken) {action : Action}
    (hstep : step wires s action = some s') : ∃ taken', Inv wires s' taken' := by
  cases action with
  | send session m => exact ⟨taken, hs.send hstep⟩
  | connect session =>
      obtain rfl := Option.some.inj hstep
      exact ⟨taken, { hs with }⟩
  | reactor session =>
      obtain ⟨m, hinv, -⟩ := hs.reactor hstep
      exact ⟨_, hinv⟩
  | callback session tick => exact ⟨taken, hs.callback hstep⟩

/-- What was sent to a session stays sent. -/
theorem sent_isPrefix_of_step {action : Action} (hstep : step wires s action = some s')
    (session : SessionId) : s.sent session <+: s'.sent session := by
  cases action with
  | send other m =>
      obtain rfl := Option.some.inj hstep
      dsimp only
      by_cases hother : session = other
      · subst hother
        rw [Function.update_self]
        exact List.prefix_append _ _
      · rw [Function.update_of_ne hother]
  | connect other =>
      obtain rfl := Option.some.inj hstep
      exact List.prefix_refl _
  | reactor other =>
      simp only [step] at hstep
      split_ifs at hstep
      obtain ⟨r, -, rfl⟩ := Option.map_eq_some_iff.mp hstep
      exact List.prefix_refl _
  | callback other tick =>
      obtain rfl := Option.some.inj hstep
      exact List.prefix_refl _

theorem inv_of_run {actions : List Action}
    (hrun : Runs.run (step wires) init actions = some s) : ∃ taken, Inv wires s taken := by
  apply Runs.inv_of_run (step wires) (P := fun s => ∃ taken, Inv wires s taken) _
    ⟨[], inv_init⟩ hrun
  rintro s action s' ⟨taken, hs⟩ hstep
  exact inv_of_step hs hstep

/-- A connected session waits only when it has taken all of its messages. -/
theorem Inv.ofSession_eq_of_waits (hs : Inv wires s taken) {session : SessionId}
    (hconnected : s.connected session = true) (hwaits : step wires s (.reactor session) = none) :
    ofSession session taken = s.sent session := by
  rw [step, if_pos hconnected, Option.map_eq_none_iff] at hwaits
  exact (hs.messages session).eq_of_waits (reads_connector wires session s.api)
    (Option.map_eq_none_iff.mpr hwaits)

theorem Inv.calledOrRefused (hs : Inv wires s taken) {m : SessionId × Stamped} (hm : m ∈ taken)
    {c : IbContract} (hc : m.2.message.registers = some c) (hid : 0 < c.conId) :
    CalledOrRefused s.api m.1 c := by
  rw [hs.api]
  exact calledOrRefused_after hm hc hid

theorem Inv.allPublishable (hs : Inv wires s taken) : AllPublishable s.api := by
  rw [hs.api]
  exact allPublishable_after taken

theorem Inv.asked (hs : Inv wires s taken) {p : Published} (hp : p ∈ s.published) :
    Asked taken p := by
  have hkey := hs.published p hp
  rw [hs.api] at hkey
  obtain ⟨c, hc, hsymbol, hid⟩ := (registered_after taken).keys _ _ hkey
  obtain ⟨m, hm, hregisters⟩ := List.mem_filterMap.mp hc
  exact ⟨m, hm, c, hregisters, hsymbol, hid⟩

/-- Nothing is published for requests without an id. -/
theorem Inv.contractId_ne_zero (hs : Inv wires s taken) (hlength : taken.length < 2 ^ 63)
    {p : Published} (hp : p ∈ s.published) : p.contractId ≠ 0 := by
  intro hzero
  have hkey := hs.published p hp
  have hfew := (List.length_filterMap_le (fun m => m.2.message.registers) taken).trans_lt hlength
  rw [hzero, hs.api] at hkey
  cases ((registered_after taken).zero hfew).symm.trans hkey

/-! ### Honest gateways -/

/-- The callbacks with ids were asked for, and each has been published, in order, as it
still would be. -/
structure Answered (s : State) : Prop where
  asked : ∀ tick ∈ s.ticks, tick.tickerId ≠ 0 →
    ∃ session call, (session, .request call) ∈ s.api.calls ∧ call.requestId = tick.tickerId
  published : (s.published.filter fun p => p.contractId ≠ 0).map some =
    (s.ticks.filter fun tick => tick.tickerId ≠ 0).map fun tick =>
      publishTick s.api.tickerMap tick

theorem answered_init : Answered init where
  asked tick htick := by cases htick
  published := rfl

theorem publishTick_of_asked {api : Api} (hapi : AllPublishable api) {session : SessionId}
    {call : EClientCall} (hcall : (session, .request call) ∈ api.calls) {tick : Tick}
    (hid : call.requestId = tick.tickerId) (hne : tick.tickerId ≠ 0) :
    publishTick api.tickerMap tick =
      some (tick.under (TickerMap.symbolFromContract call.contract)) := by
  have hkey := (hapi session call hcall).2 (hid ▸ hne)
  rw [publishTick_eq, ← hid, hkey]
  rfl

theorem Answered.callApi (hanswered : Answered s) (hs : Inv wires s taken)
    {session : SessionId} {m : Stamped}
    (hs' : Inv wires s' (taken ++ [(session, m)])) (hticks : s'.ticks = s.ticks)
    (hpublished : s'.published = s.published)
    (hapi : s'.api = (s.api.callApi session m.message).1) : Answered s' := by
  have hcalls : s.api.calls ⊆ s'.api.calls := by
    rw [hapi]
    exact (calls_isPrefix_callApi s.api session m.message).subset
  refine ⟨fun tick htick hne => ?_, ?_⟩
  · rw [hticks] at htick
    obtain ⟨caller, call, hcall, hid⟩ := hanswered.asked tick htick hne
    exact ⟨caller, call, hcalls hcall, hid⟩
  · rw [hpublished, hticks, hanswered.published]
    apply List.map_congr_left
    intro tick htick
    obtain ⟨hmem, hne⟩ := List.mem_filter.mp htick
    replace hne := of_decide_eq_true hne
    obtain ⟨caller, call, hcall, hid⟩ := hanswered.asked tick hmem hne
    rw [publishTick_of_asked hs.allPublishable hcall hid hne,
      publishTick_of_asked hs'.allPublishable (hcalls hcall) hid hne]

theorem Answered.callback (hanswered : Answered s) (hs : Inv wires s taken)
    {session : SessionId} {tick : Tick} (hhonest : Honest s (.callback session tick))
    (hstep : step wires s (.callback session tick) = some s') : Answered s' := by
  obtain rfl := Option.some.inj hstep
  obtain ⟨call, hcall, hid⟩ := hhonest
  refine ⟨fun t ht hne => ?_, ?_⟩
  · rcases List.mem_append.mp ht with hold | hnew
    · exact hanswered.asked t hold hne
    · obtain rfl := List.mem_singleton.mp hnew
      exact ⟨session, call, hcall, hid⟩
  · dsimp only
    rw [List.filter_append, List.filter_append, List.map_append, List.map_append,
      hanswered.published, List.append_right_inj]
    by_cases hne : tick.tickerId = 0
    · rw [publishTick_eq]
      cases s.api.tickerMap.getSubscriptionKeyFromId tick.tickerId with
      | none => simp [hne]
      | some key =>
          have hzero : (tick.under key).contractId = 0 := by
            rw [contractId_under, hne]
            rfl
          simp [hne, hzero]
    · have hpublish := publishTick_of_asked hs.allPublishable hcall hid hne
      have hcontract := (toUInt64_ne_zero_iff tick.tickerId).mpr hne
      simp [hpublish, hne, contractId_under, hcontract]

theorem answered_of_run {actions : List Action}
    (hhonest : Runs.Throughout (step wires) Honest init actions)
    (hrun : Runs.run (step wires) init actions = some s) : Answered s := by
  have hboth := Runs.inv_of_throughout (step wires)
    (P := fun s => (∃ taken, Inv wires s taken) ∧ Answered s) (C := Honest) ?_
    ⟨⟨[], inv_init⟩, answered_init⟩ hhonest hrun
  · exact hboth.2
  · rintro s action s' ⟨⟨taken, hs⟩, hanswered⟩ haction hstep
    refine ⟨inv_of_step hs hstep, ?_⟩
    cases action with
    | send session m =>
        obtain rfl := Option.some.inj hstep
        exact { hanswered with }
    | connect session =>
        obtain rfl := Option.some.inj hstep
        exact { hanswered with }
    | reactor session =>
        obtain ⟨m, hs', hticks, hpublished, hapi⟩ := hs.reactor hstep
        exact hanswered.callApi hs hs' hticks hpublished hapi
    | callback session tick => exact hanswered.callback hs haction hstep

end

/-- However the clients, the sessions and their gateways are interleaved: the messages were
taken in some order, of each session a first part of those sent to it, and all of them when
it is connected and waits; the calls and the ticker map are what these messages make one
after the other, and of a request for a contract with an id either the call is made or the id
has another key.  What is published has the key of a contract that was asked for, and never
two keys for one id; a call with an id stays publishable under its own contract.  If the
gateways call back only for requests that they were given, the callbacks with ids are
published one by one and in order under the key of the contract that was asked for. -/
theorem ticks_of_requests (wires : Wires) {actions : List Action} {s : State}
    (hrun : Runs.run (step wires) init actions = some s) :
    (∃ taken : List (SessionId × Stamped),
      (∀ session, ofSession session taken <+: s.sent session ∧
        (s.connected session = true → step wires s (.reactor session) = none →
          ofSession session taken = s.sent session)) ∧
      s.api = after taken ∧
      (∀ m ∈ taken, ∀ c, m.2.message.registers = some c → 0 < c.conId →
        CalledOrRefused s.api m.1 c) ∧
      (∀ p ∈ s.published, Asked taken p) ∧
      (taken.length < 2 ^ 63 → ∀ p ∈ s.published, p.contractId ≠ 0)) ∧
    (∀ p ∈ s.published, ∀ q ∈ s.published, p.contractId = q.contractId → p.symbol = q.symbol) ∧
    (∀ session call, (session, .request call) ∈ s.api.calls →
      call.requestId = call.contract.conId ∧
        (call.requestId ≠ 0 → Publishable s.api.tickerMap call)) ∧
    (Runs.Throughout (step wires) Honest init actions →
      (s.published.filter fun p => p.contractId ≠ 0).map some =
        (s.ticks.filter fun tick => tick.tickerId ≠ 0).map fun tick =>
          (keyOf s.api.calls tick.tickerId).map tick.under) := by
  obtain ⟨taken, hs⟩ := inv_of_run hrun
  refine ⟨⟨taken, fun session => ⟨(hs.messages session).taken_isPrefix, ?_⟩, hs.api,
    fun m hm c hc hid => hs.calledOrRefused hm hc hid, fun p hp => hs.asked hp,
    fun hlength p hp => hs.contractId_ne_zero hlength hp⟩, ?_, hs.allPublishable, ?_⟩
  · intro hconnected hwaits
    exact hs.ofSession_eq_of_waits hconnected hwaits
  · intro p hp q hq hid
    have hkey := hs.published p hp
    rw [hid, hs.published q hq] at hkey
    exact (Option.some.inj hkey).symm
  · intro hhonest
    have hanswered := answered_of_run hhonest hrun
    rw [hanswered.published]
    apply List.map_congr_left
    intro tick htick
    obtain ⟨hmem, hne⟩ := List.mem_filter.mp htick
    replace hne := of_decide_eq_true hne
    obtain ⟨session, call, hcall, hid⟩ := hanswered.asked tick hmem hne
    rw [publishTick_eq, ← hid,
      getSubscriptionKeyFromId_eq_keyOf hs.allPublishable hcall (hid ▸ hne)]

/-- The fields of a message after the two readings of the clock. -/
def messageFields : Message → Text
  | .request (.marketData p) =>
      (OrderWire.contract.pair ((Wire.optional Wire.text).pair (Wire.optional OrderWire.bool))).put
        (p.contract, p.tickTypes, p.snapshot)
  | .request (.marketDepth p) =>
      (OrderWire.contract.pair (Wire.optional RecordWire.uint32)).put (p.contract, p.rows)
  | .cancelMarketData contract => OrderWire.contract.put contract
  | .cancelMarketDepth contract => OrderWire.contract.put contract

def parseFields (typeName fields : Text) : Option Message :=
  if typeName = "proto.ib.RequestMarketData".toList then
    ((OrderWire.contract.pair
      ((Wire.optional Wire.text).pair (Wire.optional OrderWire.bool))).parse fields).map fun f =>
        .request (.marketData ⟨f.1, f.2.1, f.2.2⟩)
  else if typeName = "proto.ib.RequestMarketDepth".toList then
    ((OrderWire.contract.pair (Wire.optional RecordWire.uint32)).parse fields).map fun f =>
      .request (.marketDepth ⟨f.1, f.2⟩)
  else if typeName = "proto.ib.CancelMarketData".toList then
    (OrderWire.contract.parse fields).map .cancelMarketData
  else if typeName = "proto.ib.CancelMarketDepth".toList then
    (OrderWire.contract.parse fields).map .cancelMarketDepth
  else none

theorem parseFields_messageFields (m : Message) :
    parseFields m.typeName (messageFields m) = some m := by
  have hdepth : "proto.ib.RequestMarketDepth".toList ≠ "proto.ib.RequestMarketData".toList := by
    decide
  have hcancel : "proto.ib.CancelMarketData".toList ≠ "proto.ib.RequestMarketData".toList ∧
      "proto.ib.CancelMarketData".toList ≠ "proto.ib.RequestMarketDepth".toList := by decide
  have hcancelDepth :
      "proto.ib.CancelMarketDepth".toList ≠ "proto.ib.RequestMarketData".toList ∧
      "proto.ib.CancelMarketDepth".toList ≠ "proto.ib.RequestMarketDepth".toList ∧
      "proto.ib.CancelMarketDepth".toList ≠ "proto.ib.CancelMarketData".toList := by decide
  cases m with
  | request request =>
      cases request with
      | marketData p => exact (if_pos rfl).trans (congrArg (Option.map _) (Wire.parse_put _ _))
      | marketDepth p =>
          apply (if_neg hdepth).trans
          exact (if_pos rfl).trans (congrArg (Option.map _) (Wire.parse_put _ _))
  | cancelMarketData contract =>
      apply (if_neg hcancel.1).trans
      apply (if_neg hcancel.2).trans
      exact (if_pos rfl).trans (congrArg (Option.map _) (Wire.parse_put _ _))
  | cancelMarketDepth contract =>
      apply (if_neg hcancelDepth.1).trans
      apply (if_neg hcancelDepth.2.1).trans
      apply (if_neg hcancelDepth.2.2).trans
      exact (if_pos rfl).trans (congrArg (Option.map _) (Wire.parse_put _ _))

def wires : Wires where
  serializeMessage timestamp messageId m :=
    (RecordWire.uint64.pair (RecordWire.uint64.pair Wire.text)).put
      (timestamp, messageId, messageFields m)
  parseMessage typeName bytes :=
    ((RecordWire.uint64.pair (RecordWire.uint64.pair Wire.text)).parse bytes).bind fun f =>
      parseFields typeName f.2.2
  parse_serializeMessage timestamp messageId m := by
    rw [Wire.parse_put, Option.bind_some, parseFields_messageFields]
  serializeMessage_ne_nil timestamp messageId m := by
    simp [Wire.pair, RecordWire.uint64, Wire.iso, Wire.nat]

/-- Two sessions ask for market data; the second also asks under the same id for another
contract, and then cancels. -/
def quotes : List Action :=
  [.connect 1,
    .connect 2,
    .send 1 ⟨1, 2, .request (.marketData { contract := { id := 9, symbol := ['A'] } })⟩,
    .send 2 ⟨3, 4, .request (.marketDepth { contract := { id := 9, symbol := ['A'] } })⟩,
    .reactor 2,
    .callback 2 (.depth 5 ⟨9, 0, none, 0, 1, ⟨0⟩, 100⟩),
    .reactor 1,
    .callback 1 (.data 6 ⟨9, .bid, .tickPrice ⟨0⟩ 1⟩),
    .send 2 ⟨7, 8, .request (.marketData { contract := { id := 9, symbol := ['B'] } })⟩,
    .reactor 2,
    .send 2 ⟨9, 10, .cancelMarketDepth { id := 9, symbol := ['A'] }⟩,
    .reactor 2]

theorem ticks_of_requests_quotes :
    ∃ s, Runs.run (step wires) init quotes = some s ∧ s.published.length = 2 ∧
      s.api.calls.length = 3 ∧
      (∀ p ∈ s.published, ∀ q ∈ s.published, p.contractId = q.contractId → p.symbol = q.symbol) ∧
      ∀ session call, (session, .request call) ∈ s.api.calls →
        call.requestId = call.contract.conId ∧
          (call.requestId ≠ 0 → Publishable s.api.tickerMap call) := by
  have hlength : (Runs.run (step wires) init quotes).map
      (fun s => (s.published.length, s.api.calls.length)) = some (2, 3) := by decide +kernel
  obtain ⟨s, hs, hlengths⟩ := Option.map_eq_some_iff.mp hlength
  obtain ⟨hpublished, hcalls⟩ := Prod.mk.inj hlengths
  obtain ⟨-, hkeys, hcalled, -⟩ := ticks_of_requests wires hs
  exact ⟨s, hs, hpublished, hcalls, hkeys, hcalled⟩

end Atp.Firehose

import Atp.ContractSymbol
import Atp.TickerMap

/-!
The calls that the requests for market data and market depth make to the API.
The request id is the contract's id, while the contract is registered under an id
of the ticker map; the two are the same unless the contract has no id.
-/

namespace Atp.MarketRequests

/-- The security type, where the contract has all that its type requires.  An
option without an id is a query. -/
def secTypeOf (p : Contract) : Option Text :=
  match p.getType with
  | .index => some "IND".toList
  | .stock => some "STK".toList
  | .option =>
      if p.id = 0 then some "OPT".toList
      else if !p.right.isSome || !p.strike.isSome || !p.expiry.isSome ||
          p.getMultiplier < 100 then none
      else some "OPT".toList

def currencyText (m : Money) : Text :=
  match m.currency.getD .other with
  | .usd => "USD".toList
  | .other => []

/-- The contract of a message, but for its security type. -/
def contractOf (p : Contract) (secType : Text) : IbContract where
  conId := p.id.toInt64
  symbol := p.symbol
  secType := secType
  exchange := p.getExchange
  localSymbol := p.localSymbol.getD []
  right := (p.right.map ContractSymbol.rightText).getD []
  strike := (p.strike.map Money.amount).getD ⟨0⟩
  currency := (p.strike.map currencyText).getD []
  expiry := (p.expiry.map fun e => ContractSymbol.formatExpiry e.year e.month e.day).getD []

/-- `operator<<` on a new contract, where it returns true. -/
def marshall (p : Contract) : Option IbContract := (secTypeOf p).map (contractOf p)

/-- The calls to the API client. -/
inductive EClientCall where
  | reqMktData (requestId : Int64) (contract : IbContract) (genericTicks : Text)
      (snapshot : Bool)
  | reqMktDepth (requestId : Int64) (contract : IbContract) (numRows : Int32)

namespace EClientCall

def requestId : EClientCall → Int64
  | reqMktData requestId _ _ _ => requestId
  | reqMktDepth requestId _ _ => requestId

def contract : EClientCall → IbContract
  | reqMktData _ contract _ _ => contract
  | reqMktDepth _ contract _ => contract

end EClientCall

structure Called where
  result : Bool
  tickerMap : TickerMap
  calls : List EClientCall

/-- A request on a contract: it is registered, and the call is made if the
registration gave a ticker id. -/
def callRegistered (m : TickerMap) (p : Contract)
    (call : (requestId : Int64) → IbContract → EClientCall) : Called :=
  let requestId := p.id.toInt64
  match marshall p with
  | none => ⟨false, m, []⟩
  | some c =>
      let (tickerId, registered) := m.registerContract c
      if tickerId > 0 then ⟨true, registered, [call requestId c]⟩
      else ⟨false, registered, []⟩

def callMarketData (m : TickerMap) (proto : RequestMarketData) : Called :=
  callRegistered m proto.contract fun requestId c =>
    .reqMktData requestId c (proto.tickTypes.getD []) (proto.snapshot.getD false)

def callMarketDepth (m : TickerMap) (proto : RequestMarketDepth) : Called :=
  callRegistered m proto.contract fun requestId c =>
    .reqMktDepth requestId c (proto.rows.getD 20).toInt32

/-- The two messages that ask for ticks of a contract. -/
inductive Request where
  | marketData (proto : RequestMarketData)
  | marketDepth (proto : RequestMarketDepth)

namespace Request

def contract : Request → Contract
  | marketData proto => proto.contract
  | marketDepth proto => proto.contract

def callApi (m : TickerMap) : Request → Called
  | marketData proto => callMarketData m proto
  | marketDepth proto => callMarketDepth m proto

end Request

/-- Ticks with the id of the call are published under the symbol of its contract. -/
def Publishable (m : TickerMap) (call : EClientCall) : Prop :=
  m.getSubscriptionKeyFromId call.requestId =
    some (TickerMap.symbolFromContract call.contract)

/-! ### What a call leaves behind -/

theorem conId_of_marshall {p : Contract} {c : IbContract} (hc : marshall p = some c) :
    c.conId = p.id.toInt64 := by
  obtain ⟨secType, -, rfl⟩ := Option.map_eq_some_iff.mp hc
  rfl

theorem callRegistered_of_result {m : TickerMap} {p : Contract}
    {call : Int64 → IbContract → EClientCall}
    (hresult : (callRegistered m p call).result = true) :
    ∃ c, marshall p = some c ∧ (callRegistered m p call).calls = [call p.id.toInt64 c] ∧
      (callRegistered m p call).tickerMap = (m.registerContract c).2 ∧
      0 < (m.registerContract c).1 := by
  unfold callRegistered at hresult ⊢
  dsimp only at hresult ⊢
  split at hresult
  · cases hresult
  · rename_i c hc
    split_ifs at hresult with haccepted
    · rw [hc]
      refine ⟨c, rfl, ?_, ?_, haccepted⟩
      · rw [if_pos haccepted]
      · rw [if_pos haccepted]

theorem callApi_of_result {m : TickerMap} {request : Request}
    (hresult : (request.callApi m).result = true) :
    ∃ call, (request.callApi m).calls = [call] ∧
      call.requestId = request.contract.id.toInt64 ∧
      marshall request.contract = some call.contract ∧
      (request.callApi m).tickerMap = (m.registerContract call.contract).2 ∧
      0 < (m.registerContract call.contract).1 := by
  cases request with
  | marketData proto =>
      obtain ⟨c, hc, hcalls, hmap, haccepted⟩ := callRegistered_of_result hresult
      exact ⟨_, hcalls, rfl, hc, hmap, haccepted⟩
  | marketDepth proto =>
      obtain ⟨c, hc, hcalls, hmap, haccepted⟩ := callRegistered_of_result hresult
      exact ⟨_, hcalls, rfl, hc, hmap, haccepted⟩

/-- An accepted contract is registered under another number than zero. -/
theorem getSubscriptionKeyFromId_zero {m : TickerMap} {c : IbContract}
    (haccepted : 0 < (m.registerContract c).1) :
    (m.registerContract c).2.getSubscriptionKeyFromId 0 = m.getSubscriptionKeyFromId 0 := by
  unfold TickerMap.getSubscriptionKeyFromId
  unfold TickerMap.registerContract at haccepted ⊢
  dsimp only at haccepted ⊢
  split at haccepted
  · apply AList.lookup_insert_ne
    intro hzero
    rw [← hzero] at haccepted
    cases haccepted
  · rfl

theorem tickerMap_callRegistered (m : TickerMap) (p : Contract)
    (call : Int64 → IbContract → EClientCall) :
    (callRegistered m p call).tickerMap =
      match marshall p with
      | none => m
      | some c => (m.registerContract c).2 := by
  unfold callRegistered
  cases marshall p with
  | none => rfl
  | some c =>
      dsimp only
      split_ifs <;> rfl

theorem calls_callRegistered_of_not {m : TickerMap} {p : Contract}
    {call : Int64 → IbContract → EClientCall}
    (hresult : (callRegistered m p call).result = false) :
    (callRegistered m p call).calls = [] := by
  unfold callRegistered at hresult ⊢
  cases hc : marshall p with
  | none => rfl
  | some c =>
      rw [hc] at hresult
      dsimp only at hresult ⊢
      split_ifs at hresult ⊢
      rfl

theorem mem_calls_callRegistered {m : TickerMap} {p : Contract} {c : IbContract}
    (hc : marshall p = some c) (haccepted : 0 < (m.registerContract c).1)
    (call : Int64 → IbContract → EClientCall) :
    call p.id.toInt64 c ∈ (callRegistered m p call).calls := by
  unfold callRegistered
  rw [hc]
  dsimp only
  rw [if_pos haccepted]
  exact List.mem_cons_self

theorem calls_callApi_of_not {m : TickerMap} {request : Request}
    (hresult : (request.callApi m).result = false) : (request.callApi m).calls = [] := by
  cases request <;> exact calls_callRegistered_of_not hresult

/-- A request takes no key away. -/
theorem getSubscriptionKeyFromId_callApi {m : TickerMap} {tickerId : Int64} {key : Text}
    (hkey : m.getSubscriptionKeyFromId tickerId = some key) (request : Request) :
    (request.callApi m).tickerMap.getSubscriptionKeyFromId tickerId = some key := by
  have hregistered : ∀ (p : Contract) (call : Int64 → IbContract → EClientCall),
      (callRegistered m p call).tickerMap.getSubscriptionKeyFromId tickerId = some key := by
    intro p call
    rw [tickerMap_callRegistered]
    cases marshall p with
    | none => exact hkey
    | some c => exact TickerMap.getSubscriptionKeyFromId_registerContract hkey c
  cases request with
  | marketData proto => exact hregistered _ _
  | marketDepth proto => exact hregistered _ _

/-- The call of a request has the id of its contract, and is publishable at once if that is
one. -/
theorem publishable_of_callApi {m : TickerMap} {request : Request}
    {call : EClientCall} (hcall : call ∈ (request.callApi m).calls) :
    call.requestId = call.contract.conId ∧
      (call.requestId ≠ 0 → Publishable (request.callApi m).tickerMap call) := by
  cases hresult : (request.callApi m).result with
  | false =>
      rw [calls_callApi_of_not hresult] at hcall
      cases hcall
  | true =>
      obtain ⟨made, hcalls, hrequest, hmarshall, hmap, haccepted⟩ := callApi_of_result hresult
      rw [hcalls] at hcall
      obtain rfl := List.mem_singleton.mp hcall
      have hconId := (conId_of_marshall hmarshall).trans hrequest.symm
      refine ⟨hconId.symm, fun hid => ?_⟩
      rw [Publishable, hmap, ← hconId]
      exact TickerMap.getSubscriptionKeyFromId_of_accepted (hconId ▸ hid) haccepted

/-- A request whose call is made is publishable if and only if its contract has an
id, or zero stands for that contract already. -/
theorem publishable_iff (m : TickerMap) (request : Request)
    (hresult : (request.callApi m).result = true) :
    (∃ call, (request.callApi m).calls = [call] ∧
        Publishable (request.callApi m).tickerMap call) ↔
      request.contract.id ≠ 0 ∨
        m.getSubscriptionKeyFromId 0 =
          (marshall request.contract).map TickerMap.symbolFromContract := by
  obtain ⟨call, hcalls, hrequest, hc, hmap, haccepted⟩ := callApi_of_result hresult
  have hconId := conId_of_marshall hc
  have hpublishable : (∃ call, (request.callApi m).calls = [call] ∧
      Publishable (request.callApi m).tickerMap call) ↔
        (m.registerContract call.contract).2.getSubscriptionKeyFromId call.requestId =
          some (TickerMap.symbolFromContract call.contract) := by
    rw [hcalls, hmap]
    constructor
    · rintro ⟨call', hcall', hkey⟩
      obtain rfl := List.singleton_inj.mp hcall'
      exact hkey
    · intro hkey
      exact ⟨call, rfl, hkey⟩
  rw [hpublishable, hc, Option.map_some, hrequest]
  by_cases hid : request.contract.id = 0
  · rw [hid]
    change TickerMap.getSubscriptionKeyFromId _ 0 = _ ↔ _
    rw [getSubscriptionKeyFromId_zero haccepted]
    exact (or_iff_right (not_not.mpr rfl)).symm
  · have hne : call.contract.conId ≠ 0 := by
      rw [hconId]
      intro h
      exact hid (UInt64.toBitVec_inj.mp (congrArg Int64.toBitVec h))
    rw [← hconId, TickerMap.getSubscriptionKeyFromId_of_accepted hne haccepted]
    exact iff_of_true rfl (.inl hid)

/-- A request for market data of a stock. -/
def aaplRequest (id : UInt64) : Request :=
  .marketData { contract := { id := id, symbol := "AAPL".toList } }

theorem publishable_iff_stock :
    (∃ call, ((aaplRequest 265598).callApi .empty).calls = [call] ∧
        Publishable ((aaplRequest 265598).callApi .empty).tickerMap call) ↔
      (aaplRequest 265598).contract.id ≠ 0 ∨
        TickerMap.empty.getSubscriptionKeyFromId 0 =
          (marshall (aaplRequest 265598).contract).map TickerMap.symbolFromContract :=
  publishable_iff .empty (aaplRequest 265598) (by decide)

/-- A stock that is asked for without an id: the call is made with request id
zero, and the contract is registered under one. -/
theorem not_publishable_query :
    ((aaplRequest 0).callApi .empty).result = true ∧
      ∃ call, ((aaplRequest 0).callApi .empty).calls = [call] ∧
        ¬ Publishable ((aaplRequest 0).callApi .empty).tickerMap call := by
  refine ⟨by decide, _, rfl, ?_⟩
  intro hkey
  cases hkey

end Atp.MarketRequests

import Atp.Double
import Mathlib.Data.List.AList
import Mathlib.Data.UInt

/-!
The map from ticker ids to contracts and to the symbols under which their market
data are published.
-/

namespace Atp

structure IbContract where
  conId : Int64
  symbol : Text
  secType : Text
  expiry : Text := []
  strike : Double := ⟨0⟩
  right : Text := []
  multiplier : Text := []
  exchange : Text := []
  currency : Text := []
  localSymbol : Text := []
  primaryExchange : Text := []
  includeExpired : Bool := false
  secIdType : Text := []
  secId : Text := []
deriving DecidableEq

structure TickerMap where
  tickerIdSymbolMap : AList fun _ : Int64 => Text
  symbolTickerIdMap : AList fun _ : Text => Int64
  tickerIdContractMap : AList fun _ : Int64 => IbContract

namespace TickerMap

def empty : TickerMap := ⟨∅, ∅, ∅⟩

def symbolFromContract (contract : IbContract) : Text :=
  contract.symbol ++ '.' :: contract.secType ++
    if contract.secType = "OPT".toList then
      '.' :: contract.expiry ++ '.' :: contract.strike.text ++ '.' :: contract.right
    else []

/-- The id under which a contract is registered: its own, or the next number if
it has none. -/
def tickerIdOf (m : TickerMap) (contract : IbContract) : Int64 :=
  if contract.conId = 0 then
    Int64.ofInt (m.tickerIdContractMap.entries.length + 1)
  else contract.conId

/-- `registerContract`: the id, or -1 if it stands for another symbol. -/
def registerContract (m : TickerMap) (contract : IbContract) : Int64 × TickerMap :=
  let tickerId := m.tickerIdOf contract
  let symbol := symbolFromContract contract
  match m.tickerIdSymbolMap.lookup tickerId with
  | none =>
      (tickerId, {
        tickerIdSymbolMap := m.tickerIdSymbolMap.insert tickerId symbol
        symbolTickerIdMap := m.symbolTickerIdMap.insert symbol tickerId
        tickerIdContractMap :=
          m.tickerIdContractMap.insert tickerId { contract with conId := tickerId } })
  | some check => (if check ≠ symbol then -1 else tickerId, m)

/-- `getSubscriptionKeyFromId`, where it returns true. -/
def getSubscriptionKeyFromId (m : TickerMap) (tickerId : Int64) : Option Text :=
  m.tickerIdSymbolMap.lookup tickerId

/-- `getTickerIdFromSubscriptionKey`, where it returns true. -/
def getTickerIdFromSubscriptionKey (m : TickerMap) (key : Text) : Option Int64 :=
  m.symbolTickerIdMap.lookup key

theorem tickerIdOf_of_ne_zero (m : TickerMap) {contract : IbContract}
    (hid : contract.conId ≠ 0) : m.tickerIdOf contract = contract.conId := if_neg hid

theorem getSubscriptionKeyFromId_registerContract {m : TickerMap} {tickerId : Int64}
    {symbol : Text} (hm : m.getSubscriptionKeyFromId tickerId = some symbol)
    (contract : IbContract) :
    (m.registerContract contract).2.getSubscriptionKeyFromId tickerId = some symbol := by
  unfold getSubscriptionKeyFromId at hm ⊢
  unfold registerContract
  dsimp only
  split
  · rename_i hnone
    have hne : tickerId ≠ m.tickerIdOf contract := by
      rintro rfl
      rw [hm] at hnone
      cases hnone
    exact (AList.lookup_insert_ne hne).trans hm
  · exact hm

/-- A registration adds at most the key of its contract, under its number. -/
theorem key_of_registerContract {m : TickerMap} {c : IbContract} {tickerId : Int64} {key : Text}
    (hkey : (m.registerContract c).2.getSubscriptionKeyFromId tickerId = some key) :
    m.getSubscriptionKeyFromId tickerId = some key ∨
      tickerId = m.tickerIdOf c ∧ key = symbolFromContract c := by
  unfold getSubscriptionKeyFromId at hkey ⊢
  unfold registerContract at hkey
  dsimp only at hkey
  split at hkey
  · by_cases hid : tickerId = m.tickerIdOf c
    · subst hid
      rw [AList.lookup_insert] at hkey
      exact .inr ⟨rfl, (Option.some.inj hkey).symm⟩
    · rw [AList.lookup_insert_ne hid] at hkey
      exact .inl hkey
  · exact .inl hkey

theorem getSubscriptionKeyFromId_of_accepted {m : TickerMap} {contract : IbContract}
    (hid : contract.conId ≠ 0) (haccepted : 0 < (m.registerContract contract).1) :
    (m.registerContract contract).2.getSubscriptionKeyFromId contract.conId =
      some (symbolFromContract contract) := by
  unfold getSubscriptionKeyFromId
  unfold registerContract at haccepted ⊢
  dsimp only at haccepted ⊢
  rw [m.tickerIdOf_of_ne_zero hid] at haccepted ⊢
  split at haccepted
  · exact AList.lookup_insert _
  · rename_i check hsome
    split_ifs at haccepted with hcheck
    · cases haccepted
    · rw [hsome, not_not.mp hcheck]

end TickerMap

end Atp

import Atp.Double
import Mathlib.Data.UInt

/-!
The protobuf messages.  A message value is initialized: its required fields are
present, and its optional ones may be absent.
-/

namespace Atp

/-- The wire format of one message type, which comes with the protobuf library:
every message survives a round trip, and not every string is a message. -/
structure Codec (α : Type) where
  serializeToString : α → Text
  parseFromString : Text → Option α
  parse_serialize : ∀ x, parseFromString (serializeToString x) = some x

attribute [simp] Codec.parse_serialize

/-! ### `common.proto` -/

inductive Currency where
  | other | usd
deriving DecidableEq

structure Money where
  amount : Double
  currency : Option Currency := none
deriving DecidableEq

structure Date where
  year : Int32
  month : Int32
  day : Int32
deriving DecidableEq

inductive ValueType where
  | double | int | string | timestamp
deriving DecidableEq

structure Value where
  type : ValueType
  stringValue : Option Text := none
  doubleValue : Option Double := none
  intValue : Option Int64 := none
  timestampValue : Option Int64 := none
deriving DecidableEq

instance : Inhabited Value := ⟨{ type := .double }⟩

namespace Value

def ofDouble (v : Double) : Value := { type := .double, doubleValue := some v }

def ofInt (v : Int32) : Value := { type := .int, intValue := some v.toInt64 }

def ofString (v : Text) : Value := { type := .string, stringValue := some v }

end Value

/-! ### `ib.proto` -/

structure MarketData where
  timestamp : UInt64
  symbol : Text
  event : Text
  value : Value
  contractId : UInt64
deriving DecidableEq, Inhabited

inductive DepthSide where
  | ask | bid
deriving DecidableEq, Inhabited

inductive DepthOperation where
  | insert | update | delete
deriving DecidableEq, Inhabited

structure MarketDepth where
  timestamp : UInt64
  symbol : Text
  side : DepthSide
  price : Double
  size : UInt64
  operation : DepthOperation
  level : UInt32
  mm : Option Text := none
  contractId : UInt64
deriving DecidableEq

instance : Inhabited MarketDepth := ⟨⟨0, [], .ask, ⟨0⟩, 0, .insert, 0, none, 0⟩⟩

inductive ContractType where
  | index | stock | option
deriving DecidableEq

inductive Right where
  | put | call
deriving DecidableEq

structure Contract where
  id : UInt64
  symbol : Text
  type : Option ContractType := none
  exchange : Option Text := none
  localSymbol : Option Text := none
  right : Option Right := none
  strike : Option Money := none
  expiry : Option Date := none
  multiplier : Option Int32 := none
deriving DecidableEq

namespace Contract

/-- The getters return the declared default of an absent field. -/
def getType (c : Contract) : ContractType := c.type.getD .stock

def getRight (c : Contract) : Right := c.right.getD .put

def getStrike (c : Contract) : Money := c.strike.getD ⟨⟨0⟩, none⟩

def getExpiry (c : Contract) : Date := c.expiry.getD ⟨0, 0, 0⟩

def getExchange (c : Contract) : Text := c.exchange.getD "SMART".toList

def getMultiplier (c : Contract) : Int32 := c.multiplier.getD 100

end Contract

structure RequestMarketData where
  contract : Contract
  tickTypes : Option Text := none
  snapshot : Option Bool := none

structure RequestMarketDepth where
  contract : Contract
  rows : Option UInt32 := none

/-! ### `historian.proto` -/

inductive RecordType where
  | indexedValue | sessionLog | ibMarketData | ibMarketDepth
deriving DecidableEq

structure SessionLog where
  symbol : Text
  startTimestamp : UInt64
  stopTimestamp : UInt64
  source : Text
deriving DecidableEq, Inhabited

structure IndexedValue where
  timestamp : UInt64
  value : Value
deriving DecidableEq, Inhabited

structure Record where
  type : RecordType
  key : Option Text := none
  indexedValue : Option IndexedValue := none
  sessionLog : Option SessionLog := none
  ibMarketdata : Option MarketData := none
  ibMarketdepth : Option MarketDepth := none
deriving DecidableEq

namespace Record

/-- The field of a record that carries type `t`, as `as<T>` reads it: an absent
field reads as the default message. -/
def as {T : Type} [Inhabited T] (t : RecordType) (field : Record → Option T)
    (record : Record) : Option T :=
  if record.type = t then some ((field record).getD default) else none

def asMarketData : Record → Option MarketData := as .ibMarketData ibMarketdata

def asIndexedValue : Record → Option IndexedValue := as .indexedValue indexedValue

def wrapMarketData (v : MarketData) : Record :=
  { type := .ibMarketData, ibMarketdata := some v }

def wrapMarketDepth (v : MarketDepth) : Record :=
  { type := .ibMarketDepth, ibMarketdepth := some v }

def wrapSessionLog (v : SessionLog) : Record :=
  { type := .sessionLog, sessionLog := some v }

def wrapIndexedValue (v : IndexedValue) : Record :=
  { type := .indexedValue, indexedValue := some v }

def setKey (key : Text) (record : Record) : Record := { record with key := some key }

end Record

structure QueryByRange where
  type : RecordType
  first : Text
  last : Text
  index : Option Text := none
deriving DecidableEq

structure QueryBySymbol where
  type : RecordType
  symbol : Text
  utcFirstMicros : Option UInt64 := none
  utcLastMicros : Option UInt64 := none
  index : Option Text := none
deriving DecidableEq

namespace QueryBySymbol

def getFirst (q : QueryBySymbol) : UInt64 := q.utcFirstMicros.getD 0

def getLast (q : QueryBySymbol) : UInt64 := q.utcLastMicros.getD 0

end QueryBySymbol

inductive QueryType where
  | queryByRange | queryBySymbol
deriving DecidableEq

structure Query where
  type : QueryType
  callback : Text
  queryByRange : Option QueryByRange := none
  queryBySymbol : Option QueryBySymbol := none
deriving DecidableEq

namespace Query

def getQueryByRange (q : Query) : QueryByRange :=
  q.queryByRange.getD { type := .indexedValue, first := [], last := [] }

def getQueryBySymbol (q : Query) : QueryBySymbol :=
  q.queryBySymbol.getD { type := .indexedValue, symbol := [] }

end Query

end Atp

import Atp.LogRecord
import Atp.Protos
import Atp.TickerMap

/-!
What the event wrapper does with a market data callback: it writes a line to the
log and publishes a message.  The requests for market data are logged as well.
-/

namespace Atp.EventLog

open LogRecord

inductive TickType where
  | bidSize | bid | ask | askSize | last | lastSize | high | low | volume | close
  | bidOptionComputation | askOptionComputation | lastOptionComputation | modelOption | open
  | low13Week | high13Week | low26Week | high26Week | low52Week | high52Week | avgVolume
  | openInterest | optionHistoricalVol | optionImpliedVol | optionBidExch | optionAskExch
  | optionCallOpenInterest | optionPutOpenInterest | optionCallVolume | optionPutVolume
  | indexFuturePremium | bidExch | askExch | auctionVolume | auctionPrice | auctionImbalance
  | markPrice | bidEfpComputation | askEfpComputation | lastEfpComputation
  | openEfpComputation | highEfpComputation | lowEfpComputation | closeEfpComputation
  | lastTimestamp | shortable | fundamentalRatios | rtVolume | halted | bidYield | askYield
  | lastYield | custOptionComputation | tradeCount | tradeRate | volumeRate | lastRthTrade
  | notSet
deriving DecidableEq

def tickTypeName : TickType → String
  | .bidSize => "BID_SIZE" | .bid => "BID" | .ask => "ASK" | .askSize => "ASK_SIZE"
  | .last => "LAST" | .lastSize => "LAST_SIZE" | .high => "HIGH" | .low => "LOW"
  | .volume => "VOLUME" | .close => "CLOSE"
  | .bidOptionComputation => "BID_OPTION_COMPUTATION"
  | .askOptionComputation => "ASK_OPTION_COMPUTATION"
  | .lastOptionComputation => "LAST_OPTION_COMPUTATION"
  | .modelOption => "MODEL_OPTION" | .open => "OPEN"
  | .low13Week => "LOW_13_WEEK" | .high13Week => "HIGH_13_WEEK"
  | .low26Week => "LOW_26_WEEK" | .high26Week => "HIGH_26_WEEK"
  | .low52Week => "LOW_52_WEEK" | .high52Week => "HIGH_52_WEEK"
  | .avgVolume => "AVG_VOLUME" | .openInterest => "OPEN_INTEREST"
  | .optionHistoricalVol => "OPTION_HISTORICAL_VOL"
  | .optionImpliedVol => "OPTION_IMPLIED_VOL"
  | .optionBidExch => "OPTION_BID_EXCH" | .optionAskExch => "OPTION_ASK_EXCH"
  | .optionCallOpenInterest => "OPTION_CALL_OPEN_INTEREST"
  | .optionPutOpenInterest => "OPTION_PUT_OPEN_INTEREST"
  | .optionCallVolume => "OPTION_CALL_VOLUME" | .optionPutVolume => "OPTION_PUT_VOLUME"
  | .indexFuturePremium => "INDEX_FUTURE_PREMIUM"
  | .bidExch => "BID_EXCH" | .askExch => "ASK_EXCH"
  | .auctionVolume => "AUCTION_VOLUME" | .auctionPrice => "AUCTION_PRICE"
  | .auctionImbalance => "AUCTION_IMBALANCE" | .markPrice => "MARK_PRICE"
  | .bidEfpComputation => "BID_EFP_COMPUTATION" | .askEfpComputation => "ASK_EFP_COMPUTATION"
  | .lastEfpComputation => "LAST_EFP_COMPUTATION"
  | .openEfpComputation => "OPEN_EFP_COMPUTATION"
  | .highEfpComputation => "HIGH_EFP_COMPUTATION" | .lowEfpComputation => "LOW_EFP_COMPUTATION"
  | .closeEfpComputation => "CLOSE_EFP_COMPUTATION"
  | .lastTimestamp => "LAST_TIMESTAMP" | .shortable => "SHORTABLE"
  | .fundamentalRatios => "FUNDAMENTAL_RATIOS" | .rtVolume => "RT_VOLUME"
  | .halted => "HALTED" | .bidYield => "BID_YIELD" | .askYield => "ASK_YIELD"
  | .lastYield => "LAST_YIELD" | .custOptionComputation => "CUST_OPTION_COMPUTATION"
  | .tradeCount => "TRADE_COUNT" | .tradeRate => "TRADE_RATE" | .volumeRate => "VOLUME_RATE"
  | .lastRthTrade => "LAST_RTH_TRADE" | .notSet => "NOT_SET"

/-- The market data callbacks of the wrapper, with the arguments of each after the
ticker id and the tick type. -/
inductive Payload where
  | tickPrice (price : Double) (canAutoExecute : Int32)
  | tickSize (size : Int32)
  | tickGeneric (value : Double)
  | tickString (value : Text)

structure Callback where
  tickerId : Int64
  field : TickType
  payload : Payload

namespace Callback

/-- `__func__`. -/
def method (c : Callback) : Text :=
  match c.payload with
  | .tickPrice _ _ => "tickPrice".toList
  | .tickSize _ => "tickSize".toList
  | .tickGeneric _ => "tickGeneric".toList
  | .tickString _ => "tickString".toList

def fieldName (c : Callback) : Text := (tickTypeName c.field).toList

/-- The arguments after the tick type, as they are logged. -/
def arguments (c : Callback) : List (Text × Text) :=
  match c.payload with
  | .tickPrice price canAutoExecute =>
      [("price".toList, price.text), ("canAutoExecute".toList, integer canAutoExecute.toInt)]
  | .tickSize size => [("size".toList, integer size.toInt)]
  | .tickGeneric value => [("value".toList, value.text)]
  | .tickString value => [("value".toList, value)]

/-- `proto::common::set_as`. -/
def value (c : Callback) : Value :=
  match c.payload with
  | .tickPrice price _ => .ofDouble price
  | .tickSize size => .ofInt size
  | .tickGeneric value => .ofDouble value
  | .tickString value => .ofString value

end Callback

/-- `MarketEventDispatcher::publish`; nothing for an id that is not registered. -/
def publish (m : TickerMap) (micros : UInt64) (c : Callback) : Option MarketData :=
  (m.getSubscriptionKeyFromId c.tickerId).map fun topic =>
    { timestamp := micros
      symbol := topic
      event := c.fieldName
      value := c.value
      contractId := c.tickerId.toUInt64 }

/-! ### The log -/

/-- A callback, with the start of its log line and the two readings of the clock
that are made while the line is written.  The second stays in the wrapper. -/
structure Tick where
  header : Text
  connectionId : UInt32
  logged : UInt64
  latest : UInt64
  callback : Callback

/-- `LOG_EVENT`. -/
def Tick.pairs (t : Tick) : List (Text × Text) :=
  [("cid".toList, decimal t.connectionId.toNat), ("ts_utc".toList, decimal t.logged.toNat),
    ("event".toList, t.callback.method),
    ("tickerId".toList, integer t.callback.tickerId.toInt),
    ("field".toList, t.callback.fieldName)] ++ t.callback.arguments

def Tick.line (t : Tick) : Text := t.header ++ ' ' :: pairsText '=' ',' t.pairs

def contractPairs (c : IbContract) : List (Text × Text) :=
  [("conId".toList, integer c.conId.toInt), ("symbol".toList, c.symbol),
    ("secType".toList, c.secType), ("right".toList, c.right), ("strike".toList, c.strike.text),
    ("currency".toList, c.currency), ("multiplier".toList, c.multiplier),
    ("expiry".toList, c.expiry)]

/-- `operator<<(ostream&, const Contract&)`, after the equals sign. -/
def contractText (c : IbContract) : Text :=
  pairsText ':' ';' (contractPairs c ++ [("localSymbol".toList, c.localSymbol ++ ['}'])])

/-- A request for market data, with the starts of its two log lines, the times
written there, and the address of the contract as it is printed. -/
structure Request where
  header : Text
  endHeader : Text
  connectionId : UInt32
  callStart : UInt64
  utcMicros : Int64
  elapsed : UInt64
  address : Text
  contract : IbContract
  genericTicks : Text
  snapshot : Bool

def Request.pairs (r : Request) : List (Text × Text) :=
  [("cid".toList, decimal r.connectionId.toNat), ("ts".toList, decimal r.callStart.toNat),
    ("ts_utc".toList, integer r.utcMicros.toInt), ("action".toList, "reqMktData".toList),
    ("id".toList, integer r.contract.conId.toInt), ("&contract".toList, r.address),
    ("genericTicks".toList, r.genericTicks),
    ("snapshot".toList, if r.snapshot then ['1'] else ['0']),
    ("contract".toList, contractText r.contract)]

def Request.line (r : Request) : Text := r.header ++ ' ' :: pairsText '=' ',' r.pairs

def Request.endPairs (r : Request) : List (Text × Text) :=
  [("cid".toList, decimal r.connectionId.toNat), ("ts".toList, decimal r.callStart.toNat),
    ("action".toList, "reqMktData".toList), ("elapsed".toList, decimal r.elapsed.toNat)]

def Request.endLine (r : Request) : Text := r.endHeader ++ ' ' :: pairsText '=' ',' r.endPairs

inductive Event where
  | request (r : Request)
  | tick (t : Tick)

/-- `requested` holds the ids of the requests that have been logged, and
`published` the messages with the callbacks they come from. -/
structure Api where
  tickerMap : TickerMap
  log : List Text
  requested : List Int64
  published : List (Tick × MarketData)

def Api.init : Api := ⟨.empty, [], [], []⟩

/-- A request whose contract is not accepted is not made.  A callback is logged
before it is published. -/
def Api.next (s : Api) : Event → Api
  | .request r =>
      let (tickerId, tickerMap) := s.tickerMap.registerContract r.contract
      let s := { s with tickerMap := tickerMap }
      if 0 < tickerId then
        { s with
          log := s.log ++ [r.line, r.endLine]
          requested := r.contract.conId :: s.requested }
      else s
  | .tick t =>
      { s with
        log := s.log ++ [t.line]
        published := s.published ++
          ((publish s.tickerMap t.latest t.callback).map fun m => (t, m)).toList }

def fileText (lines : List Text) : Text := lines.flatMap fun line => line ++ ['\n']

end Atp.EventLog

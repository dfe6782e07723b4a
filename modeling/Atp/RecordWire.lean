import Atp.Protos
import Atp.WireFormat

/-!
A wire format for the historian's records and queries, as one that satisfies the
laws of a codec.
-/

namespace Atp.RecordWire

open Wire

def uint64 : Wire UInt64 := nat.iso UInt64.ofNat UInt64.toNat (by simp)

def uint32 : Wire UInt32 := nat.iso UInt32.ofNat UInt32.toNat (by simp)

def int64 : Wire Int64 := uint64.iso UInt64.toInt64 Int64.toUInt64 (by simp)

def double : Wire Double := uint64.iso Double.mk Double.bits fun _ => rfl

def valueType : Wire ValueType :=
  nat.iso (fun n => match n with | 0 => .double | 1 => .int | 2 => .string | _ => .timestamp)
    (fun t => match t with | .double => 0 | .int => 1 | .string => 2 | .timestamp => 3)
    (fun t => by cases t <;> rfl)

def value : Wire Value :=
  (valueType.pair ((optional text).pair ((optional double).pair
      ((optional int64).pair (optional int64))))).iso
    (fun f => ⟨f.1, f.2.1, f.2.2.1, f.2.2.2.1, f.2.2.2.2⟩)
    (fun v => (v.type, v.stringValue, v.doubleValue, v.intValue, v.timestampValue))
    fun _ => rfl

def marketData : Wire MarketData :=
  (uint64.pair (text.pair (text.pair (value.pair uint64)))).iso
    (fun f => ⟨f.1, f.2.1, f.2.2.1, f.2.2.2.1, f.2.2.2.2⟩)
    (fun v => (v.timestamp, v.symbol, v.event, v.value, v.contractId))
    fun _ => rfl

def depthSide : Wire DepthSide :=
  nat.iso (fun n => match n with | 0 => .ask | _ => .bid)
    (fun s => match s with | .ask => 0 | .bid => 1) (fun s => by cases s <;> rfl)

def depthOperation : Wire DepthOperation :=
  nat.iso (fun n => match n with | 0 => .insert | 1 => .update | _ => .delete)
    (fun o => match o with | .insert => 0 | .update => 1 | .delete => 2)
    (fun o => by cases o <;> rfl)

def marketDepth : Wire MarketDepth :=
  (uint64.pair (text.pair (depthSide.pair (double.pair (uint64.pair (depthOperation.pair
      (uint32.pair ((optional text).pair uint64)))))))).iso
    (fun f => ⟨f.1, f.2.1, f.2.2.1, f.2.2.2.1, f.2.2.2.2.1, f.2.2.2.2.2.1,
      f.2.2.2.2.2.2.1, f.2.2.2.2.2.2.2.1, f.2.2.2.2.2.2.2.2⟩)
    (fun v => (v.timestamp, v.symbol, v.side, v.price, v.size, v.operation, v.level, v.mm,
      v.contractId))
    fun _ => rfl

def sessionLog : Wire SessionLog :=
  (text.pair (uint64.pair (uint64.pair text))).iso
    (fun f => ⟨f.1, f.2.1, f.2.2.1, f.2.2.2⟩)
    (fun v => (v.symbol, v.startTimestamp, v.stopTimestamp, v.source))
    fun _ => rfl

def indexedValue : Wire IndexedValue :=
  (uint64.pair value).iso (fun f => ⟨f.1, f.2⟩) (fun v => (v.timestamp, v.value))
    fun _ => rfl

def recordType : Wire RecordType :=
  nat.iso
    (fun n => match n with
      | 0 => .indexedValue | 1 => .sessionLog | 2 => .ibMarketData | _ => .ibMarketDepth)
    (fun t => match t with
      | .indexedValue => 0 | .sessionLog => 1 | .ibMarketData => 2 | .ibMarketDepth => 3)
    (fun t => by cases t <;> rfl)

def record : Wire Record :=
  (recordType.pair ((optional text).pair ((optional indexedValue).pair
      ((optional sessionLog).pair ((optional marketData).pair (optional marketDepth)))))).iso
    (fun f => ⟨f.1, f.2.1, f.2.2.1, f.2.2.2.1, f.2.2.2.2.1, f.2.2.2.2.2⟩)
    (fun r => (r.type, r.key, r.indexedValue, r.sessionLog, r.ibMarketdata,
      r.ibMarketdepth))
    fun _ => rfl

def recordCodec : Codec Record := ⟨record.put, record.parse, record.parse_put⟩

def queryByRange : Wire QueryByRange :=
  (recordType.pair (text.pair (text.pair (optional text)))).iso
    (fun f => ⟨f.1, f.2.1, f.2.2.1, f.2.2.2⟩) (fun q => (q.type, q.first, q.last, q.index))
    fun _ => rfl

def queryBySymbol : Wire QueryBySymbol :=
  (recordType.pair (text.pair ((optional uint64).pair ((optional uint64).pair
      (optional text))))).iso
    (fun f => ⟨f.1, f.2.1, f.2.2.1, f.2.2.2.1, f.2.2.2.2⟩)
    (fun q => (q.type, q.symbol, q.utcFirstMicros, q.utcLastMicros, q.index))
    fun _ => rfl

def queryType : Wire QueryType :=
  nat.iso (fun n => match n with | 0 => .queryByRange | _ => .queryBySymbol)
    (fun t => match t with | .queryByRange => 0 | .queryBySymbol => 1)
    (fun t => by cases t <;> rfl)

def query : Wire Query :=
  (queryType.pair (text.pair ((optional queryByRange).pair (optional queryBySymbol)))).iso
    (fun f => ⟨f.1, f.2.1, f.2.2.1, f.2.2.2⟩)
    (fun q => (q.type, q.callback, q.queryByRange, q.queryBySymbol))
    fun _ => rfl

def queryCodec : Codec Query := ⟨query.put, query.parse, query.parse_put⟩

theorem record_ne_nil (r : Record) : recordCodec.serializeToString r ≠ [] := by
  simp [recordCodec, record, iso, pair, recordType, nat]

theorem query_ne_nil (q : Query) : queryCodec.serializeToString q ≠ [] := by
  simp [queryCodec, query, iso, pair, queryType, nat]

end Atp.RecordWire

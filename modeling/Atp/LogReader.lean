import Atp.LexicalCast
import Atp.LogRecord
import Atp.Protos
import Mathlib.Data.List.AList

/-!
The reader of event logs: it learns the symbols of ticker ids from the requests
that were logged, and turns the lines of market events back into messages.
-/

namespace Atp.LogReader

open LogRecord

/-- An exception that `Process` lets through, or `LOG(FATAL)`. -/
inductive Failure where
  | badLexicalCast | fatal | split (failure : FieldSplit.Failure)
deriving DecidableEq

/-- A line as a record, whose fields may not be split. -/
def recordOf (assign sep : Char) (line : Text) : Except Failure LogRecord :=
  (lineToRecord assign sep line).mapError .split

theorem recordOf_of_ok {assign sep : Char} {line : Text} {nv : LogRecord}
    (hline : lineToRecord assign sep line = .ok nv) : recordOf assign sep line = .ok nv := by
  rw [recordOf, hline]
  rfl

theorem ok_of_recordOf {assign sep : Char} {line : Text} {nv : LogRecord}
    (hread : recordOf assign sep line = .ok nv) : lineToRecord assign sep line = .ok nv := by
  rw [recordOf] at hread
  cases hline : lineToRecord assign sep line with
  | error e =>
      rw [hline] at hread
      cases hread
  | ok nv' =>
      rw [hline] at hread
      exact congrArg Except.ok (Except.ok.inj hread)

def cast {α : Type} : Except BadLexicalCast α → Except Failure α
  | .ok x => .ok x
  | .error _ => .error .badLexicalCast

def getField {α : Type} (convert : Text → Except BadLexicalCast α) (nv : LogRecord)
    (key : Text) : Except Failure (Option α) :=
  match find nv key with
  | none => .ok none
  | some value => some <$> cast (convert value)

theorem getField_of_some {α : Type} {convert : Text → Except BadLexicalCast α}
    {nv : LogRecord} {key value : Text} {x : α} (hfind : find nv key = some value)
    (hconvert : convert value = .ok x) : getField convert nv key = .ok (some x) := by
  rw [getField, hfind]
  dsimp only
  rw [hconvert]
  rfl

theorem getField_of_none {α : Type} (convert : Text → Except BadLexicalCast α)
    {nv : LogRecord} {key : Text} (hfind : find nv key = none) :
    getField convert nv key = .ok none := by
  rw [getField, hfind]

/-! ### Symbols of ticker ids -/

abbrev SymbolMap := AList fun _ : Int64 => Text

def actionMap : List Text :=
  ["reqMktData".toList, "reqMktDepth".toList, "reqRealTimeBars".toList,
    "reqHistoricalData".toList]

def isAction (nv : LogRecord) : Bool :=
  match find nv "action".toList with
  | some action => actionMap.contains action
  | none => false

/-- `symbol_from_contract` on the fields of a contract. -/
def symbolFromContract (contract : LogRecord) : Option Text := do
  let symbol ← find contract "symbol".toList
  let secType ← find contract "secType".toList
  if secType = "OPT".toList then
    let expiry ← find contract "expiry".toList
    let strike ← find contract "strike".toList
    let right ← find contract "right".toList
    some (symbol ++ '.' :: secType ++ '.' :: expiry ++ '.' :: strike ++ '.' :: right)
  else some (symbol ++ '.' :: secType)

/-- `map_id_to_symbols`: whether the id of the line is new, and the map with it. -/
def mapIdToSymbols (symbolMap : SymbolMap) (nv : LogRecord) :
    Except Failure (Bool × SymbolMap) :=
  match find nv "id".toList with
  | none => .ok (false, symbolMap)
  | some id => do
      let tickerId ← cast (LexicalCast.long id)
      match find nv "contract".toList with
      | none => .ok (false, symbolMap)
      | some contract => do
          match symbolFromContract (← recordOf ':' ';' contract) with
          | none => .error .fatal
          | some symbol =>
              match symbolMap.lookup tickerId with
              | none => .ok (true, symbolMap.insert tickerId symbol)
              | some known => if known ≠ symbol then .error .fatal else .ok (false, symbolMap)

/-! ### Events -/

/-- `event_value_map`: the field that holds the value, and its type. -/
def eventValueMap : List (Text × (Text × ValueType)) :=
  [("tickPrice".toList, ("price".toList, .double)),
    ("tickPrice/CLOSE".toList, ("price".toList, .double)),
    ("tickPrice/BID".toList, ("price".toList, .double)),
    ("tickPrice/ASK".toList, ("price".toList, .double)),
    ("tickPrice/LAST".toList, ("price".toList, .double)),
    ("tickSize".toList, ("size".toList, .int)),
    ("tickSize/BID_SIZE".toList, ("size".toList, .int)),
    ("tickSize/ASK_SIZE".toList, ("size".toList, .int)),
    ("tickSize/LAST_SIZE".toList, ("size".toList, .int)),
    ("tickString".toList, ("value".toList, .string)),
    ("tickString/LAST_TIMESTAMP".toList, ("value".toList, .timestamp))]

def getEventType (event : Text) : Option (Text × ValueType) := eventValueMap.lookup event

def isSupported (nv : LogRecord) : Bool :=
  match find nv "event".toList with
  | some event => (getEventType event).isSome
  | none => false

def fieldValue (nv : LogRecord) (field : Text) : ValueType → Except Failure Value
  | .int => do
      let some value ← getField LexicalCast.int nv field | .error .fatal
      .ok { type := .int, intValue := some value.toInt64 }
  | .double => do
      let some value ← getField LexicalCast.double nv field | .error .fatal
      .ok { type := .double, doubleValue := some value }
  | .string => do
      let some value ← getField .ok nv field | .error .fatal
      .ok { type := .string, stringValue := some value }
  | .timestamp => do
      let some value ← getField LexicalCast.uint64 nv field | .error .fatal
      .ok { type := .timestamp, timestampValue := some value.toInt64 }

/-- `operator<<(MarketData&, const log_record_t&)`, where it returns true. -/
def toMarketData (symbolMap : SymbolMap) (nv : LogRecord) :
    Except Failure (Option MarketData) := do
  let some timestamp ← getField LexicalCast.uint64 nv "ts_utc".toList | .ok none
  let some code ← getField LexicalCast.long nv "tickerId".toList | .error .fatal
  let some symbol := symbolMap.lookup code | .error .fatal
  let some event := find nv "field".toList | .error .fatal
  let message (value : Value) : MarketData :=
    { timestamp := timestamp
      symbol := symbol
      event := event
      value := value
      contractId := code.toUInt64 }
  let some method := find nv "event".toList | .ok (some (message default))
  let some (field, type) := getEventType (method ++ '/' :: event) | .ok none
  let value ← fieldValue nv field type
  .ok (some (message value))

def depthSide (side : Int32) : DepthSide := if side = 1 then .bid else .ask

def depthOperation (operation : Int32) : DepthOperation :=
  if operation = 1 then .update else if operation = 2 then .delete else .insert

/-- `operator<<(MarketDepth&, const log_record_t&)`, where it returns true. -/
def toMarketDepth (symbolMap : SymbolMap) (nv : LogRecord) :
    Except Failure (Option MarketDepth) := do
  let some timestamp ← getField LexicalCast.uint64 nv "ts_utc".toList | .ok none
  let some code ← getField LexicalCast.long nv "id".toList | .ok none
  let some symbol := symbolMap.lookup code | .ok none
  let some side ← getField LexicalCast.int nv "side".toList | .ok none
  let some operation ← getField LexicalCast.int nv "operation".toList | .ok none
  let some level ← getField LexicalCast.int nv "position".toList | .ok none
  let some price ← getField LexicalCast.double nv "price".toList | .ok none
  let some size ← getField LexicalCast.int nv "size".toList | .ok none
  .ok (some
    { timestamp := timestamp
      symbol := symbol
      side := depthSide side
      price := price
      size := size.toInt64.toUInt64
      operation := depthOperation operation
      level := level.toUInt32
      mm := some ((find nv "marketMaker".toList).getD [])
      contractId := code.toUInt64 })

/-! ### The loop -/

/-- The settings of a run.  `eastern` gives the time of day in New York in
microseconds; no duration and no start stand for the infinite defaults. -/
structure Options where
  eastern : UInt64 → Nat
  rth : Bool := true
  duration : Option Int := none
  start : Option UInt64 := none

def timeOfDay (hours minutes : Nat) : Nat := (hours * 60 + minutes) * 60 * 1000000

def checkRTH (eastern : UInt64 → Nat) (t : UInt64) : Bool :=
  timeOfDay 9 30 ≤ eastern t && eastern t < timeOfDay 16 0

def checkEXT (eastern : UInt64 → Nat) (t : UInt64) : Bool :=
  timeOfDay 4 0 ≤ eastern t && eastern t < timeOfDay 20 0

def inHours (o : Options) (t : UInt64) : Bool :=
  checkEXT o.eastern t && (checkRTH o.eastern t || !o.rth)

def getTimestamp (nv : LogRecord) : Except Failure (Option UInt64) :=
  getField LexicalCast.uint64 nv "ts_utc".toList

def checkTime (o : Options) (nv : LogRecord) : Except Failure Bool := do
  let some t ← getTimestamp nv | .ok false
  .ok (inHours o t)

/-- `current_log_t` and `first_log_t` may be no time.  The two lists hold what the
visitors have been given. -/
structure State where
  symbolMap : SymbolMap := ∅
  current : Option UInt64 := none
  first : Option UInt64 := none
  matchedRecords : Nat := 0
  marketData : List MarketData := []
  marketDepth : List MarketDepth := []
  done : Bool := false

/-- The line goes to the visitor of the first message it converts to. -/
def deliver (s : State) (nv : LogRecord) : Except Failure State := do
  match ← toMarketData s.symbolMap nv with
  | some m =>
      .ok { s with marketData := s.marketData ++ [m], matchedRecords := s.matchedRecords + 1 }
  | none =>
      match ← toMarketDepth s.symbolMap nv with
      | some m =>
          .ok { s with
            marketDepth := s.marketDepth ++ [m]
            matchedRecords := s.matchedRecords + 1 }
      | none => .ok s

def beforeStart (o : Options) (t : UInt64) : Bool :=
  match o.start with
  | some start => t < start
  | none => false

/-- `scan_duration > duration`, which is false as long as one of them is no time. -/
def afterDuration (o : Options) (s : State) : Bool :=
  match o.duration, s.first, s.current with
  | some duration, some first, some current => duration < (current.toNat - first.toNat : Int)
  | _, _, _ => false

def scan (o : Options) (s : State) (nv : LogRecord) : Except Failure State :=
  let s := if s.first = none ∧ s.matchedRecords = 1 then { s with first := s.current } else s
  if afterDuration o s then .ok { s with done := true } else deliver s nv

def readEvent (o : Options) (s : State) (nv : LogRecord) : Except Failure State := do
  if ← checkTime o nv then
    match ← getTimestamp nv with
    | some t =>
        let s := { s with current := some t }
        if beforeStart o t then .ok s else scan o s nv
    | none => scan o s nv
  else .ok s

/-- A request may give the symbol of a new id; other lines count if their event is
supported. -/
def readRecord (o : Options) (s : State) (nv : LogRecord) : Except Failure State := do
  let (mapped, symbolMap) ←
    if isAction nv then mapIdToSymbols s.symbolMap nv else .ok (false, s.symbolMap)
  let s := { s with symbolMap := symbolMap }
  if mapped ∨ isSupported nv = false then .ok s else readEvent o s nv

/-- The symbols are learned before the event is read. -/
theorem readRecord_eq (o : Options) (s : State) (nv : LogRecord) :
    readRecord o s nv =
      ((if isAction nv then mapIdToSymbols s.symbolMap nv else .ok (false, s.symbolMap)) >>=
        fun mapping =>
          if mapping.1 ∨ isSupported nv = false then .ok { s with symbolMap := mapping.2 }
          else readEvent o { s with symbolMap := mapping.2 } nv) := by
  unfold readRecord
  split_ifs
  · rfl
  · rfl

def readLine (o : Options) (s : State) (line : Text) : Except Failure State :=
  if s.done ∨ ',' ∉ line then .ok s else do
    let nv ← recordOf '=' ',' line
    readRecord o s nv

/-- `LogReader::Process` on the text of a log. -/
def process (o : Options) (s : State) (text : Text) : Except Failure State :=
  (tokens text).foldlM (readLine o) s

/-- What is read of a request for a stock. -/
def requestLine (id : Nat) (symbol : Text) : Text :=
  pairsText '=' ',' [("action".toList, "reqMktData".toList), ("id".toList, decimal id),
    ("contract".toList,
      pairsText ':' ';' [("symbol".toList, symbol), ("secType".toList, "STK".toList)])]

end Atp.LogReader

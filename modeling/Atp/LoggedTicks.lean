import Atp.DoubleText
import Atp.EventLog
import Atp.LogReader

/-!
How the log reader reads the lines that the event wrapper writes for callbacks.
-/

namespace Atp.Replay

open LogRecord EventLog LogReader

/-! ### Clean texts -/

/-- A text that stays within one field of one token. -/
def Clean (s : Text) : Prop := ',' ∉ s ∧ ∀ c ∈ s, isSpace c = false

instance : DecidablePred Clean := fun s => @instDecidableAnd _ _ _ (List.decidableBAll _ s)

theorem clean_of_isNumeral {s : Text} (hs : ∀ c ∈ s, DoubleText.IsNumeral c) : Clean s := by
  have hchar : ∀ c, DoubleText.IsNumeral c → c ≠ ',' ∧ isSpace c = false := by
    rintro c hc
    constructor
    · rintro rfl
      exact hc.elim (by decide) (by decide)
    · by_contra hspace
      rw [Bool.not_eq_false, isSpace, decide_eq_true_iff] at hspace
      rcases hspace with rfl | rfl | rfl | rfl | rfl | rfl <;>
        exact hc.elim (by decide) (by decide)
  exact ⟨fun hcomma => (hchar _ (hs _ hcomma)).1 rfl, fun c hc => (hchar c (hs c hc)).2⟩

theorem isNumeral_integer (v : Int) : ∀ c ∈ integer v, DoubleText.IsNumeral c := by
  unfold integer
  split_ifs
  · exact DoubleText.isNumeral_cons (.inr (by decide)) (DoubleText.isNumeral_decimal _)
  · exact DoubleText.isNumeral_decimal _

theorem clean_decimal (n : Nat) : Clean (decimal n) :=
  clean_of_isNumeral (DoubleText.isNumeral_decimal n)

theorem clean_integer (v : Int) : Clean (integer v) := clean_of_isNumeral (isNumeral_integer v)

theorem clean_text (x : Double) : Clean x.text :=
  clean_of_isNumeral (DoubleText.isNumeral_text x)

/-- The comma and the white space come before the hyphen. -/
theorem clean_toList {s : String} {chars : Text} (hs : s = String.ofList chars)
    (hchars : (chars.all fun c => Nat.ble 45 c.toNat) = true) : Clean s.toList := by
  rw [hs, String.toList_ofList]
  have hle : ∀ c ∈ chars, 45 ≤ c.toNat := fun c hc =>
    Nat.le_of_ble_eq_true (List.all_eq_true.mp hchars c hc)
  constructor
  · intro hcomma
    exact absurd (hle _ hcomma) (by decide)
  · intro c hc
    by_contra hspace
    rw [Bool.not_eq_false, isSpace, decide_eq_true_iff] at hspace
    rcases hspace with rfl | rfl | rfl | rfl | rfl | rfl <;>
      exact absurd (hle _ hc) (by decide)

theorem clean_tickTypeName (field : TickType) : Clean (tickTypeName field).toList := by
  cases field <;> exact clean_toList rfl rfl

/-- A name whose end is found in its field. -/
structure CleanName (name : Text) : Prop where
  noAssign : '=' ∉ name
  clean : Clean name
  short : name.length < 2147483647

instance : DecidablePred CleanName := fun name =>
  decidable_of_iff ('=' ∉ name ∧ Clean name ∧ name.length < 2147483647)
    ⟨fun h => ⟨h.1, h.2.1, h.2.2⟩, fun h => ⟨h.noAssign, h.clean, h.short⟩⟩

structure CleanPair (p : Text × Text) : Prop where
  name : CleanName p.1
  value : Clean p.2

theorem cleanPair {name value : Text} (hname : CleanName name) (hvalue : Clean value) :
    CleanPair (name, value) := ⟨hname, hvalue⟩

/-- The text of clean pairs is split into them. -/
theorem lineToRecord_cleanPairs {pairs : List (Text × Text)} (hne : pairs ≠ [])
    (hpairs : ∀ p ∈ pairs, CleanPair p) :
    lineToRecord '=' ',' (pairsText '=' ',' pairs) = .ok pairs.reverse :=
  lineToRecord_pairsText (by decide) hne
    (fun p hp => ⟨(hpairs p hp).name.noAssign, (hpairs p hp).name.clean.1⟩)
    (fun p hp => (hpairs p hp).value.1) fun p hp => (hpairs p hp).name.short

/-- So is a text whose last value has no comma. -/
theorem lineToRecord_cleanFront {front : List (Text × Text)} (hclean : ∀ p ∈ front, CleanPair p)
    {name value : Text} (hname : CleanName name) (hvalue : ',' ∉ value) :
    lineToRecord '=' ',' (pairsText '=' ',' (front ++ [(name, value)])) =
      .ok ((name, value) :: front.reverse) := by
  rw [lineToRecord_pairsText (by decide)
    (List.append_ne_nil_of_right_ne_nil front (List.cons_ne_nil _ _)), List.reverse_append]
  · rfl
  · rw [List.forall_mem_append, List.forall_mem_singleton]
    exact ⟨fun p hp => ⟨(hclean p hp).name.noAssign, (hclean p hp).name.clean.1⟩,
      hname.noAssign, hname.clean.1⟩
  · rw [List.forall_mem_append, List.forall_mem_singleton]
    exact ⟨fun p hp => (hclean p hp).value.1, hvalue⟩
  · rw [List.forall_mem_append, List.forall_mem_singleton]
    exact ⟨fun p hp => (hclean p hp).name.short, hname.short⟩

theorem not_space_cleanPairs {pairs : List (Text × Text)} (hpairs : ∀ p ∈ pairs, CleanPair p) :
    ∀ c ∈ pairsText '=' ',' pairs, isSpace c = false :=
  forall_mem_pairsText (by decide) (by decide) fun p hp =>
    ⟨(hpairs p hp).name.clean.2, (hpairs p hp).value.2⟩

/-! ### The text of a log -/

theorem tokens_fileText (lines : List Text) :
    tokens (fileText lines) = lines.flatMap tokens := by
  induction lines with
  | nil => rfl
  | cons line lines ih =>
      rw [fileText, List.flatMap_cons, List.append_assoc, List.singleton_append,
        tokens_append line _ (by decide), List.flatMap_cons, ← ih]
      rfl

theorem foldlM_of_no_comma (o : Options) (r : State) {lines : List Text}
    (hlines : ∀ line ∈ lines, ',' ∉ line) : lines.foldlM (readLine o) r = .ok r := by
  induction lines with
  | nil => rfl
  | cons line lines ih =>
      rw [List.forall_mem_cons] at hlines
      rw [List.foldlM_cons, readLine, if_pos (.inr hlines.1)]
      exact ih hlines.2

/-- Of a line, the start is skipped, and one token is read.  It ends at the first
white space in the last part of the line. -/
theorem foldlM_line (o : Options) {r : State} (hr : r.done = false) {header front last : Text}
    (hheader : ',' ∉ header) (hcomma : ',' ∈ front) (hspace : ∀ c ∈ front, isSpace c = false)
    (hlast : ',' ∉ last) {nv : LogRecord}
    (hread : lineToRecord '=' ',' (front ++ firstWord last) = .ok nv) :
    (tokens (header ++ ' ' :: (front ++ last))).foldlM (readLine o) r = readRecord o r nv := by
  have hskip : (tokens header).foldlM (readLine o) r = .ok r :=
    foldlM_of_no_comma o r fun token htoken hmem => hheader (mem_of_mem_tokens htoken hmem)
  have hgoing : ¬ (r.done = true ∨ ',' ∉ front ++ firstWord last) := by
    rw [hr, not_or, not_not]
    exact ⟨Bool.false_ne_true, List.mem_append_left _ hcomma⟩
  have hline : readLine o r (front ++ firstWord last) = readRecord o r nv := by
    rw [readLine, if_neg hgoing, recordOf_of_ok hread, ok_bind]
  rw [tokens_append header _ (by decide), List.foldlM_append, hskip]
  change (tokens (front ++ last)).foldlM (readLine o) r = _
  rw [tokens_first (List.ne_nil_of_mem hcomma) hspace, List.foldlM_cons, hline]
  cases readRecord o r nv with
  | error e => rfl
  | ok r' =>
      refine foldlM_of_no_comma o r' fun token htoken hmem => hlast ?_
      exact (List.dropWhile_suffix _).subset (mem_of_mem_tokens htoken hmem)

/-- A text of pairs, before and after the start of the last value. -/
theorem pairsText_concat {front : List (Text × Text)} (hfront : front ≠ []) (name value : Text) :
    pairsText '=' ',' (front ++ [(name, value)]) =
      pairsText '=' ',' front ++ ',' :: (name ++ ['=']) ++ value := by
  rw [pairsText_append '=' ',' hfront (List.cons_ne_nil _ _), pairsText_singleton]
  simp only [List.append_assoc, List.cons_append, List.nil_append]

theorem not_space_concat {front : List (Text × Text)} (hclean : ∀ p ∈ front, CleanPair p)
    {name : Text} (hname : CleanName name) :
    ∀ c ∈ pairsText '=' ',' front ++ ',' :: (name ++ ['=']), isSpace c = false := by
  rw [List.forall_mem_append, List.forall_mem_cons, List.forall_mem_append]
  exact ⟨not_space_cleanPairs hclean, by decide, hname.clean.2,
    List.forall_mem_singleton.mpr (by decide)⟩

/-- A line of pairs is read as the pairs, the last of them up to its first white space. -/
theorem foldlM_pairs (o : Options) {r : State} (hr : r.done = false) {header : Text}
    (hheader : ',' ∉ header) {front : List (Text × Text)} (hfront : front ≠ [])
    (hclean : ∀ p ∈ front, CleanPair p) (name : Text) (hname : CleanName name) {value : Text}
    (hvalue : ',' ∉ value) :
    (tokens (header ++ ' ' :: pairsText '=' ',' (front ++ [(name, value)]))).foldlM
        (readLine o) r =
      readRecord o r ((name, firstWord value) :: front.reverse) := by
  rw [pairsText_concat hfront]
  apply foldlM_line o hr hheader (List.mem_append_right _ List.mem_cons_self)
    (not_space_concat hclean hname) hvalue
  rw [← pairsText_concat hfront]
  exact lineToRecord_cleanFront hclean hname fun hmem => hvalue (mem_of_mem_firstWord hmem)

/-! ### The line of a callback -/

/-- The payload as it is read: a string goes up to its first white space. -/
def readPayload : Payload → Payload
  | .tickString value => .tickString (firstWord value)
  | payload => payload

def readTick (t : Tick) : Tick :=
  { t with callback := { t.callback with payload := readPayload t.callback.payload } }

/-- A string among the arguments of a callback stays within its field, and is a
number if it is a time. -/
def ArgumentReady (c : Callback) : Prop :=
  match c.payload with
  | .tickString value =>
      ',' ∉ value ∧ (c.field = .lastTimestamp → ∃ time, LexicalCast.uint64 value = .ok time)
  | _ => True

theorem foldlM_tick_line (o : Options) {r : State} (hr : r.done = false) {t : Tick}
    (hheader : ',' ∉ t.header) (ht : ArgumentReady t.callback) :
    (tokens t.line).foldlM (readLine o) r = readRecord o r (readTick t).pairs.reverse := by
  obtain ⟨header, connectionId, logged, latest, tickerId, field, payload⟩ := t
  have hfront : ∀ method : Text, Clean method → ∀ p ∈ [("cid".toList, decimal connectionId.toNat),
      ("ts_utc".toList, decimal logged.toNat), ("event".toList, method),
      ("tickerId".toList, integer tickerId.toInt),
      ("field".toList, (tickTypeName field).toList)], CleanPair p := by
    intro method hmethod
    simp only [List.forall_mem_cons, List.not_mem_nil, IsEmpty.forall_iff, implies_true, and_true]
    exact ⟨cleanPair (by decide) (clean_decimal _), cleanPair (by decide) (clean_decimal _),
      cleanPair (by decide) hmethod, cleanPair (by decide) (clean_integer _),
      cleanPair (by decide) (clean_tickTypeName _)⟩
  cases payload with
  | tickPrice price canAutoExecute =>
      have hprice : CleanPair ("price".toList, price.text) :=
        cleanPair (by decide) (clean_text price)
      have hclean := List.forall_mem_append.mpr
        ⟨hfront "tickPrice".toList (by decide), List.forall_mem_singleton.mpr hprice⟩
      refine (foldlM_pairs o hr hheader (List.cons_ne_nil _ _) hclean "canAutoExecute".toList
        (by decide) (clean_integer canAutoExecute.toInt).1).trans ?_
      rw [firstWord_eq_self (clean_integer _).2]
      rfl
  | tickSize size =>
      refine (foldlM_pairs o hr hheader (List.cons_ne_nil _ _)
        (hfront "tickSize".toList (by decide)) "size".toList (by decide)
        (clean_integer size.toInt).1).trans ?_
      rw [firstWord_eq_self (clean_integer _).2]
      rfl
  | tickGeneric value =>
      refine (foldlM_pairs o hr hheader (List.cons_ne_nil _ _)
        (hfront "tickGeneric".toList (by decide)) "value".toList (by decide)
        (clean_text value).1).trans ?_
      rw [firstWord_eq_self (clean_text _).2]
      rfl
  | tickString value =>
      exact foldlM_pairs o hr hheader (List.cons_ne_nil _ _)
        (hfront "tickString".toList (by decide)) "value".toList (by decide) ht.1

/-! ### The message of a callback -/

/-- The callbacks of which the reader delivers messages. -/
def Listed (c : Callback) : Bool :=
  match c.payload with
  | .tickPrice _ _ => c.field ∈ [.close, .bid, .ask, .last]
  | .tickSize _ => c.field ∈ [.bidSize, .askSize, .lastSize]
  | .tickGeneric _ => false
  | .tickString _ => c.field = .lastTimestamp

def valueField : Payload → Text × ValueType
  | .tickPrice _ _ => ("price".toList, .double)
  | .tickSize _ => ("size".toList, .int)
  | .tickGeneric _ => ("value".toList, .double)
  | .tickString _ => ("value".toList, .timestamp)

theorem lookup_map_const {α β : Type} [BEq α] [LawfulBEq α] (key : α) (value : β)
    (keys : List α) [Decidable (key ∈ keys)] :
    (keys.map fun k => (k, value)).lookup key = if key ∈ keys then some value else none := by
  have hne : ∀ keys : List α, key ∉ keys → ∀ p ∈ keys.map fun k => (k, value), key != p.1 := by
    intro keys hkeys p hp
    obtain ⟨k, hk, rfl⟩ := List.mem_map.mp hp
    rw [bne_iff_ne]
    rintro rfl
    exact hkeys hk
  split_ifs with hmem
  · obtain ⟨front, back, rfl, hfront⟩ := List.eq_append_cons_of_mem hmem
    exact List.lookup_eq_some_iff.mpr ⟨_, _, List.map_append, hne front hfront⟩
  · exact List.lookup_eq_none_iff.mpr (hne keys hmem)

theorem getEventType_tickPrice (name : Text) :
    getEventType ("tickPrice".toList ++ '/' :: name) =
      if name ∈ ["CLOSE", "BID", "ASK", "LAST"].map String.toList then
        some ("price".toList, .double)
      else none := by
  rw [← lookup_map_const]
  simp [getEventType, eventValueMap, List.lookup]

theorem getEventType_tickSize (name : Text) :
    getEventType ("tickSize".toList ++ '/' :: name) =
      if name ∈ ["BID_SIZE", "ASK_SIZE", "LAST_SIZE"].map String.toList then
        some ("size".toList, .int)
      else none := by
  rw [← lookup_map_const]
  simp [getEventType, eventValueMap, List.lookup]

theorem getEventType_tickGeneric (name : Text) :
    getEventType ("tickGeneric".toList ++ '/' :: name) = none := by
  simp [getEventType, eventValueMap, List.lookup]

theorem getEventType_tickString (name : Text) :
    getEventType ("tickString".toList ++ '/' :: name) =
      if name ∈ ["LAST_TIMESTAMP"].map String.toList then some ("value".toList, .timestamp)
      else none := by
  rw [← lookup_map_const]
  simp [getEventType, eventValueMap, List.lookup]

theorem tickTypeName_mem_iff (field : TickType) :
    (tickTypeName field ∈ ["CLOSE", "BID", "ASK", "LAST"] ↔
      field ∈ [.close, .bid, .ask, .last]) ∧
    (tickTypeName field ∈ ["BID_SIZE", "ASK_SIZE", "LAST_SIZE"] ↔
      field ∈ [.bidSize, .askSize, .lastSize]) ∧
    (tickTypeName field ∈ ["LAST_TIMESTAMP"] ↔ field = .lastTimestamp) := by
  cases field <;> decide

theorem toList_mem_map {s : String} {names : List String} :
    s.toList ∈ names.map String.toList ↔ s ∈ names :=
  List.mem_map_of_injective fun _ _ => String.toList_inj.mp

theorem getEventType_callback (c : Callback) :
    getEventType (c.method ++ '/' :: c.fieldName) =
      if Listed c then some (valueField c.payload) else none := by
  obtain ⟨tickerId, field, payload⟩ := c
  obtain ⟨hprice, hsize, hstring⟩ := tickTypeName_mem_iff field
  cases payload with
  | tickPrice price canAutoExecute =>
      refine (getEventType_tickPrice (tickTypeName field).toList).trans ?_
      simp only [toList_mem_map, hprice, Listed, decide_eq_true_eq]
      rfl
  | tickSize size =>
      refine (getEventType_tickSize (tickTypeName field).toList).trans ?_
      simp only [toList_mem_map, hsize, Listed, decide_eq_true_eq]
      rfl
  | tickGeneric value => exact getEventType_tickGeneric (tickTypeName field).toList
  | tickString value =>
      refine (getEventType_tickString (tickTypeName field).toList).trans ?_
      simp only [toList_mem_map, hstring, Listed, decide_eq_true_eq]
      rfl

theorem getEventType_method {c : Callback} (hc : getEventType c.method = none) :
    Listed c = false := by
  obtain ⟨tickerId, field, payload⟩ := c
  cases payload with
  | tickGeneric value => rfl
  | tickPrice price canAutoExecute => cases hc
  | tickSize size => cases hc
  | tickString value => cases hc

theorem find_pairs (t : Tick) :
    find t.pairs.reverse "event".toList = some t.callback.method ∧
    find t.pairs.reverse "ts_utc".toList = some (decimal t.logged.toNat) ∧
    find t.pairs.reverse "tickerId".toList = some (integer t.callback.tickerId.toInt) ∧
    find t.pairs.reverse "field".toList = some t.callback.fieldName ∧
    find t.pairs.reverse "id".toList = none ∧
    find t.pairs.reverse "action".toList = none := by
  obtain ⟨header, connectionId, logged, latest, tickerId, field, payload⟩ := t
  cases payload <;> exact ⟨rfl, rfl, rfl, rfl, rfl, rfl⟩

theorem getTimestamp_pairs (t : Tick) : getTimestamp t.pairs.reverse = .ok (some t.logged) :=
  getField_of_some (find_pairs t).2.1 (LexicalCast.uint64_decimal t.logged)

/-- The message of a callback that the reader knows under `symbol`, with a value
that it has read. -/
def readMessage (t : Tick) (symbol : Text) (value : Value) : MarketData :=
  { timestamp := t.logged
    symbol := symbol
    event := t.callback.fieldName
    value := value
    contractId := t.callback.tickerId.toUInt64 }

theorem toMarketData_pairs {symbolMap : SymbolMap} {t : Tick} {symbol : Text}
    (hsymbol : symbolMap.lookup t.callback.tickerId = some symbol) :
    toMarketData symbolMap t.pairs.reverse =
      if Listed t.callback then
        (fieldValue t.pairs.reverse (valueField t.callback.payload).1
          (valueField t.callback.payload).2).map fun value => some (readMessage t symbol value)
      else .ok none := by
  obtain ⟨hevent, htime, hid, hfield, -, -⟩ := find_pairs t
  rw [toMarketData, getField_of_some htime (LexicalCast.uint64_decimal _),
    getField_of_some hid (LexicalCast.long_integer _), hevent, hfield]
  simp only [ok_bind, hsymbol, getEventType_callback]
  split_ifs
  · dsimp only
    cases fieldValue t.pairs.reverse (valueField t.callback.payload).1
      (valueField t.callback.payload).2 <;> rfl
  · rfl

theorem fieldValue_pairs {t : Tick} (hlisted : Listed t.callback = true)
    (ht : ArgumentReady t.callback) :
    ∃ value, fieldValue t.pairs.reverse (valueField t.callback.payload).1
      (valueField t.callback.payload).2 = .ok value ∧
      value.type = (valueField t.callback.payload).2 := by
  obtain ⟨header, connectionId, logged, latest, tickerId, field, payload⟩ := t
  cases payload with
  | tickPrice price canAutoExecute =>
      obtain ⟨y, hy⟩ := DoubleText.double_text price
      refine ⟨{ type := .double, doubleValue := some y }, ?_, rfl⟩
      change fieldValue _ "price".toList .double = _
      rw [fieldValue, getField_of_some rfl hy]
      rfl
  | tickSize size =>
      refine ⟨{ type := .int, intValue := some size.toInt64 }, ?_, rfl⟩
      change fieldValue _ "size".toList .int = _
      rw [fieldValue, getField_of_some rfl (LexicalCast.int_integer size)]
      rfl
  | tickGeneric value => cases hlisted
  | tickString value =>
      obtain ⟨time, htime⟩ := ht.2 (of_decide_eq_true hlisted)
      refine ⟨{ type := .timestamp, timestampValue := some time.toInt64 }, ?_, rfl⟩
      change fieldValue _ "value".toList .timestamp = _
      rw [fieldValue, getField_of_some rfl htime]
      rfl

/-! ### Delivery -/

def Unlimited (o : Options) : Prop := o.duration = none ∧ o.start = none

/-- The reader once it has taken note of the time of a line. -/
def seen (r : State) (time : UInt64) : State :=
  { r with
    current := some time
    first := if r.first = none ∧ r.matchedRecords = 1 then some time else r.first }

theorem readEvent_pairs {o : Options} (ho : Unlimited o) (r : State) {t : Tick}
    (hhours : inHours o t.logged = true) :
    readEvent o r t.pairs.reverse = deliver (seen r t.logged) t.pairs.reverse := by
  rw [readEvent, checkTime, getTimestamp_pairs]
  simp only [ok_bind, hhours, ↓reduceIte, beforeStart, ho.2, Bool.false_eq_true, scan,
    afterDuration, ho.1]
  split_ifs with hfirst <;> simp [seen, hfirst]

theorem deliver_of_listed {r : State} {t : Tick} {symbol : Text}
    (hsymbol : r.symbolMap.lookup t.callback.tickerId = some symbol)
    (hlisted : Listed t.callback = true) (ht : ArgumentReady t.callback) :
    ∃ value, value.type = (valueField t.callback.payload).2 ∧
      deliver r t.pairs.reverse = .ok { r with
        marketData := r.marketData ++ [readMessage t symbol value]
        matchedRecords := r.matchedRecords + 1 } := by
  obtain ⟨value, hvalue, htype⟩ := fieldValue_pairs hlisted ht
  refine ⟨value, htype, ?_⟩
  rw [deliver, toMarketData_pairs hsymbol, if_pos hlisted, hvalue]
  rfl

theorem deliver_of_not_listed {r : State} {t : Tick} {symbol : Text}
    (hsymbol : r.symbolMap.lookup t.callback.tickerId = some symbol)
    (hlisted : Listed t.callback = false) :
    deliver r t.pairs.reverse = .ok r := by
  obtain ⟨-, htime, -, -, hid, -⟩ := find_pairs t
  have hdepth : toMarketDepth r.symbolMap t.pairs.reverse = .ok none := by
    rw [toMarketDepth, getField_of_some htime (LexicalCast.uint64_decimal _),
      getField_of_none _ hid]
    rfl
  rw [deliver, toMarketData_pairs hsymbol, if_neg (by rw [hlisted]; exact Bool.false_ne_true)]
  simp only [ok_bind, hdepth]

theorem readRecord_pairs {o : Options} (ho : Unlimited o) {r : State} {t : Tick} {symbol : Text}
    (hsymbol : r.symbolMap.lookup t.callback.tickerId = some symbol)
    (hhours : inHours o t.logged = true) (ht : ArgumentReady t.callback) :
    ∃ r' messages, readRecord o r t.pairs.reverse = .ok r' ∧ r'.symbolMap = r.symbolMap ∧
      r'.done = r.done ∧ r'.marketDepth = r.marketDepth ∧
      r'.marketData = r.marketData ++ messages ∧
      if Listed t.callback then ∃ value, value.type = (valueField t.callback.payload).2 ∧
        messages = [readMessage t symbol value]
      else messages = [] := by
  obtain ⟨hevent, -, -, -, -, haction⟩ := find_pairs t
  have hread : readRecord o r t.pairs.reverse =
      if (getEventType t.callback.method).isSome = false then .ok r
      else readEvent o r t.pairs.reverse := by
    rw [readRecord, isAction, haction, isSupported, hevent]
    simp
  rw [hread]
  cases hlisted : Listed t.callback with
  | true =>
      have hmethod : (getEventType t.callback.method).isSome = true := by
        by_contra hnone
        rw [Bool.not_eq_true, Option.isSome_eq_false_iff, Option.isNone_iff_eq_none] at hnone
        rw [getEventType_method hnone] at hlisted
        cases hlisted
      obtain ⟨value, htype, hdeliver⟩ := deliver_of_listed (r := seen r t.logged) hsymbol hlisted ht
      rw [hmethod, if_neg Bool.noConfusion, readEvent_pairs ho r hhours, hdeliver]
      exact ⟨_, _, rfl, rfl, rfl, rfl, rfl, value, htype, rfl⟩
  | false =>
      cases (getEventType t.callback.method).isSome with
      | false => exact ⟨r, [], rfl, rfl, rfl, rfl, (List.append_nil _).symm, rfl⟩
      | true =>
          rw [if_neg Bool.noConfusion, readEvent_pairs ho r hhours,
            deliver_of_not_listed (r := seen r t.logged) hsymbol hlisted]
          exact ⟨_, [], rfl, rfl, rfl, rfl, (List.append_nil _).symm, rfl⟩

theorem argumentReady_readTick {t : Tick} (ht : ArgumentReady t.callback) :
    ArgumentReady (readTick t).callback := by
  obtain ⟨header, connectionId, logged, latest, tickerId, field, payload⟩ := t
  cases payload with
  | tickPrice price canAutoExecute => exact trivial
  | tickSize size => exact trivial
  | tickGeneric value => exact trivial
  | tickString value =>
      refine ⟨fun hmem => ht.1 (mem_of_mem_firstWord hmem), fun hfield => ?_⟩
      obtain ⟨time, htime⟩ := ht.2 hfield
      have hclean : Clean value := clean_of_isNumeral fun c hc => by
        rcases LexicalCast.isDigit_or_sign_of_uint64 htime c hc with hdigit | rfl | rfl
        · exact .inl hdigit
        · exact .inr (by decide)
        · exact .inr (by decide)
      exact ⟨time, (congrArg LexicalCast.uint64 (firstWord_eq_self hclean.2)).trans htime⟩

end Atp.Replay

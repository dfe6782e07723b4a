import Atp.HistorianLoader
import Atp.LoggedActions
import Atp.MarketRequests

/-!
The log of a gateway: the lines of its requests and callbacks, among whatever else is
logged, and the words of these lines as records.
-/

namespace Atp.GatewayLog

open EventLog HistorianLoader LogRecord LoggedActions MarketRequests Replay

/-! ### The gateway -/

/-- A request that comes in, with the start of the log line of its call and what is printed
there of the clock and of the contract's address. -/
structure Requested where
  header : { header : Text // ',' ∉ header }
  connectionId : UInt32
  callStart : UInt64
  utcMicros : Int64
  address : { address : Text // Clean address }
  request : MarketRequests.Request

def actionOf : EClientCall → LoggedActions.Action
  | .reqMktData _ _ genericTicks snapshot => .reqMktData genericTicks snapshot
  | .reqMktDepth _ _ numRows => .reqMktDepth numRows

/-- The call as `LOG_START` has it. -/
def Requested.logged (r : Requested) (call : EClientCall) : LoggedActions.Call where
  header := r.header
  connectionId := r.connectionId
  callStart := r.callStart
  utcMicros := r.utcMicros
  id := call.requestId
  address := r.address
  contract := call.contract
  action := actionOf call

/-- The end of a call, with the start of its log line. -/
structure Returned where
  header : { header : Text // ',' ∉ header }
  connectionId : UInt32
  callStart : UInt64
  action : LoggedActions.Action
  elapsed : UInt64

/-- `LOG_END`. -/
def Returned.line (r : Returned) : Text :=
  r.header ++ ' ' :: pairsText '=' ','
    ([("cid".toList, decimal r.connectionId.toNat), ("ts".toList, decimal r.callStart.toNat),
      ("action".toList, r.action.name)] ++ [("elapsed".toList, decimal r.elapsed.toNat)])

/-- A message that has been published, with the callback it comes from. -/
inductive Live where
  | data (t : Tick) (v : MarketData)
  | depth (t : DepthTick) (v : Depth)

/-- The calls of the API client, the lines of the log and the messages so far. -/
structure State where
  tickerMap : TickerMap
  calls : List EClientCall
  log : List Text
  published : List Live

def init : State := ⟨.empty, [], [], []⟩

/-- Other lines are logged at any time, also between the two lines of a call. -/
inductive Event where
  | request (r : Requested)
  | returned (r : Returned)
  | tick (t : Tick)
  | depth (t : DepthTick)
  | other (line : Text)

/-- A callback is logged before it is published. -/
def step (s : State) : Event → Option State
  | .request r =>
      let called := r.request.callApi s.tickerMap
      some { s with
        tickerMap := called.tickerMap
        calls := s.calls ++ called.calls
        log := s.log ++ called.calls.map fun call => (r.logged call).line }
  | .returned r => some { s with log := s.log ++ [r.line] }
  | .tick t =>
      some { s with
        log := s.log ++ [t.line]
        published := s.published ++
          ((publish s.tickerMap t.latest t.callback).map (.data t)).toList }
  | .depth t =>
      some { s with
        log := s.log ++ [t.line]
        published := s.published ++
          ((publishDepth s.tickerMap t.latest t.callback).map (.depth t)).toList }
  | .other line => some { s with log := s.log ++ [line] }

/-! ### The words of a line -/

/-- The words of a text that the loader reads. -/
def records (text : Text) : List (Except FieldSplit.Failure LogRecord) :=
  ((tokens text).filter fun word => ',' ∈ word).map (lineToRecord '=' ',')

theorem records_append (a b : Text) {c : Char} (hc : isSpace c = true) :
    records (a ++ c :: b) = records a ++ records b := by
  rw [records, tokens_append a b hc, List.filter_append, List.map_append]
  rfl

theorem records_of_no_comma {s : Text} (hs : ',' ∉ s) : records s = [] := by
  have hnone : ∀ word ∈ tokens s, ¬ decide (',' ∈ word) = true := by
    intro word hword hcomma
    exact hs (mem_of_mem_tokens hword (of_decide_eq_true hcomma))
  rw [records, List.filter_eq_nil_iff.mpr hnone, List.map_nil]

/-- Of a line, the start is skipped; the first word ends at the first white space of the
last part. -/
theorem records_line {header front last : Text} (hheader : ',' ∉ header) (hcomma : ',' ∈ front)
    (hspace : ∀ c ∈ front, isSpace c = false) :
    records (header ++ ' ' :: (front ++ last)) =
      lineToRecord '=' ',' (front ++ firstWord last) ::
        records (last.dropWhile fun c => !isSpace c) := by
  have hmem : ',' ∈ front ++ firstWord last := List.mem_append_left _ hcomma
  rw [records_append header _ (by decide), records_of_no_comma hheader, List.nil_append, records,
    tokens_first (List.ne_nil_of_mem hcomma) hspace, List.filter_cons_of_pos (by simpa using hmem)]
  rfl

/-- A line of pairs is read as the pairs, the last of them up to its first white space. -/
theorem records_pairs {header : Text} (hheader : ',' ∉ header) {front : List (Text × Text)}
    (hfront : front ≠ []) (hclean : ∀ p ∈ front, CleanPair p) {name value : Text}
    (hname : CleanName name) (hvalue : ',' ∉ value) :
    records (header ++ ' ' :: pairsText '=' ',' (front ++ [(name, value)])) =
      [.ok ((name, firstWord value) :: front.reverse)] := by
  have hlater : ',' ∉ value.dropWhile fun c => !isSpace c := fun hmem =>
    hvalue ((List.dropWhile_suffix _).subset hmem)
  have hfirst : ',' ∉ firstWord value := fun hmem => hvalue (mem_of_mem_firstWord hmem)
  have hread := lineToRecord_cleanFront hclean hname hfirst
  rw [pairsText_concat hfront] at hread ⊢
  rw [records_line hheader (List.mem_append_right _ List.mem_cons_self)
    (not_space_concat hclean hname), records_of_no_comma hlater, hread]

theorem records_of_clean {header : Text} (hheader : ',' ∉ header) {front : List (Text × Text)}
    (hfront : front ≠ []) (hclean : ∀ p ∈ front, CleanPair p) {name value : Text}
    (hname : CleanName name) (hvalue : Clean value) :
    records (header ++ ' ' :: pairsText '=' ',' (front ++ [(name, value)])) =
      [.ok ((name, value) :: front.reverse)] := by
  rw [records_pairs hheader hfront hclean hname hvalue.1, firstWord_eq_self hvalue.2]

/-! ### The lines -/

theorem records_tick {t : Tick} (hheader : ',' ∉ t.header)
    (hvalue : ∀ value, t.callback.payload = .tickString value → ',' ∉ value) :
    records t.line = [.ok (readTick t).pairs.reverse] := by
  obtain ⟨header, connectionId, logged, latest, tickerId, field, payload⟩ := t
  have hfront : ∀ method : Text, Clean method → ∀ p ∈ [("cid".toList, decimal connectionId.toNat),
      ("ts_utc".toList, decimal logged.toNat), ("event".toList, method),
      ("tickerId".toList, integer tickerId.toInt),
      ("field".toList, (tickTypeName field).toList)], CleanPair p := by
    intro method hmethod
    simp only [List.forall_mem_cons, List.not_mem_nil, IsEmpty.forall_iff, implies_true, and_true]
    exact ⟨cleanPair (by decide) (clean_decimal _), cleanPair (by decide) (clean_decimal _),
      cleanPair (by decide) hmethod, cleanPair (by decide) (clean_integer _),
      cleanPair (by decide) (clean_tickTypeName _)⟩
  cases payload with
  | tickPrice price canAutoExecute =>
      have hclean := List.forall_mem_append.mpr
        ⟨hfront "tickPrice".toList (by decide), List.forall_mem_singleton.mpr
          (cleanPair (by decide) (clean_text price) : CleanPair ("price".toList, price.text))⟩
      exact records_of_clean hheader (List.cons_ne_nil _ _) hclean
        (by decide : CleanName "canAutoExecute".toList) (clean_integer canAutoExecute.toInt)
  | tickSize size =>
      exact records_of_clean hheader (List.cons_ne_nil _ _) (hfront "tickSize".toList (by decide))
        (by decide : CleanName "size".toList) (clean_integer size.toInt)
  | tickGeneric value =>
      exact records_of_clean hheader (List.cons_ne_nil _ _)
        (hfront "tickGeneric".toList (by decide)) (by decide : CleanName "value".toList)
        (clean_text value)
  | tickString value =>
      exact records_pairs hheader (List.cons_ne_nil _ _) (hfront "tickString".toList (by decide))
        (by decide : CleanName "value".toList) (hvalue value rfl)

theorem records_depth {t : DepthTick} (hheader : ',' ∉ t.header)
    (hmm : ∀ mm ∈ t.callback.marketMaker, Clean mm) :
    records t.line = [.ok t.pairs.reverse] := by
  have hpairs := cleanPair_of_mem_pairs hmm
  have hsplit : t.pairs =
      t.pairs.dropLast ++ [("size".toList, integer t.callback.size.toInt)] := by
    obtain ⟨header, connectionId, logged, latest, callback⟩ := t
    obtain ⟨id, position, marketMaker, operation, side, price, size⟩ := callback
    cases marketMaker <;> rfl
  have hfront : t.pairs.dropLast ≠ [] := by
    obtain ⟨header, connectionId, logged, latest, callback⟩ := t
    obtain ⟨id, position, marketMaker, operation, side, price, size⟩ := callback
    cases marketMaker <;> exact List.cons_ne_nil _ _
  have hread := records_of_clean hheader hfront
    (fun p hp => hpairs p (List.mem_of_mem_dropLast hp)) (by decide : CleanName "size".toList)
    (clean_integer t.callback.size.toInt)
  rw [← hsplit] at hread
  rw [DepthTick.line, hread, hsplit, List.reverse_append]
  simp

/-- The end of a call has no id. -/
theorem records_returned (r : Returned) :
    records r.line = [.ok [("elapsed".toList, decimal r.elapsed.toNat),
      ("action".toList, r.action.name), ("ts".toList, decimal r.callStart.toNat),
      ("cid".toList, decimal r.connectionId.toNat)]] := by
  have hfront : ∀ p ∈ [("cid".toList, decimal r.connectionId.toNat),
      ("ts".toList, decimal r.callStart.toNat), ("action".toList, r.action.name)],
      CleanPair p := by
    simp only [List.forall_mem_cons, List.not_mem_nil, IsEmpty.forall_iff, implies_true, and_true]
    exact ⟨cleanPair (by decide) (clean_decimal _), cleanPair (by decide) (clean_decimal _),
      cleanPair (by decide) (clean_name r.action).1⟩
  exact records_of_clean r.header.2 (List.cons_ne_nil _ _) hfront
    (by decide : CleanName "elapsed".toList) (clean_decimal r.elapsed.toNat)

/-- The first record of a call begins with its front. -/
theorem records_call (c : LoggedActions.Call) :
    records c.line =
      lineToRecord '=' ',' (pairsText '=' ',' c.front ++ ',' :: firstWord (restText c)) ::
        records (laterText c) := by
  have hheader : (tokens c.header).filter (fun word => ',' ∈ word) = [] := by
    rw [List.filter_eq_nil_iff]
    intro word hword hcomma
    exact c.header.2 (mem_of_mem_tokens hword (of_decide_eq_true hcomma))
  have hfirst : ',' ∈ pairsText '=' ',' c.front ++ ',' :: firstWord (restText c) :=
    List.mem_append_right _ List.mem_cons_self
  rw [records, tokens_call, List.filter_append, hheader, List.nil_append,
    List.filter_cons_of_pos (by exact decide_eq_true hfirst), List.map_cons]
  rfl

end Atp.GatewayLog

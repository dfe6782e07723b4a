import Atp.LoadedRecords
import Atp.Runs

/-!
The log of a gateway, loaded into a database.  Of every message that was published, the
loader writes what its log line has of it, and nothing else but session logs, in however
many files the log lies.
-/

namespace Atp.SessionLoad

open EventLog GatewayLog HistorianLoader HistorianStore LoadedRecords LogRecord LoggedActions
  LoaderRun Replay

/-! ### Apart from the session logs -/

def isRecord : Message → Bool
  | .marketData _ => true
  | .marketDepth _ => true
  | .sessionLog _ => false

/-- The calls for records of the market. -/
def recordCalls (calls : List WriteCall) : List WriteCall :=
  calls.filter fun call => call.value.any isRecord

theorem recordCalls_append (calls calls' : List WriteCall) :
    recordCalls (calls ++ calls') = recordCalls calls ++ recordCalls calls' :=
  List.filter_append ..

/-- The two differ in nothing that decides about the records. -/
structure Alike (s s' : LoaderRun.State) : Prop where
  symbols : s.tickerIdSymbolMap = s'.tickerIdSymbolMap
  calls : recordCalls s.calls = recordCalls s'.calls
  aborted : s.aborted = s'.aborted

theorem Alike.refl (s : LoaderRun.State) : Alike s s := ⟨rfl, rfl, rfl⟩

theorem Alike.trans {s s' s'' : LoaderRun.State} (h : Alike s s') (h' : Alike s' s'') :
    Alike s s'' :=
  ⟨h.symbols.trans h'.symbols, h.calls.trans h'.calls, h.aborted.trans h'.aborted⟩

theorem recordCalls_sessionLogs {α : Type} (logs : List α) (f : α → SessionLog)
    (overwrite : Bool) :
    recordCalls (logs.map fun log => ⟨some (.sessionLog (f log)), overwrite, {}⟩) = [] := by
  rw [recordCalls, List.filter_eq_nil_iff]
  intro call hcall
  obtain ⟨log, -, rfl⟩ := List.mem_map.mp hcall
  exact Bool.false_ne_true

section

variable (flags : Flags) (source source' : Text) {s s' : LoaderRun.State}

theorem recordCalls_writeDb (s : LoaderRun.State) (data : SessionLogs.Data)
    (value : Option Message) :
    recordCalls (LoaderRun.writeDb flags source s data value).calls =
      recordCalls s.calls ++ recordCalls [⟨value, !flags.checkDuplicate, {}⟩] := by
  unfold LoaderRun.writeDb
  dsimp only
  rw [recordCalls_append, recordCalls_append, recordCalls_sessionLogs, List.append_nil]

theorem recordCalls_singleton {message : Message} (hmessage : isRecord message = true)
    (overwrite : Bool) :
    recordCalls [⟨some message, overwrite, {}⟩] = [⟨some message, overwrite, {}⟩] :=
  List.filter_cons_of_pos hmessage

theorem recordCalls_readEvent (s : LoaderRun.State) (data : MarketData) :
    recordCalls (readEvent flags source s data).calls =
      recordCalls s.calls ++
        if inHours flags data.timestamp then
          [⟨some (.marketData data), !flags.checkDuplicate, {}⟩]
        else [] := by
  unfold readEvent
  split_ifs
  · rw [recordCalls_writeDb, recordCalls_singleton rfl]
  · exact (List.append_nil _).symm

theorem recordCalls_readBookEvent (s : LoaderRun.State) (d : Depth) :
    recordCalls (readBookEvent flags source s d).calls =
      recordCalls s.calls ++
        if inHours flags d.timestamp then
          ((Recording.initialized d).map fun v =>
            ⟨some (.marketDepth v), !flags.checkDuplicate, {}⟩).toList
        else [] := by
  unfold readBookEvent
  split_ifs
  · rw [recordCalls_writeDb]
    cases Recording.initialized d <;> rfl
  · exact (List.append_nil _).symm

/-- An event that is written changes nothing else. -/
theorem keeps_readEvent (s : LoaderRun.State) (data : MarketData) :
    (readEvent flags source s data).tickerIdSymbolMap = s.tickerIdSymbolMap ∧
      (readEvent flags source s data).aborted = s.aborted := by
  unfold readEvent
  split_ifs <;> exact ⟨rfl, rfl⟩

theorem keeps_readBookEvent (s : LoaderRun.State) (d : Depth) :
    (readBookEvent flags source s d).tickerIdSymbolMap = s.tickerIdSymbolMap ∧
      (readBookEvent flags source s d).aborted = s.aborted := by
  unfold readBookEvent
  split_ifs <;> exact ⟨rfl, rfl⟩

theorem Alike.readEvent (h : Alike s s') (data : MarketData) :
    Alike (readEvent flags source s data) (readEvent flags source' s' data) where
  symbols := by rw [(keeps_readEvent ..).1, (keeps_readEvent ..).1, h.symbols]
  calls := by rw [recordCalls_readEvent, recordCalls_readEvent, h.calls]
  aborted := by rw [(keeps_readEvent ..).2, (keeps_readEvent ..).2, h.aborted]

theorem Alike.readBookEvent (h : Alike s s') (d : Depth) :
    Alike (readBookEvent flags source s d) (readBookEvent flags source' s' d) where
  symbols := by rw [(keeps_readBookEvent ..).1, (keeps_readBookEvent ..).1, h.symbols]
  calls := by rw [recordCalls_readBookEvent, recordCalls_readBookEvent, h.calls]
  aborted := by rw [(keeps_readBookEvent ..).2, (keeps_readBookEvent ..).2, h.aborted]

theorem Alike.readOther (h : Alike s s') (nv : LogRecord) :
    Alike (readOther flags source s nv) (readOther flags source' s' nv) := by
  unfold LoaderRun.readOther
  split_ifs
  · have hmap : Alike
        { s with tickerIdSymbolMap := converted s.tickerIdSymbolMap nv "id".toList }
        { s' with tickerIdSymbolMap := converted s'.tickerIdSymbolMap nv "id".toList } :=
      ⟨congrArg (converted · nv "id".toList) h.symbols, h.calls, h.aborted⟩
    unfold readBook
    dsimp only
    rw [h.symbols] at hmap ⊢
    split
    · exact hmap.readBookEvent flags source source' _
    · exact hmap
  · unfold readAction
    rw [h.symbols]
    split
    · exact ⟨rfl, h.calls, h.aborted⟩
    · exact ⟨rfl, h.calls, rfl⟩
  · exact h

theorem Alike.readRecord (h : Alike s s') (nv : LogRecord) :
    Alike (readRecord flags source s nv) (readRecord flags source' s' nv) := by
  unfold LoaderRun.readRecord
  split_ifs
  · have hmap : Alike
        { s with tickerIdSymbolMap := converted s.tickerIdSymbolMap nv "tickerId".toList }
        { s' with tickerIdSymbolMap := converted s'.tickerIdSymbolMap nv "tickerId".toList } :=
      ⟨congrArg (converted · nv "tickerId".toList) h.symbols, h.calls, h.aborted⟩
    dsimp only
    rw [h.symbols] at hmap ⊢
    split
    · exact hmap.readEvent flags source source' _
    · exact hmap.readOther flags source source' nv
  · exact h.readOther flags source source' nv

theorem Alike.foldl (h : Alike s s') (records : List (Except FieldSplit.Failure LogRecord)) :
    Alike (records.foldl (readUnlessAborted flags source) s)
      (records.foldl (readUnlessAborted flags source') s') := by
  induction records generalizing s s' with
  | nil => exact h
  | cons record records ih =>
      apply ih
      unfold readUnlessAborted
      rw [h.aborted]
      split_ifs
      · exact h
      · cases record with
        | error e => exact ⟨h.symbols, h.calls, rfl⟩
        | ok nv => exact h.readRecord flags source source' nv

theorem alike_writeSessionLogs (s : LoaderRun.State) :
    Alike (writeSessionLogs flags source s) s where
  symbols := rfl
  calls := by
    unfold writeSessionLogs
    dsimp only
    rw [recordCalls_append, recordCalls_sessionLogs, List.append_nil]
  aborted := rfl

/-- A text that goes on after an abort is not read. -/
theorem foldl_of_aborted (hs : s.aborted = true)
    (records : List (Except FieldSplit.Failure LogRecord)) :
    records.foldl (readUnlessAborted flags source) s = s := by
  induction records with
  | nil => rfl
  | cons record records ih => rw [List.foldl_cons, readUnlessAborted, if_pos hs, ih]

theorem records_fileText (lines : List Text) :
    records (fileText lines) = lines.flatMap records := by
  rw [records, tokens_fileText, List.filter_flatMap, List.map_flatMap]
  rfl

/-- A file of lines is read as the lines are. -/
theorem Alike.readFile (h : Alike s s') {files : Text → Option Text} {filename : Text}
    {lines : List Text} (hfile : files filename = some (fileText lines)) :
    Alike (LoaderRun.readFile flags files s filename)
      ((lines.flatMap records).foldl (readUnlessAborted flags source) s') := by
  have hlines := h.foldl flags (sourceOf filename) source (lines.flatMap records)
  unfold LoaderRun.readFile
  split_ifs with haborted
  · rw [h.aborted] at haborted
    rw [foldl_of_aborted flags source haborted]
    exact h
  · rw [hfile]
    dsimp only
    rw [foldl_tokens, records_fileText]
    split_ifs
    · exact hlines
    · exact (alike_writeSessionLogs flags (sourceOf filename) _).trans hlines

theorem Alike.readFiles (h : Alike s s') {files : Text → Option Text} {pieces : Text → List Text}
    {filenames : List Text}
    (hfiles : ∀ filename ∈ filenames, files filename = some (fileText (pieces filename))) :
    Alike (filenames.foldl (LoaderRun.readFile flags files) s)
      (((filenames.flatMap pieces).flatMap records).foldl (readUnlessAborted flags source) s') := by
  induction filenames generalizing s s' with
  | nil => exact h
  | cons filename filenames ih =>
      rw [List.forall_mem_cons] at hfiles
      rw [List.flatMap_cons, List.flatMap_append, List.foldl_append]
      exact ih (h.readFile flags source hfiles.1) hfiles.2

end

/-! ### The log of a session -/

/-- A callback comes for an id that has been called for.  The words of other lines are
read past. -/
def Ready (s : GatewayLog.State) : GatewayLog.Event → Prop
  | .request r => ∀ call ∈ (r.request.callApi s.tickerMap).calls, CallReady (r.logged call)
  | .returned _ => True
  | .tick t => (∃ call ∈ s.calls, call.requestId = t.callback.tickerId) ∧ ',' ∉ t.header ∧
      ∀ value, t.callback.payload = .tickString value → ',' ∉ value
  | .depth t => (∃ call ∈ s.calls, call.requestId = t.callback.id) ∧ ',' ∉ t.header ∧
      ∀ mm ∈ t.callback.marketMaker, Clean mm
  | .other line => ∀ record ∈ records line, ReadPast record

/-- What the loader has after the log so far, compared with the gateway. -/
structure Inv (flags : Flags) (s : GatewayLog.State) (r : LoaderRun.State) : Prop where
  read : (s.log.flatMap records).foldl (readUnlessAborted flags []) {} = r
  notAborted : r.aborted = false
  known : ∀ id symbol, r.tickerIdSymbolMap.lookup id = some symbol →
    s.tickerMap.getSubscriptionKeyFromId id = some symbol
  called : ∀ call ∈ s.calls, ∃ symbol, r.tickerIdSymbolMap.lookup call.requestId = some symbol
  made : recordCalls r.calls = s.published.filterMap (loadedCall flags)

section

variable {flags : Flags} {s : GatewayLog.State} {r : LoaderRun.State}

theorem inv_init (flags : Flags) : Inv flags GatewayLog.init {} where
  read := rfl
  notAborted := rfl
  known := fun id symbol h => by cases h
  called := fun call h => absurd h List.not_mem_nil
  made := rfl

theorem Inv.read_concat (hinv : Inv flags s r) (line : Text) :
    ((s.log ++ [line]).flatMap records).foldl (readUnlessAborted flags []) {} =
      (records line).foldl (readUnlessAborted flags []) r := by
  rw [List.flatMap_append, List.flatMap_singleton, List.foldl_append, hinv.read]

/-- A line that the loader reads past. -/
theorem Inv.readPast (hinv : Inv flags s r) {line : Text}
    (hline : ∀ record ∈ records line, ReadPast record) :
    Inv flags { s with log := s.log ++ [line] } r where
  read := (hinv.read_concat line).trans (foldl_of_readPast flags [] r hline)
  notAborted := hinv.notAborted
  known := hinv.known
  called := hinv.called
  made := hinv.made

theorem Inv.request (hinv : Inv flags s r) {requested : Requested}
    (hready : Ready s (.request requested)) {s' : GatewayLog.State}
    (hstep : GatewayLog.step s (.request requested) = some s') : ∃ r', Inv flags s' r' := by
  obtain rfl := Option.some.inj hstep
  have hkept := fun id symbol hlookup =>
    MarketRequests.getSubscriptionKeyFromId_callApi (hinv.known id symbol hlookup)
      requested.request
  cases hresult : (requested.request.callApi s.tickerMap).result with
  | false =>
      have hnone := MarketRequests.calls_callApi_of_not hresult
      simp only [hnone, List.map_nil, List.append_nil]
      exact ⟨r, hinv.read, hinv.notAborted, hkept, hinv.called, hinv.made⟩
  | true =>
      obtain ⟨call, hcalls, -⟩ := MarketRequests.callApi_of_result hresult
      have hmem : call ∈ (requested.request.callApi s.tickerMap).calls := by
        rw [hcalls]
        exact List.mem_singleton_self call
      have hcall := hready call hmem
      have hpublishable := (MarketRequests.publishable_of_callApi hmem).2 hcall.id
      obtain ⟨symbolMap, hread, hlearnt, hothers⟩ :=
        foldl_call flags [] hcall hinv.notAborted
          fun known hknown => Option.some.inj ((hkept _ known hknown).symm.trans hpublishable)
      simp only [hcalls, List.map_cons, List.map_nil]
      refine ⟨{ r with tickerIdSymbolMap := symbolMap }, (hinv.read_concat _).trans hread,
        hinv.notAborted, ?_, ?_, hinv.made⟩
      · intro id symbol hlookup
        by_cases hsame : id = call.requestId
        · rw [hsame, show symbolMap.lookup call.requestId = _ from hlearnt] at hlookup
          rw [hsame, ← Option.some.inj hlookup]
          exact hpublishable
        · exact hkept id symbol ((hothers id hsame).symm.trans hlookup)
      · intro call' hcall'
        by_cases hsame : call'.requestId = call.requestId
        · rw [hsame]
          exact ⟨_, hlearnt⟩
        · rcases List.mem_append.mp hcall' with hbefore | hnew
          · obtain ⟨symbol, hsymbol⟩ := hinv.called call' hbefore
            exact ⟨symbol, (hothers _ hsame).trans hsymbol⟩
          · exact absurd (congrArg _ (List.mem_singleton.mp hnew)) hsame

/-- A line with one record of the market, from which no symbol is learnt. -/
theorem Inv.record (hinv : Inv flags s r) {line : Text} {nv : LogRecord}
    (hline : records line = [.ok nv]) {published : List Live} {r' : LoaderRun.State}
    (hread : LoaderRun.readRecord flags [] r nv = r')
    (hkeeps : r'.tickerIdSymbolMap = r.tickerIdSymbolMap ∧ r'.aborted = r.aborted)
    (hmade : recordCalls r'.calls =
      recordCalls r.calls ++ published.filterMap (loadedCall flags)) :
    Inv flags { s with log := s.log ++ [line], published := s.published ++ published } r' where
  read := by
    rw [hinv.read_concat, hline, List.foldl_cons, List.foldl_nil, readUnlessAborted,
      hinv.notAborted]
    exact hread
  notAborted := hkeeps.2.trans hinv.notAborted
  known := by
    rw [hkeeps.1]
    exact hinv.known
  called := by
    rw [hkeeps.1]
    exact hinv.called
  made := by rw [hmade, hinv.made, List.filterMap_append]

/-- What comes of a message that was published or not. -/
theorem filterMap_toList (call? : Live → Option WriteCall) (p : Option Live) :
    p.toList.filterMap call? = (p.bind call?).toList := by
  cases p with
  | none => rfl
  | some p => cases hp : call? p <;> simp [hp]

theorem filterMap_publish (flags : Flags) {m : TickerMap} {t : Tick} {symbol : Text}
    (hsymbol : m.getSubscriptionKeyFromId t.callback.tickerId = some symbol) :
    ((publish m t.latest t.callback).map (.data t)).toList.filterMap (loadedCall flags) =
      if inHours flags (loadedTime t.logged) then
        ((loadedValue t.callback.payload).map fun value => ⟨some (.marketData {
          timestamp := loadedTime t.logged
          symbol := symbol
          event := t.callback.fieldName
          value := value
          contractId := t.callback.tickerId.toUInt64 }), !flags.checkDuplicate, {}⟩).toList
      else [] := by
  rw [filterMap_toList, publish, hsymbol, Option.map_some, Option.map_some, Option.bind_some,
    loadedCall, timeOf, loaded]
  split_ifs
  · cases loadedValue t.callback.payload <;> rfl
  · rfl

theorem Inv.tick (hinv : Inv flags s r) {t : Tick} (hready : Ready s (.tick t))
    {s' : GatewayLog.State} (hstep : GatewayLog.step s (.tick t) = some s') :
    ∃ r', Inv flags s' r' := by
  obtain rfl := Option.some.inj hstep
  obtain ⟨⟨call, hcall, hid⟩, hheader, hvalue⟩ := hready
  obtain ⟨symbol, hsymbol⟩ := hinv.called call hcall
  rw [hid] at hsymbol
  have hpayload : loadedValue (readTick t).callback.payload = loadedValue t.callback.payload := by
    obtain ⟨header, connectionId, logged, latest, tickerId, field, payload⟩ := t
    cases payload <;> rfl
  have hread := readRecord_tick flags [] (s := r) (t := readTick t) hsymbol
  rw [hpayload] at hread
  have hpublished := filterMap_publish flags (hinv.known _ symbol hsymbol)
  cases hloaded : loadedValue t.callback.payload with
  | none =>
      rw [hloaded] at hread hpublished
      refine ⟨r, hinv.record (records_tick hheader hvalue) hread ⟨rfl, rfl⟩ ?_⟩
      rw [hpublished, Option.map_none]
      split_ifs <;> exact (List.append_nil _).symm
  | some value =>
      rw [hloaded] at hread hpublished
      refine ⟨_, hinv.record (records_tick hheader hvalue) hread (keeps_readEvent ..) ?_⟩
      rw [hpublished, recordCalls_readEvent]
      rfl

theorem filterMap_publishDepth (flags : Flags) {m : TickerMap} {t : DepthTick}
    {symbols : LogReader.SymbolMap} {symbol : Text}
    (hsymbol : m.getSubscriptionKeyFromId t.callback.id = some symbol)
    (hknown : symbols.lookup t.callback.id = some symbol) :
    ((publishDepth m t.latest t.callback).map (.depth t)).toList.filterMap (loadedCall flags) =
      if inHours flags (t.loaded symbols).timestamp then
        ((Recording.initialized (t.loaded symbols)).map fun v =>
          ⟨some (.marketDepth v), !flags.checkDuplicate, {}⟩).toList
      else [] := by
  have hloaded : ∀ v, publishDepth m t.latest t.callback = some v → { v with
      timestamp := loadedTime t.logged
      price := atof t.callback.price.text
      mm := t.callback.marketMaker.getD [] } = t.loaded symbols := by
    intro v hv
    rw [publishDepth, hsymbol, Option.map_some] at hv
    rw [← Option.some.inj hv, DepthTick.loaded, getSymbol_of_lookup hknown]
    rfl
  obtain ⟨v, hv⟩ : ∃ v, publishDepth m t.latest t.callback = some v := by
    rw [publishDepth, hsymbol]
    exact ⟨_, rfl⟩
  have htime : loadedTime t.logged = (t.loaded symbols).timestamp := rfl
  rw [filterMap_toList, hv, Option.map_some, Option.bind_some, loadedCall, timeOf, loaded,
    hloaded v hv, htime]
  split_ifs
  · cases Recording.initialized (t.loaded symbols) <;> rfl
  · rfl

theorem Inv.depth (hinv : Inv flags s r) {t : DepthTick} (hready : Ready s (.depth t))
    {s' : GatewayLog.State} (hstep : GatewayLog.step s (.depth t) = some s') :
    ∃ r', Inv flags s' r' := by
  obtain rfl := Option.some.inj hstep
  obtain ⟨⟨call, hcall, hid⟩, hheader, hmm⟩ := hready
  obtain ⟨symbol, hsymbol⟩ := hinv.called call hcall
  rw [hid] at hsymbol
  have hread := readRecord_depth flags [] hsymbol
  refine ⟨_, hinv.record (records_depth hheader hmm) hread (keeps_readBookEvent ..) ?_⟩
  rw [filterMap_publishDepth flags (hinv.known _ symbol hsymbol) hsymbol, recordCalls_readBookEvent]

theorem inv_of_step (hinv : Inv flags s r) {e : GatewayLog.Event} {s' : GatewayLog.State}
    (hready : Ready s e) (hstep : GatewayLog.step s e = some s') : ∃ r', Inv flags s' r' := by
  cases e with
  | request requested => exact hinv.request hready hstep
  | returned returned =>
      obtain rfl := Option.some.inj hstep
      exact ⟨r, hinv.readPast (readPast_returned returned)⟩
  | tick t => exact hinv.tick hready hstep
  | depth t => exact hinv.depth hready hstep
  | other line =>
      obtain rfl := Option.some.inj hstep
      exact ⟨r, hinv.readPast hready⟩

theorem inv_of_run (flags : Flags) {events : List GatewayLog.Event}
    (hready : Runs.Throughout GatewayLog.step Ready GatewayLog.init events)
    (hrun : Runs.run GatewayLog.step GatewayLog.init events = some s) : ∃ r, Inv flags s r := by
  apply Runs.inv_of_throughout GatewayLog.step (P := fun s => ∃ r, Inv flags s r) ?_
    ⟨{}, inv_init flags⟩ hready hrun
  rintro s e s' ⟨r, hinv⟩ he hstep
  exact inv_of_step hinv he hstep

end

/-! ### Messages of which nothing is lost -/

def arrival : Live → Recording.Arrival
  | .data _ v => .marketData v
  | .depth _ v => .marketDepth v

/-- The log line has all of the message, and has it in hours that are loaded. -/
structure Intact (flags : Flags) (p : Live) : Prop where
  hours : inHours flags (timeOf p) = true
  message : loaded p = Recording.message (arrival p)

theorem loadedTime_of_lt {logged : UInt64} (hlogged : logged.toNat < 2 ^ 63) :
    loadedTime logged = logged := by
  apply UInt64.toNat_inj.mp
  rw [loadedTime, toNat_strtoll]
  omega

theorem intact_data {flags : Flags} {m : TickerMap} {t : Tick} {v : MarketData}
    (hv : publish m t.latest t.callback = some v) (hclock : loadedTime t.logged = t.latest)
    (hvalue : loadedValue t.callback.payload = some t.callback.value)
    (hhours : inHours flags t.latest = true) : Intact flags (.data t v) where
  hours := by
    rw [timeOf, hclock]
    exact hhours
  message := by
    obtain ⟨topic, -, rfl⟩ := Option.map_eq_some_iff.mp hv
    rw [loaded, hvalue, hclock]
    rfl

/-- Without a market maker, the message that is published says `L1`, and the log nothing. -/
theorem intact_depth {flags : Flags} {m : TickerMap} {t : DepthTick} {v : Depth}
    (hv : publishDepth m t.latest t.callback = some v) (hclock : loadedTime t.logged = t.latest)
    (hprice : atof t.callback.price.text = t.callback.price)
    (hmm : t.callback.marketMaker.isSome = true) (hhours : inHours flags t.latest = true) :
    Intact flags (.depth t v) where
  hours := by
    rw [timeOf, hclock]
    exact hhours
  message := by
    obtain ⟨topic, -, rfl⟩ := Option.map_eq_some_iff.mp hv
    obtain ⟨mm, hmm⟩ := Option.isSome_iff_exists.mp hmm
    rw [loaded, hclock, hprice, hmm]
    rfl

theorem filterMap_of_intact {flags : Flags} {published : List Live}
    (hintact : ∀ p ∈ published, Intact flags p) :
    published.filterMap (loadedCall flags) =
      ((published.map arrival).filterMap Recording.message).map fun message =>
        ⟨some message, !flags.checkDuplicate, {}⟩ := by
  rw [List.filterMap_map, List.map_filterMap]
  apply List.filterMap_congr
  intro p hp
  obtain ⟨hhours, hmessage⟩ := hintact p hp
  rw [loadedCall, if_pos hhours, hmessage]
  rfl

/-! ### The database -/

/-- The keys of the records of the market. -/
def recordKeys : Set Text := { key | ∃ k : SeriesStore.Slot, k.type ≠ .sessionLog ∧ k.key = key }

section

variable (codec : Codec Record)

/-- A record of the market is guarded by a key of these. -/
theorem guard_mem_recordKeys {call : WriteCall} (hcall : call.value.any isRecord = true)
    {w : GuardedWrites.Write Text Text} (hw : w ∈ writes codec [call]) : w.guard ∈ recordKeys := by
  obtain ⟨call', hmem, message, hvalue, -, hguard, -⟩ := exists_call_of_mem_writes codec hw
  obtain rfl := List.mem_singleton.mp hmem
  rw [hvalue, Option.any_some] at hcall
  refine ⟨SeriesStore.slot (SeriesStore.mainItem message), ?_, ?_⟩
  · cases message with
    | marketData v => exact fun h => by cases h
    | marketDepth v => exact fun h => by cases h
    | sessionLog v => cases hcall
  · rw [SeriesStore.key_slot, SeriesStore.key_mainItem, hguard]

/-- Any other call puts none of these keys. -/
theorem not_mem_of_mem_recordKeys {call : WriteCall} (hcall : call.value.any isRecord = false)
    {key : Text} (hkey : key ∈ recordKeys) :
    ∀ w ∈ writes codec [call], key ∉ w.items.map Prod.fst := by
  intro w hw hmem
  obtain ⟨call', hmem', message, hvalue, -, -, hitems⟩ := exists_call_of_mem_writes codec hw
  obtain rfl := List.mem_singleton.mp hmem'
  obtain ⟨k, htype, rfl⟩ := hkey
  rw [hvalue, Option.any_some] at hcall
  rw [hitems] at hmem
  cases message with
  | marketData v => cases hcall
  | marketDepth v => cases hcall
  | sessionLog v =>
      have hkey : k.key = (SeriesStore.slot (.sessionLog v)).key :=
        (List.mem_singleton.mp hmem).trans (SeriesStore.key_slot _).symm
      exact htype (SeriesStore.type_eq_of_key_eq hkey)

/-- Of the records of the market, there is in the database what the calls for these put
there. -/
theorem eqOn_recordCalls (calls : List WriteCall) {levelDb levelDb' : LevelDb}
    (h : Set.EqOn levelDb.get? levelDb'.get? recordKeys) :
    Set.EqOn (writeAll codec levelDb calls).get? (writeAll codec levelDb' (recordCalls calls)).get?
      recordKeys := by
  induction calls generalizing levelDb levelDb' with
  | nil => exact h
  | cons call calls ih =>
      have hwrite : ∀ levelDb : LevelDb, (write codec levelDb call).2.get? =
          GuardedWrites.run levelDb.get? (writes codec [call]) :=
        fun levelDb => SeriesStore.get?_write codec levelDb call
      cases hcall : call.value.any isRecord with
      | true =>
          have hkept : recordCalls (call :: calls) = call :: recordCalls calls :=
            List.filter_cons_of_pos hcall
          rw [hkept]
          apply ih
          rw [hwrite, hwrite]
          exact GuardedWrites.eqOn_run h fun w hw => guard_mem_recordKeys codec hcall hw
      | false =>
          have hdropped : recordCalls (call :: calls) = recordCalls calls :=
            List.filter_cons_of_neg (ne_true_of_eq_false hcall)
          rw [hdropped]
          apply ih
          intro key hkey
          rw [hwrite, GuardedWrites.run_of_not_mem _ (not_mem_of_mem_recordKeys codec hcall hkey)]
          exact h hkey

end

/-! ### The load -/

/-- The log of a session is loaded, from whatever files it lies in: the loader makes the
calls for the messages that were published, in this order, besides those for session logs,
and no record of the market in the database depends on the latter.  If no line has lost
anything, these records are what recording the messages would have made of them. -/
theorem load_shows_session (codec : Codec Record) (levelDb : LevelDb) (flags : Flags)
    {events : List GatewayLog.Event} {s : GatewayLog.State}
    (hready : Runs.Throughout GatewayLog.step Ready GatewayLog.init events)
    (hrun : Runs.run GatewayLog.step GatewayLog.init events = some s)
    {files : Text → Option Text} {pieces : Text → List Text}
    (hfiles : ∀ filename ∈ flags.logfile.splitOn ',',
      files filename = some (fileText (pieces filename)))
    (hlog : (flags.logfile.splitOn ',').flatMap pieces = s.log) :
    recordCalls (LoaderRun.calls flags files) = s.published.filterMap (loadedCall flags) ∧
      (∀ k : SeriesStore.Slot, k.type ≠ .sessionLog →
        (writeAll codec levelDb (LoaderRun.calls flags files)).get? k.key =
          (writeAll codec levelDb (s.published.filterMap (loadedCall flags))).get? k.key) ∧
      ((∀ p ∈ s.published, Intact flags p) →
        ∀ k : SeriesStore.Slot, k.type ≠ .sessionLog →
          (writeAll codec levelDb (LoaderRun.calls flags files)).get? k.key =
            (writeAll codec levelDb (((s.published.map arrival).filterMap Recording.message).map
              fun message => ⟨some message, !flags.checkDuplicate, {}⟩)).get? k.key) := by
  obtain ⟨r, hinv⟩ := inv_of_run flags hready hrun
  have halike := (Alike.refl {}).readFiles flags [] hfiles
  rw [hlog, hinv.read] at halike
  have hcalls : recordCalls (LoaderRun.calls flags files) =
      s.published.filterMap (loadedCall flags) := halike.calls.trans hinv.made
  have hdb : ∀ k : SeriesStore.Slot, k.type ≠ .sessionLog →
      (writeAll codec levelDb (LoaderRun.calls flags files)).get? k.key =
        (writeAll codec levelDb (s.published.filterMap (loadedCall flags))).get? k.key := by
    intro k hk
    rw [← hcalls]
    exact eqOn_recordCalls codec _ (fun _ _ => rfl) ⟨k, hk, rfl⟩
  refine ⟨hcalls, hdb, fun hintact => ?_⟩
  rw [← filterMap_of_intact hintact]
  exact hdb

/-! ### One session -/

def headerOfA : Text := "I0604".toList

theorem comma_not_mem_headerOfA : ',' ∉ headerOfA := by decide

theorem clean_addressOfA : Clean "0x1".toList := by decide

def requestOfA : Requested where
  header := ⟨headerOfA, comma_not_mem_headerOfA⟩
  connectionId := 1
  callStart := 1370354400000000
  utcMicros := 1370354400000000
  address := ⟨"0x1".toList, clean_addressOfA⟩
  request := MarketRequests.aaplRequest 265598

def returnedOfA : Returned where
  header := ⟨headerOfA, comma_not_mem_headerOfA⟩
  connectionId := 1
  callStart := 1370354400000000
  action := .reqMktData [] false
  elapsed := 100

def tickOfA : Tick where
  header := headerOfA
  connectionId := 1
  logged := 1370354401000000
  latest := 1370354401000000
  callback := ⟨265598, .lastSize, .tickSize 100⟩

def depthOfA : DepthTick where
  header := headerOfA
  connectionId := 1
  logged := 1370354402000000
  latest := 1370354402000000
  callback := ⟨265598, 0, some "ARCA".toList, 0, 1, ⟨0x4082700000000000⟩, 5⟩

def eventsOfA : List GatewayLog.Event :=
  [.request requestOfA, .tick tickOfA, .returned returnedOfA, .other "W0604 Reconnected.".toList,
    .depth depthOfA]

def sessionOfA : GatewayLog.State :=
  eventsOfA.foldl (fun s e => (GatewayLog.step s e).getD s) GatewayLog.init

/-- The log lies in two files, and the day is one in summer. -/
def flagsOfSession : Flags where
  logfile := "log/a.log,log/b.log".toList
  eastern := fun t => (t.toNat + 20 * 60 * 60 * 1000000) % (24 * 60 * 60 * 1000000)

def piecesOfA (filename : Text) : List Text :=
  if filename = "log/a.log".toList then sessionOfA.log.take 2 else sessionOfA.log.drop 2

def callOfA : MarketRequests.EClientCall :=
  .reqMktData 265598 {
    conId := 265598
    symbol := "AAPL".toList
    secType := "STK".toList
    exchange := "SMART".toList } [] false

theorem callReady_callOfA : CallReady (requestOfA.logged callOfA) where
  id := by decide
  contract := by
    unfold PlainContract
    decide
  noSpace := List.forall_mem_cons.mpr
    ⟨fun ch hch => absurd hch List.not_mem_nil,
      List.forall_mem_singleton.mpr fun ch hch => List.mem_singleton.mp hch ▸ rfl⟩
  splits := by
    rw [splits_iff]
    refine ⟨⟨_, lineToRecord_of_short (by decide +kernel)⟩, ?_,
      ⟨_, lineToRecord_of_short (by decide +kernel)⟩⟩
    have hlater : tokens (laterText (requestOfA.logged callOfA)) = [] := by decide +kernel
    rw [hlater]
    exact List.forall_mem_nil _
  ownFields := by
    intro nv hread
    have hshort : Short '=' ',' (firstWord (restText (requestOfA.logged callOfA))) := by
      decide +kernel
    obtain rfl := Except.ok.inj ((lineToRecord_of_short hshort).symm.trans hread)
    decide +kernel
  keepsKey := by
    intro nv hread name hname value hvalue
    obtain rfl : [] = nv := Except.ok.inj hread
    cases hvalue
  laterWords := by
    have hlater : records (laterText (requestOfA.logged callOfA)) = [] := rfl
    rw [hlater]
    exact List.forall_mem_nil _

theorem calls_requestOfA : (requestOfA.request.callApi .empty).calls = [callOfA] := rfl

theorem ready_eventsOfA :
    Runs.Throughout GatewayLog.step Ready GatewayLog.init eventsOfA := by
  have hcalled : ∃ call ∈ ([] : List MarketRequests.EClientCall) ++
      (requestOfA.request.callApi .empty).calls, call.requestId = 265598 := by
    rw [calls_requestOfA]
    exact ⟨callOfA, List.mem_singleton_self _, rfl⟩
  rw [eventsOfA, Runs.throughout_cons]
  rintro s hs
  refine ⟨fun call hcall => ?_, ?_⟩
  · change call ∈ (requestOfA.request.callApi .empty).calls at hcall
    rw [calls_requestOfA] at hcall
    exact List.mem_singleton.mp hcall ▸ callReady_callOfA
  obtain rfl := Option.some.inj hs
  rw [Runs.throughout_cons]
  rintro s hs
  refine ⟨⟨hcalled, comma_not_mem_headerOfA, fun value h => by cases h⟩, ?_⟩
  obtain rfl := Option.some.inj hs
  rw [Runs.throughout_cons]
  rintro s hs
  refine ⟨trivial, ?_⟩
  obtain rfl := Option.some.inj hs
  rw [Runs.throughout_cons]
  rintro s hs
  have hother : ∀ record ∈ records "W0604 Reconnected.".toList, ReadPast record := by
    rw [records_of_no_comma (by decide)]
    exact List.forall_mem_nil _
  refine ⟨hother, ?_⟩
  obtain rfl := Option.some.inj hs
  rw [Runs.throughout_cons]
  rintro s hs
  refine ⟨⟨hcalled, comma_not_mem_headerOfA, ?_⟩, Runs.throughout_nil _ _ _⟩
  exact (by decide : ∀ mm ∈ some "ARCA".toList, Clean mm)

theorem intact_published : ∀ p ∈ sessionOfA.published, Intact flagsOfSession p := by
  let m := (requestOfA.request.callApi .empty).tickerMap
  have hpublished : sessionOfA.published =
      [] ++ ((publish m tickOfA.latest tickOfA.callback).map (.data tickOfA)).toList ++
        ((publishDepth m depthOfA.latest depthOfA.callback).map (.depth depthOfA)).toList := rfl
  rw [hpublished, List.nil_append, List.forall_mem_append]
  constructor
  · intro p hp
    obtain ⟨v, hv, rfl⟩ := Option.map_eq_some_iff.mp (Option.mem_toList.mp hp)
    exact intact_data hv (loadedTime_of_lt (by decide)) rfl (by decide +kernel)
  · intro p hp
    obtain ⟨v, hv, rfl⟩ := Option.map_eq_some_iff.mp (Option.mem_toList.mp hp)
    exact intact_depth hv (loadedTime_of_lt (by decide)) (by decide +kernel) rfl
      (by decide +kernel)

theorem load_shows_session_two_files :
    sessionOfA.published.length = 2 ∧
      ∀ k : SeriesStore.Slot, k.type ≠ .sessionLog →
        (writeAll RecordWire.recordCodec OrderedMap.empty
            (LoaderRun.calls flagsOfSession fun name => some (fileText (piecesOfA name)))).get?
              k.key =
          (writeAll RecordWire.recordCodec OrderedMap.empty
            (((sessionOfA.published.map arrival).filterMap Recording.message).map
              fun message => ⟨some message, true, {}⟩)).get? k.key := by
  have hnames : flagsOfSession.logfile.splitOn ',' =
      ["log/a.log".toList, "log/b.log".toList] := by decide +kernel
  have hlog : (flagsOfSession.logfile.splitOn ',').flatMap piecesOfA = sessionOfA.log := by
    rw [hnames, List.flatMap_cons, List.flatMap_singleton]
    exact List.take_append_drop 2 sessionOfA.log
  exact ⟨by decide +kernel, (load_shows_session RecordWire.recordCodec OrderedMap.empty
    flagsOfSession ready_eventsOfA rfl (fun _ _ => rfl) hlog).2.2 intact_published⟩

end Atp.SessionLoad

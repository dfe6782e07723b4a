import Atp.Recording
import Atp.SessionLogs

/-!
A run of the loader over its log files: the calls of `Db::Write` that it makes, and
what is in the database when a load that was killed, or whose writes have failed, is
started again.
-/

namespace Atp

/-- The conversion to a 64-bit integer, which drops the fraction.  What is out of range
becomes the least integer, as the processor has it. -/
def Double.toInt64 (x : Double) : Int64 :=
  let magnitude := x.numerator / Double.denominator
  if x.isFinite ∧ magnitude < 2 ^ 63 then
    Int64.ofInt (LexicalCast.signed x.negative magnitude)
  else Int64.minValue

namespace LoaderRun

open LogRecord HistorianLoader HistorianStore SeriesStore

/-- The flags of the loader.  `eastern` gives the time of day in New York. -/
structure Flags extends SessionLogs.Flags where
  rth : Bool := false
  checkDuplicate : Bool := false
  eastern : UInt64 → Nat

/-- The static maps, and the calls that have been made. -/
structure State where
  tickerIdSymbolMap : LogReader.SymbolMap := ∅
  symbolSessionLogs : AList fun _ : Text => SessionLog := ∅
  calls : List WriteCall := []
  aborted : Bool := false

/-! ### Symbols -/

/-- The map after `GetSymbol`. -/
def registerSymbol (symbolMap : LogReader.SymbolMap) (code : Int64) : LogReader.SymbolMap :=
  match symbolMap.lookup code with
  | some _ => symbolMap
  | none => symbolMap.insert code (getSymbol symbolMap code)

def checkAction (event : LogRecord) : Bool :=
  match find event "action".toList with
  | some action => LogReader.actionMap.contains action
  | none => false

/-- `MapActions`; nothing where it ends the program, with an abort or an exception. -/
def mapActions (symbolMap : LogReader.SymbolMap) (nv : LogRecord) :
    Option LogReader.SymbolMap :=
  match getField atol nv "id".toList with
  | none => some symbolMap
  | some tickerId =>
      match getField id nv "contract".toList with
      | none => some (registerSymbol symbolMap tickerId)
      | some contractString =>
          match lineToRecord ':' ';' contractString with
          | .error _ => none
          | .ok contract =>
              match LogReader.symbolFromContract contract with
              | none => none
              | some symbol =>
                  match symbolMap.lookup tickerId with
                  | none => some (symbolMap.insert tickerId symbol)
                  | some known => if known = symbol then some symbolMap else none

/-! ### Messages -/

/-- `EVENTS`: the field that holds the value, and its type. -/
def events : List (Text × (Text × ValueType)) :=
  [("tickPrice".toList, ("price".toList, .double)), ("tickSize".toList, ("size".toList, .int)),
    ("tickGeneric".toList, ("value".toList, .string))]

/-- The text of a value is not taken over. -/
def typedValue (type : ValueType) (value : Double) : Value :=
  match type with
  | .int => { type := .int, intValue := some value.toInt64 }
  | .double => { type := .double, doubleValue := some value }
  | .string => { type := .string, stringValue := some [] }
  | .timestamp => { type := .timestamp }

/-- `Convert` to a `MarketData`, where it returns true, of an event that `checkEvent` has
found. -/
def convertMarketData (symbolMap : LogReader.SymbolMap) (nv : LogRecord) :
    Option MarketData := do
  let ts ← getField (fun value => (strtoll value).toUInt64) nv "ts_utc".toList
  let code ← getField atol nv "tickerId".toList
  let event ← getField id nv "field".toList
  let method ← getField id nv "event".toList
  let (fieldToUse, type) ← events.lookup method
  let value ← getField atof nv fieldToUse
  some {
    timestamp := ts
    symbol := getSymbol symbolMap code
    event := event
    value := typedValue type value
    contractId := code.toUInt64 }

/-- The map after a converter, which looks the symbol up if there are a time and an id,
whatever it returns. -/
def converted (symbolMap : LogReader.SymbolMap) (nv : LogRecord) (id : Text) :
    LogReader.SymbolMap :=
  match find nv "ts_utc".toList, getField atol nv id with
  | some _, some code => registerSymbol symbolMap code
  | _, _ => symbolMap

/-- A `MarketDepth` for the session log, which reads its symbol and its time. -/
def depthData (d : Depth) : SessionLogs.Data :=
  .marketDepth { (default : MarketDepth) with symbol := d.symbol, timestamp := d.timestamp }

section

variable (flags : Flags) (source : Text)

/-! ### The loop -/

def inHours (t : UInt64) : Bool :=
  LogReader.checkEXT flags.eastern t && (LogReader.checkRTH flags.eastern t || !flags.rth)

/-- `WriteDb`: the session log first. -/
def writeDb (s : State) (data : SessionLogs.Data) (value : Option Message) : State :=
  let loader := SessionLogs.updateSessionLog flags.toFlags source ⟨s.symbolSessionLogs, []⟩ data
  { s with
    symbolSessionLogs := loader.symbolSessionLogs
    calls := s.calls ++ loader.written.map (fun log => ⟨some (.sessionLog log), true, {}⟩) ++
      [⟨value, !flags.checkDuplicate, {}⟩] }

def readEvent (s : State) (data : MarketData) : State :=
  if inHours flags data.timestamp then
    writeDb flags source s (.marketData data) (some (.marketData data))
  else s

/-- A message without its required fields is not written, but has a session. -/
def readBookEvent (s : State) (d : Depth) : State :=
  if inHours flags d.timestamp then
    writeDb flags source s (depthData d) ((Recording.initialized d).map .marketDepth)
  else s

def readBook (s : State) (nv : LogRecord) : State :=
  let event := convert s.tickerIdSymbolMap nv
  let s := { s with tickerIdSymbolMap := converted s.tickerIdSymbolMap nv "id".toList }
  match event with
  | some d => readBookEvent flags source s d
  | none => s

def readAction (s : State) (nv : LogRecord) : State :=
  match mapActions s.tickerIdSymbolMap nv with
  | some symbolMap => { s with tickerIdSymbolMap := symbolMap }
  | none => { s with aborted := true }

def readOther (s : State) (nv : LogRecord) : State :=
  if checkBookEvent nv then readBook flags source s nv
  else if checkAction nv then readAction s nv
  else s

/-- An event that does not convert may still be an action. -/
def readRecord (s : State) (nv : LogRecord) : State :=
  if checkEvent nv then
    let event := convertMarketData s.tickerIdSymbolMap nv
    let s := { s with tickerIdSymbolMap := converted s.tickerIdSymbolMap nv "tickerId".toList }
    match event with
    | some data => readEvent flags source s data
    | none => readOther flags source s nv
  else readOther flags source s nv

/-- The exception for a line that cannot be split is caught nowhere. -/
def readSplit (s : State) : Except FieldSplit.Failure LogRecord → State
  | .ok nv => readRecord flags source s nv
  | .error _ => { s with aborted := true }

def readLine (s : State) (line : Text) : State :=
  if s.aborted ∨ ',' ∉ line then s else readSplit flags source s (lineToRecord '=' ',' line)

/-- `WriteSessionLogs`, in the order of the symbols.  The source is put into the open
session as well, where every later write replaces it. -/
def writeSessionLogs (s : State) : State :=
  let logs := (s.symbolSessionLogs.entries.mergeSort fun a b => a.1 ≤ b.1).map Sigma.snd
  { s with
    calls := s.calls ++ logs.map fun log =>
      ⟨some (.sessionLog { log with source := source }), !flags.checkDuplicate, {}⟩ }

end

/-- The last part of a path. -/
def sourceOf (filename : Text) : Text := (filename.splitOn '/').getLastD []

/-- One log file; a file that is not there is left out. -/
def readFile (flags : Flags) (files : Text → Option Text) (s : State) (filename : Text) :
    State :=
  if s.aborted then s
  else
    match files filename with
    | none => s
    | some text =>
        let s := (tokens text).foldl (readLine flags (sourceOf filename)) s
        if s.aborted then s else writeSessionLogs flags (sourceOf filename) s

/-- The calls of a load of all the files that `--logfile` names. -/
def calls (flags : Flags) (files : Text → Option Text) : List WriteCall :=
  ((flags.logfile.splitOn ',').foldl (readFile flags files) {}).calls

/-- A load that comes to an end after some of its calls, and the failures of leveldb
during them. -/
structure Attempt where
  made : Nat
  faults : Nat → Faults

def withFaults (faults : Nat → Faults) (calls : List WriteCall) : List WriteCall :=
  calls.mapIdx fun i call => { call with faults := faults i }

def Attempt.calls (a : Attempt) (flags : Flags) (files : Text → Option Text) : List WriteCall :=
  withFaults a.faults ((LoaderRun.calls flags files).take a.made)

def writeAll (codec : Codec Record) (levelDb : LevelDb) (calls : List WriteCall) : LevelDb :=
  calls.foldl (fun levelDb call => (write codec levelDb call).2) levelDb

/-! ### What the calls are -/

/-- The calls for records and at the end of a file overwrite if duplicates are not
checked, those in between, for session logs, always do. -/
structure Planned (flags : Flags) (call : WriteCall) : Prop where
  quiet : call.faults = {}
  overwrite : call.overwrite = !flags.checkDuplicate ∨
    call.overwrite = true ∧ ∃ log, call.value = some (.sessionLog log)

section

variable {flags : Flags} {source : Text} {s : State}
  (hs : ∀ call ∈ s.calls, Planned flags call)

include hs

theorem planned_writeDb (data : SessionLogs.Data) (value : Option Message) :
    ∀ call ∈ (writeDb flags source s data value).calls, Planned flags call := by
  unfold writeDb
  simp only [List.forall_mem_append, List.forall_mem_map, List.forall_mem_singleton]
  refine ⟨⟨hs, ?_⟩, ⟨rfl, .inl rfl⟩⟩
  intro log _
  exact ⟨rfl, .inr ⟨rfl, log, rfl⟩⟩

theorem planned_readOther (nv : LogRecord) :
    ∀ call ∈ (readOther flags source s nv).calls, Planned flags call := by
  unfold readOther
  split_ifs
  · unfold readBook
    dsimp only
    split
    · unfold readBookEvent
      split_ifs
      · exact planned_writeDb hs _ _
      · exact hs
    · exact hs
  · unfold readAction
    split
    · exact hs
    · exact hs
  · exact hs

theorem planned_readRecord (nv : LogRecord) :
    ∀ call ∈ (readRecord flags source s nv).calls, Planned flags call := by
  unfold readRecord
  split_ifs
  · dsimp only
    split
    · unfold readEvent
      split_ifs
      · exact planned_writeDb hs _ _
      · exact hs
    · apply planned_readOther
      exact hs
  · exact planned_readOther hs nv

theorem planned_readLines (lines : List Text) :
    ∀ call ∈ (lines.foldl (readLine flags source) s).calls, Planned flags call := by
  induction lines generalizing s with
  | nil => exact hs
  | cons line lines ih =>
      apply ih
      unfold readLine
      split_ifs
      · exact hs
      · cases lineToRecord '=' ',' line with
        | error e => exact hs
        | ok nv => exact planned_readRecord hs nv

theorem planned_writeSessionLogs :
    ∀ call ∈ (writeSessionLogs flags source s).calls, Planned flags call := by
  unfold writeSessionLogs
  simp only [List.forall_mem_append, List.forall_mem_map]
  refine ⟨hs, ?_⟩
  intro _ _
  exact ⟨rfl, .inl rfl⟩

theorem planned_readFile (files : Text → Option Text) (filename : Text) :
    ∀ call ∈ (readFile flags files s filename).calls, Planned flags call := by
  unfold readFile
  split_ifs
  · exact hs
  · split
    · exact hs
    · dsimp only
      split_ifs
      · exact planned_readLines hs _
      · exact planned_writeSessionLogs (planned_readLines hs _)

theorem planned_readFiles (files : Text → Option Text) (filenames : List Text) :
    ∀ call ∈ (filenames.foldl (readFile flags files) s).calls, Planned flags call := by
  induction filenames generalizing s with
  | nil => exact hs
  | cons filename filenames ih => exact ih (planned_readFile hs files filename)

end

theorem planned_calls (flags : Flags) (files : Text → Option Text) :
    ∀ call ∈ calls flags files, Planned flags call :=
  planned_readFiles (fun _ hcall => absurd hcall List.not_mem_nil) files _

/-! ### The calls as writes -/

section

variable (codec : Codec Record)

def writes (calls : List WriteCall) : List (GuardedWrites.Write Text Text) :=
  (recordings calls).map (GuardedWrites.Write.map Slot.key (bytesOf codec))

theorem writes_append (calls calls' : List WriteCall) :
    writes codec (calls ++ calls') = writes codec calls ++ writes codec calls' := by
  rw [writes, recordings_append, List.map_append]
  rfl

theorem get?_writeAll (levelDb : LevelDb) (calls : List WriteCall) :
    (writeAll codec levelDb calls).get? =
      GuardedWrites.run levelDb.get? (writes codec calls) := by
  induction calls generalizing levelDb with
  | nil => rfl
  | cons call calls ih =>
      rw [← List.singleton_append, writes_append, GuardedWrites.run_append]
      change (writeAll codec (write codec levelDb call).2 calls).get? = _
      rw [ih, get?_write]
      rfl

/-- A write that is made comes from a call, with the same message. -/
theorem exists_call_of_mem_writes {calls : List WriteCall}
    {w : GuardedWrites.Write Text Text} (hw : w ∈ writes codec calls) :
    ∃ call ∈ calls, ∃ message, call.value = some message ∧ w.overwrite = call.overwrite ∧
      w.guard = message.key ∧ w.items.map Prod.fst = message.items.map Item.key := by
  obtain ⟨v, hv, rfl⟩ := List.mem_map.mp hw
  obtain ⟨call, hcall, hv⟩ := List.mem_filterMap.mp hv
  split_ifs at hv
  obtain ⟨message, hmessage, rfl⟩ := Option.map_eq_some_iff.mp hv
  refine ⟨call, hcall, message, hmessage, rfl, ?_, ?_⟩
  · exact (key_slot _).trans (key_mainItem message)
  · rw [items_recording, List.map_map]
    rfl

end

theorem eq_mainItem_or_indexed {message : Message} {item : Item} (hitem : item ∈ message.items) :
    item = mainItem message ∨ (slot item).type = .indexedValue := by
  cases message with
  | marketData v =>
      rcases List.mem_pair.mp hitem with rfl | rfl
      · exact .inl rfl
      · exact .inr rfl
  | marketDepth v => exact .inl (List.mem_singleton.mp hitem)
  | sessionLog v => exact .inl (List.mem_singleton.mp hitem)

/-- Only an index entry is not put under the key that guards the message. -/
theorem key_eq_of_mem_items {message : Message} {k : Slot}
    (hk : k.key ∈ message.items.map Item.key) (htype : k.type ≠ .indexedValue) :
    message.key = k.key := by
  obtain ⟨item, hitem, hkey⟩ := List.mem_map.mp hk
  rw [← key_slot] at hkey
  rcases eq_mainItem_or_indexed hitem with rfl | hindexed
  · rw [← hkey, key_slot, key_mainItem]
  · exact absurd ((type_eq_of_key_eq hkey).symm.trans hindexed) htype

section

variable (codec : Codec Record) (flags : Flags) (files : Text → Option Text)

/-- Where duplicates are checked, a call that overwrites is for a session log. -/
theorem sessionLog_of_overwrite {call : WriteCall} (hcall : call ∈ calls flags files)
    (hcheck : flags.checkDuplicate = true) (hoverwrite : call.overwrite = true) :
    ∃ log, call.value = some (.sessionLog log) := by
  rcases (planned_calls flags files call hcall).overwrite with h | ⟨-, hlog⟩
  · rw [hoverwrite, hcheck] at h
    cases h
  · exact hlog

theorem checkDuplicate_of_not_overwrite {call : WriteCall} (hcall : call ∈ calls flags files)
    (hoverwrite : call.overwrite = false) : flags.checkDuplicate = true := by
  rcases (planned_calls flags files call hcall).overwrite with h | ⟨h, -⟩
  · rw [hoverwrite] at h
    exact (Bool.not_inj (show (!true) = !flags.checkDuplicate from h)).symm
  · rw [hoverwrite] at h
    cases h

theorem coherent_writes : GuardedWrites.Coherent (writes codec (calls flags files)) := by
  intro w hw w' hw' hoverwrite hguarded k hk hk'
  obtain ⟨call, hcall, message, hmessage, hcallOverwrite, -, hitems⟩ :=
    exists_call_of_mem_writes codec hw
  obtain ⟨call', hcall', message', -, hcallOverwrite', hguard, hitems'⟩ :=
    exists_call_of_mem_writes codec hw'
  have hcheck := checkDuplicate_of_not_overwrite flags files hcall'
    (hcallOverwrite'.symm.trans hguarded)
  obtain ⟨log, hlog⟩ := sessionLog_of_overwrite flags files hcall hcheck
    (hcallOverwrite.symm.trans hoverwrite)
  obtain rfl := Option.some.inj (hmessage.symm.trans hlog)
  have hkey : k = Slot.key (.session log.symbol log.startTimestamp log.stopTimestamp) := by
    rw [hitems] at hk
    exact List.mem_singleton.mp hk
  rw [hkey] at hk' ⊢
  rw [hitems'] at hk'
  rw [hguard]
  exact (key_eq_of_mem_items hk' (by simp [Slot.type])).symm

variable {flags}

/-- With `faults` that are none, the calls are as they were. -/
theorem withFaults_of_quiet {faults : Nat → Faults} (hfaults : ∀ i, faults i = {})
    {calls : List WriteCall} (hcalls : ∀ call ∈ calls, call.faults = {}) :
    withFaults faults calls = calls := by
  rw [withFaults, List.mapIdx_eq_iff]
  intro i
  cases hcall : calls[i]? with
  | none => rfl
  | some call =>
      have hquiet := hcalls call (List.mem_of_getElem? hcall)
      rw [Option.map_some, hfaults i, ← hquiet]

/-- Failures only take writes away. -/
theorem recordings_withFaults_subset (faults : Nat → Faults) {calls calls' : List WriteCall}
    (hsubset : calls' ⊆ calls) (hcalls : ∀ call ∈ calls, call.faults = {}) :
    recordings (withFaults faults calls') ⊆ recordings calls := by
  intro w hw
  obtain ⟨call, hcall, hw⟩ := List.mem_filterMap.mp hw
  obtain ⟨i, hi, rfl⟩ := List.mem_mapIdx.mp hcall
  have hmem := hsubset (List.getElem_mem hi)
  apply List.mem_filterMap.mpr
  refine ⟨calls'[i], hmem, ?_⟩
  split_ifs at hw with hlost
  obtain ⟨message, hmessage, hrecording⟩ := Option.map_eq_some_iff.mp hw
  have hvalue : calls'[i].value = some message := hmessage
  have hnotLost : Lost calls'[i] = false := by
    simp [Lost, hvalue, hcalls _ hmem]
  rw [hnotLost, hvalue]
  exact congrArg some hrecording

theorem covers_attempt {a : Attempt}
    (ha : flags.checkDuplicate = true → ∀ i, a.faults i = {}) :
    GuardedWrites.Covers (writes codec (calls flags files))
      (writes codec (a.calls flags files)) := by
  have hquiet : ∀ call ∈ calls flags files, call.faults = {} := fun call hcall =>
    (planned_calls flags files call hcall).quiet
  cases hcheck : flags.checkDuplicate with
  | true =>
      have hcoherent := coherent_writes codec flags files
      rw [← List.take_append_drop a.made (calls flags files), writes_append] at hcoherent ⊢
      rw [Attempt.calls, withFaults_of_quiet (ha hcheck) fun call hcall =>
        hquiet call (List.mem_of_mem_take hcall)]
      exact GuardedWrites.covers_of_append hcoherent
  | false =>
      apply GuardedWrites.covers_of_overwrite
      · intro w hw
        obtain ⟨call, hcall, -, -, hoverwrite, -⟩ := exists_call_of_mem_writes codec hw
        rw [hoverwrite]
        by_contra hguarded
        have htrue := checkDuplicate_of_not_overwrite flags files hcall
          (Bool.eq_false_iff.mpr hguarded)
        rw [hcheck] at htrue
        cases htrue
      · exact List.map_subset _
          (recordings_withFaults_subset a.faults (List.take_subset _ _) hquiet)

/-- After any loads that were killed, or in which writes have failed, a complete load leaves
the database that it would have left without them.  A key of every message that it has read
is taken then; and where duplicates are checked, a record that was there stays as it was. -/
theorem restarted_load (levelDb : LevelDb) {attempts : List Attempt}
    (hattempts : flags.checkDuplicate = true → ∀ a ∈ attempts, ∀ i, a.faults i = {}) :
    writeAll codec (attempts.foldl (fun levelDb a => writeAll codec levelDb (a.calls flags files))
        levelDb) (calls flags files) =
        writeAll codec levelDb (calls flags files) ∧
      (∀ call ∈ calls flags files, ∀ message ∈ call.value,
        (writeAll codec levelDb (calls flags files)).get? message.key ≠ none) ∧
      (flags.checkDuplicate = true →
        ∀ k : Slot, k.type = .ibMarketData ∨ k.type = .ibMarketDepth →
          ∀ bytes, levelDb.get? k.key = some bytes →
            (writeAll codec levelDb (calls flags files)).get? k.key = some bytes) := by
  refine ⟨?_, ?_, ?_⟩
  · apply OrderedMap.eq_of_get?
    have hfold : ∀ levelDb : LevelDb,
        (attempts.foldl (fun levelDb a => writeAll codec levelDb (a.calls flags files))
          levelDb).get? =
        (attempts.map fun a => writes codec (a.calls flags files)).foldl GuardedWrites.run
          levelDb.get? := by
      intro levelDb
      induction attempts generalizing levelDb with
      | nil => rfl
      | cons a attempts ih =>
          have hrest := ih fun hcheck b hb => hattempts hcheck b (List.mem_cons_of_mem a hb)
          rw [List.foldl_cons, hrest, get?_writeAll]
          rfl
    rw [get?_writeAll, get?_writeAll, hfold]
    apply GuardedWrites.Covers.run_foldl
    intro ws hws
    obtain ⟨a, ha, rfl⟩ := List.mem_map.mp hws
    exact covers_attempt codec files fun hcheck => hattempts hcheck a ha
  · intro call hcall message hmessage
    rw [get?_writeAll]
    have hrecording : recording message call.overwrite ∈ recordings (calls flags files) := by
      apply List.mem_filterMap.mpr
      refine ⟨call, hcall, ?_⟩
      have hvalue := Option.mem_def.mp hmessage
      have hquiet := (planned_calls flags files call hcall).quiet
      simp [Lost, hvalue, hquiet]
    have hpresent := GuardedWrites.guard_present_run levelDb.get? _
      (List.mem_map_of_mem (f := GuardedWrites.Write.map Slot.key (bytesOf codec)) hrecording)
    exact (key_mainItem message) ▸ (key_slot (mainItem message)) ▸ hpresent
  · intro hcheck k htype bytes hbytes
    have hindexed : k.type ≠ .indexedValue := by
      rcases htype with htype | htype <;> (rw [htype]; decide)
    rw [get?_writeAll]
    apply GuardedWrites.run_of_guarded hbytes
    intro w hw hk
    obtain ⟨call, hcall, message, hmessage, hoverwrite, hguard, hitems⟩ :=
      exists_call_of_mem_writes codec hw
    rw [hitems] at hk
    have hkey := key_eq_of_mem_items hk hindexed
    refine ⟨?_, hguard.trans hkey⟩
    rw [hoverwrite]
    by_contra htrue
    obtain ⟨log, hlog⟩ := sessionLog_of_overwrite flags files hcall hcheck
      (Bool.not_eq_false _ ▸ htrue)
    obtain rfl := Option.some.inj (hmessage.symm.trans hlog)
    have hsession : RecordType.sessionLog = k.type := type_eq_of_key_eq
      (a := .session log.symbol log.startTimestamp log.stopTimestamp) hkey
    rcases htype with htype | htype <;> (rw [htype] at hsession; cases hsession)

end

def flagsOfA : Flags where
  logfile := "log/a.log".toList
  checkDuplicate := true
  eastern _ := LogReader.timeOfDay 10 0

/-- A request, a tick and a change of the book, after which the symbol of the id is
another one. -/
def logOfA : Text :=
  [' '].intercalate [LogReader.requestLine 7 ['A'],
    pairsText '=' ',' [("ts_utc".toList, decimal 100), ("event".toList, "tickSize".toList),
      ("tickerId".toList, decimal 7), ("field".toList, "BID_SIZE".toList),
      ("size".toList, decimal 5)],
    pairsText '=' ',' [("ts_utc".toList, decimal 101), ("event".toList, "updateMktDepth".toList),
      ("id".toList, decimal 7), ("position".toList, decimal 0), ("operation".toList, decimal 0),
      ("side".toList, decimal 1), ("price".toList, decimal 2), ("size".toList, decimal 5)],
    LogReader.requestLine 7 ['B']]

def filesOfA (filename : Text) : Option Text :=
  if filename = "log/a.log".toList then some logOfA else none

/-- Of the two calls, one has been made when the load is killed. -/
theorem restarted_load_killed :
    (calls flagsOfA filesOfA).length = 2 ∧
      writeAll RecordWire.recordCodec
          ([⟨1, fun _ => {}⟩].foldl (fun levelDb (a : Attempt) =>
            writeAll RecordWire.recordCodec levelDb (a.calls flagsOfA filesOfA)) OrderedMap.empty)
          (calls flagsOfA filesOfA) =
        writeAll RecordWire.recordCodec OrderedMap.empty (calls flagsOfA filesOfA) := by
  refine ⟨by decide +kernel, (restarted_load RecordWire.recordCodec filesOfA _ ?_).1⟩
  intro _ a ha _
  rw [List.mem_singleton.mp ha]

end LoaderRun

end Atp

import Atp.Protos
import Atp.Segments

/-!
The session logs that the loader writes.  A session of a symbol is closed when
the next record comes after a gap; the first two records of a symbol are always
put together, and the gap is the minutes within the hour.
-/

namespace Atp.SessionLogs

structure Flags where
  logfile : Text
  gapInMinutes : Int64 := 5

/-- The records that `updateSessionLog` is instantiated for. -/
inductive Data where
  | marketData (data : MarketData)
  | marketDepth (data : MarketDepth)

namespace Data

def symbol : Data → Text
  | marketData data => data.symbol
  | marketDepth data => data.symbol

def timestamp : Data → UInt64
  | marketData data => data.timestamp
  | marketDepth data => data.timestamp

end Data

/-- The open sessions, and the logs given to the database. -/
structure Loader where
  symbolSessionLogs : AList fun _ : Text => SessionLog := ∅
  written : List SessionLog := []

/-- `time_duration::minutes`, of a duration in microseconds: what is left of the
minutes after the full hours. -/
def minutes (duration : Int) : Int := (duration.tdiv 60000000).tmod 60

/-- A session that has a stop time ends if the next record comes after a gap. -/
def endsBefore (flags : Flags) (stop timestamp : Nat) : Bool :=
  decide (0 < stop) && decide (flags.gapInMinutes.toInt < minutes (timestamp - stop))

/-- The last part of the path of the log file. -/
def logfileSource (flags : Flags) : Text := (flags.logfile.splitOn '/').getLastD []

def updateSessionLog (flags : Flags) (source : Text) (loader : Loader) (data : Data) :
    Loader :=
  match loader.symbolSessionLogs.lookup data.symbol with
  | none =>
      { loader with
        symbolSessionLogs := loader.symbolSessionLogs.insert data.symbol
          ⟨data.symbol, data.timestamp, 0, source⟩ }
  | some log =>
      if endsBefore flags log.stopTimestamp.toNat data.timestamp.toNat then
        let log := { log with source := logfileSource flags }
        { symbolSessionLogs := loader.symbolSessionLogs.insert data.symbol
            { log with startTimestamp := data.timestamp, stopTimestamp := data.timestamp }
          written := loader.written ++ [log] }
      else
        { loader with
          symbolSessionLogs := loader.symbolSessionLogs.insert data.symbol
            { log with stopTimestamp := data.timestamp } }

def writeSessionLogs (source : Text) (loader : Loader) : Loader :=
  { loader with
    written := loader.written ++
      loader.symbolSessionLogs.entries.map fun entry => { entry.2 with source := source } }

/-- The loader on a sequence of records, with the flush at the end. -/
def load (flags : Flags) (source : Text) (loader : Loader) (records : List Data) : Loader :=
  writeSessionLogs source (records.foldl (updateSessionLog flags source) loader)

/-! ### What is loaded and written for a symbol -/

def timestamps (symbol : Text) (records : List Data) : List Nat :=
  (records.filter fun data => data.symbol = symbol).map fun data => data.timestamp.toNat

def sessions (symbol : Text) (logs : List SessionLog) : List (Nat × Nat) :=
  (logs.filter fun log => log.symbol = symbol).map fun log =>
    (log.startTimestamp.toNat, log.stopTimestamp.toNat)

/-- More than `gapInMinutes` whole minutes are between two times. -/
def Far (flags : Flags) (a b : Nat) : Prop :=
  flags.gapInMinutes.toInt < ((b : Int) - a) / 60000000

/-- A single record is at time zero.  Of several, the first two are not far apart,
and where later neighbours are, the first one is after time zero, the second one
is later, and the minutes within the hour exceed the gap as well. -/
def SeesGaps (flags : Flags) : List Nat → Prop
  | [] => True
  | [t] => t = 0
  | t :: t' :: ts => ¬ Far flags t t' ∧ (t' :: ts).IsChain fun a b =>
      Far flags a b → 0 < a ∧ a < b ∧ flags.gapInMinutes.toInt < minutes (b - a)

theorem minutes_le {a b : Nat} (hle : a ≤ b) :
    minutes (b - a) ≤ ((b : Int) - a) / 60000000 := by
  have hnonneg : (0 : Int) ≤ (b : Int) - a := by omega
  have hquot := Int.ediv_nonneg hnonneg (by decide : (0 : Int) ≤ 60000000)
  rw [minutes, Int.tdiv_eq_ediv_of_nonneg hnonneg, Int.tmod_eq_emod_of_nonneg hquot]
  omega

theorem endsBefore_iff (flags : Flags) (a b : Nat) :
    endsBefore flags a b = true ↔ 0 < a ∧ flags.gapInMinutes.toInt < minutes (b - a) := by
  rw [endsBefore, Bool.and_eq_true, decide_eq_true_eq, decide_eq_true_eq]

theorem cuts_far_iff (flags : Flags) {a b : Nat} (hle : a ≤ b) :
    ((endsBefore flags a b = true ↔ Far flags a b) ∧ (Far flags a b → a < b)) ↔
      (Far flags a b → 0 < a ∧ a < b ∧ flags.gapInMinutes.toInt < minutes (b - a)) := by
  have hfar : flags.gapInMinutes.toInt < minutes (b - a) → Far flags a b := fun h =>
    lt_of_lt_of_le h (minutes_le hle)
  rw [endsBefore_iff]
  constructor
  · rintro ⟨hiff, hlt⟩ h
    obtain ⟨hpos, hminutes⟩ := hiff.mpr h
    exact ⟨hpos, hlt h, hminutes⟩
  · intro h
    refine ⟨⟨fun hcut => hfar hcut.2, fun hgap => ?_⟩, fun hgap => (h hgap).2.1⟩
    obtain ⟨hpos, -, hminutes⟩ := h hgap
    exact ⟨hpos, hminutes⟩

/-! ### The sessions of one symbol -/

def interval (log : SessionLog) : Nat × Nat :=
  (log.startTimestamp.toNat, log.stopTimestamp.toNat)

/-- Every open session is kept under its symbol. -/
def Keyed (loader : Loader) : Prop :=
  ∀ symbol log, loader.symbolSessionLogs.lookup symbol = some log → log.symbol = symbol

theorem keyed_insert {loader : Loader} (hkeyed : Keyed loader) (log : SessionLog)
    (written : List SessionLog) :
    Keyed ⟨loader.symbolSessionLogs.insert log.symbol log, written⟩ := by
  intro symbol log' hlookup
  rcases eq_or_ne symbol log.symbol with rfl | hne
  · rw [← Option.some.inj ((AList.lookup_insert _).symm.trans hlookup)]
  · exact hkeyed symbol log' ((AList.lookup_insert_ne hne).symm.trans hlookup)

/-- What a record does: it opens a session, closes one and opens the next, or
moves the end of one. -/
theorem updateSessionLog_cases (flags : Flags) (source : Text) (loader : Loader)
    (data : Data) :
    (∃ log, loader.symbolSessionLogs.lookup data.symbol = none ∧ log.symbol = data.symbol ∧
        interval log = (data.timestamp.toNat, 0) ∧
        updateSessionLog flags source loader data =
          ⟨loader.symbolSessionLogs.insert data.symbol log, loader.written⟩) ∨
      ∃ log log', loader.symbolSessionLogs.lookup data.symbol = some log ∧
        log'.symbol = log.symbol ∧
        ((endsBefore flags (interval log).2 data.timestamp.toNat = true ∧
            interval log' = (data.timestamp.toNat, data.timestamp.toNat) ∧
            ∃ closed, closed.symbol = log.symbol ∧ interval closed = interval log ∧
              updateSessionLog flags source loader data =
                ⟨loader.symbolSessionLogs.insert data.symbol log',
                  loader.written ++ [closed]⟩) ∨
          (endsBefore flags (interval log).2 data.timestamp.toNat = false ∧
            interval log' = ((interval log).1, data.timestamp.toNat) ∧
            updateSessionLog flags source loader data =
              ⟨loader.symbolSessionLogs.insert data.symbol log', loader.written⟩)) := by
  unfold updateSessionLog
  split
  · rename_i hnone
    exact .inl ⟨_, hnone, rfl, rfl, rfl⟩
  · rename_i log hsome
    split_ifs with hends
    · exact .inr ⟨log, { log with
        source := logfileSource flags, startTimestamp := data.timestamp
        stopTimestamp := data.timestamp }, hsome, rfl,
        .inl ⟨hends, rfl, { log with source := logfileSource flags }, rfl, rfl, rfl⟩⟩
    · exact .inr ⟨log, { log with stopTimestamp := data.timestamp }, hsome, rfl,
        .inr ⟨Bool.eq_false_iff.mpr hends, rfl, rfl⟩⟩

theorem keyed_updateSessionLog {loader : Loader} (hkeyed : Keyed loader) (flags : Flags)
    (source : Text) (data : Data) : Keyed (updateSessionLog flags source loader data) := by
  rcases updateSessionLog_cases flags source loader data with
    ⟨log, -, hsymbol, -, heq⟩ | ⟨log, log', hsome, hsymbol, hends | hends⟩
  · rw [heq, ← hsymbol]
    exact keyed_insert hkeyed log _
  · obtain ⟨-, -, closed, -, -, heq⟩ := hends
    rw [heq, ← hkeyed _ _ hsome, ← hsymbol]
    exact keyed_insert hkeyed log' _
  · obtain ⟨-, -, heq⟩ := hends
    rw [heq, ← hkeyed _ _ hsome, ← hsymbol]
    exact keyed_insert hkeyed log' _

theorem sessions_append (symbol : Text) (logs logs' : List SessionLog) :
    sessions symbol (logs ++ logs') = sessions symbol logs ++ sessions symbol logs' := by
  rw [sessions, List.filter_append, List.map_append]
  rfl

theorem sessions_singleton (log : SessionLog) :
    sessions log.symbol [log] = [interval log] := by
  rw [sessions, List.filter_singleton, decide_eq_true rfl]
  rfl

theorem sessions_singleton_of_ne {symbol : Text} {log : SessionLog}
    (hne : log.symbol ≠ symbol) : sessions symbol [log] = [] := by
  rw [sessions, List.filter_singleton, decide_eq_false hne]
  rfl

/-- The flush writes the one open session of a symbol. -/
theorem sessions_flush {loader : Loader} (hkeyed : Keyed loader) (source symbol : Text) :
    sessions symbol (writeSessionLogs source loader).written =
      sessions symbol loader.written ++
        ((loader.symbolSessionLogs.lookup symbol).map interval).toList := by
  have hentries : ∀ (entries : List (Sigma fun _ : Text => SessionLog)), entries.NodupKeys →
      (∀ entry ∈ entries, entry.2.symbol = entry.1) →
      sessions symbol (entries.map fun entry => { entry.2 with source := source }) =
        ((entries.dlookup symbol).map interval).toList := by
    intro entries hnodup hsymbols
    induction entries with
    | nil => rfl
    | cons entry entries ih =>
        obtain ⟨key, log⟩ := entry
        obtain ⟨hnew, hnodup⟩ := List.nodupKeys_cons.mp hnodup
        have hkey : log.symbol = key := hsymbols _ List.mem_cons_self
        have ih := ih hnodup fun entry hentry => hsymbols entry (List.mem_cons_of_mem _ hentry)
        rw [List.map_cons, ← List.singleton_append, sessions_append, ih]
        rcases eq_or_ne key symbol with rfl | hne
        · rw [List.dlookup_cons_eq, List.dlookup_eq_none.mpr hnew, ← hkey]
          exact congrArg (· ++ _) (sessions_singleton { log with source := source })
        · rw [List.dlookup_cons_ne _ _ hne.symm, sessions_singleton_of_ne (hkey ▸ hne)]
          rfl
  have hsymbols : ∀ entry ∈ loader.symbolSessionLogs.entries, entry.2.symbol = entry.1 := by
    rintro ⟨key, log⟩ hentry
    exact hkeyed key log (AList.mem_lookup_iff.mpr hentry)
  rw [writeSessionLogs, sessions_append,
    hentries _ loader.symbolSessionLogs.nodupKeys hsymbols]
  rfl

theorem lookup_of_eq_insert {loader loader' : Loader} {symbol : Text} {log : SessionLog}
    {written : List SessionLog}
    (heq : loader' = ⟨loader.symbolSessionLogs.insert symbol log, written⟩) :
    loader'.symbolSessionLogs.lookup symbol = some log := by
  rw [heq]
  exact AList.lookup_insert _

/-- Records of other symbols do not matter. -/
theorem updateSessionLog_of_ne {loader : Loader} (hkeyed : Keyed loader) (flags : Flags)
    (source : Text) {data : Data} {symbol : Text} (hne : data.symbol ≠ symbol) :
    (updateSessionLog flags source loader data).symbolSessionLogs.lookup symbol =
        loader.symbolSessionLogs.lookup symbol ∧
      sessions symbol (updateSessionLog flags source loader data).written =
        sessions symbol loader.written := by
  rcases updateSessionLog_cases flags source loader data with
    ⟨log, -, -, -, heq⟩ | ⟨log, log', hsome, -, hends | hends⟩
  · rw [heq]
    exact ⟨AList.lookup_insert_ne hne.symm, rfl⟩
  · obtain ⟨-, -, closed, hclosed, -, heq⟩ := hends
    have hother : closed.symbol ≠ symbol := by
      rw [hclosed, hkeyed _ _ hsome]
      exact hne
    rw [heq, sessions_append, sessions_singleton_of_ne hother, List.append_nil]
    exact ⟨AList.lookup_insert_ne hne.symm, rfl⟩
  · obtain ⟨-, -, heq⟩ := hends
    rw [heq]
    exact ⟨AList.lookup_insert_ne hne.symm, rfl⟩

theorem timestamps_cons (data : Data) (records : List Data) :
    timestamps data.symbol (data :: records) =
      data.timestamp.toNat :: timestamps data.symbol records := by
  rw [timestamps, List.filter_cons, if_pos (decide_eq_true rfl)]
  rfl

theorem timestamps_cons_of_ne {data : Data} {symbol : Text} (hne : data.symbol ≠ symbol)
    (records : List Data) : timestamps symbol (data :: records) = timestamps symbol records := by
  rw [timestamps, List.filter_cons_of_neg (by rw [decide_eq_true_eq]; exact hne)]
  rfl

/-- From an open session on, the sessions are the segments between the gaps that
the loader sees. -/
theorem sessions_load_of_open (flags : Flags) (source symbol : Text) {loader : Loader}
    (hkeyed : Keyed loader) {log : SessionLog}
    (hopen : loader.symbolSessionLogs.lookup symbol = some log) (records : List Data) :
    sessions symbol (load flags source loader records).written =
      sessions symbol loader.written ++
        Segments.segments (endsBefore flags) (interval log).1 (interval log).2
          (timestamps symbol records) := by
  induction records generalizing loader log with
  | nil =>
      change sessions symbol (writeSessionLogs source loader).written = _
      rw [sessions_flush hkeyed, hopen]
      rfl
  | cons data records ih =>
      have hkeyed' := keyed_updateSessionLog hkeyed flags source data
      change sessions symbol
        (load flags source (updateSessionLog flags source loader data) records).written = _
      rcases eq_or_ne data.symbol symbol with rfl | hne
      · rw [timestamps_cons, Segments.segments]
        rcases updateSessionLog_cases flags source loader data with
          ⟨_, hnone, -⟩ | ⟨log₀, log', hsome, -, hends | hends⟩
        · rw [hnone] at hopen
          cases hopen
        · obtain rfl := Option.some.inj (hsome.symm.trans hopen)
          obtain ⟨hends, hinterval, closed, hclosed, hlast, heq⟩ := hends
          have hsymbol : closed.symbol = data.symbol := hclosed.trans (hkeyed _ _ hsome)
          have hopen' := lookup_of_eq_insert heq
          rw [ih hkeyed' hopen', hinterval, heq, sessions_append, ← hsymbol, sessions_singleton,
            hlast, List.append_assoc, if_pos hends]
          rfl
        · obtain rfl := Option.some.inj (hsome.symm.trans hopen)
          obtain ⟨hends, hinterval, heq⟩ := hends
          have hopen' := lookup_of_eq_insert heq
          rw [ih hkeyed' hopen', hinterval, heq, if_neg (Bool.eq_false_iff.mp hends)]
      · obtain ⟨hsame, hwritten⟩ := updateSessionLog_of_ne hkeyed flags source hne
        rw [ih hkeyed' (hsame.trans hopen), hwritten, timestamps_cons_of_ne hne]

theorem sessions_load_of_new (flags : Flags) (source symbol : Text) {loader : Loader}
    (hkeyed : Keyed loader) (hnew : loader.symbolSessionLogs.lookup symbol = none)
    (records : List Data) :
    sessions symbol (load flags source loader records).written =
      sessions symbol loader.written ++
        match timestamps symbol records with
        | [] => []
        | t :: ts => Segments.segments (endsBefore flags) t 0 ts := by
  induction records generalizing loader with
  | nil =>
      change sessions symbol (writeSessionLogs source loader).written = _
      rw [sessions_flush hkeyed, hnew]
      rfl
  | cons data records ih =>
      have hkeyed' := keyed_updateSessionLog hkeyed flags source data
      change sessions symbol
        (load flags source (updateSessionLog flags source loader data) records).written = _
      rcases eq_or_ne data.symbol symbol with rfl | hne
      · rw [timestamps_cons]
        rcases updateSessionLog_cases flags source loader data with
          ⟨log, -, -, hinterval, heq⟩ | ⟨_, _, hsome, -⟩
        · have hopen := lookup_of_eq_insert heq
          rw [sessions_load_of_open flags source _ hkeyed' hopen, hinterval, heq]
        · rw [hsome] at hnew
          cases hnew
      · obtain ⟨hsame, hwritten⟩ := updateSessionLog_of_ne hkeyed flags source hne
        rw [ih hkeyed' (hsame.trans hnew), hwritten, timestamps_cons_of_ne hne]

/-! ### When the sessions partition the records -/

theorem partitions_singleton_iff (flags : Flags) (t : Nat) :
    Segments.Partitions (Far flags) [t] [(t, 0)] ↔ t = 0 := by
  constructor
  · intro hpartitions
    exact Nat.le_zero.mp (hpartitions.forward _ List.mem_cons_self)
  · rintro rfl
    have hcovers : Segments.Covers (0, 0) 0 := ⟨le_rfl, le_rfl⟩
    refine ⟨?_, List.isChain_singleton _, ?_, List.isChain_singleton _⟩
    · intro s hs
      obtain rfl := List.mem_singleton.mp hs
      exact le_rfl
    · intro t ht
      obtain rfl := List.mem_singleton.mp ht
      rw [List.countP_singleton, if_pos (decide_eq_true hcovers)]

/-- The sessions written for a symbol partition its records if and only if the
loader sees the gaps between them. -/
theorem partitions_iff_seesGaps (flags : Flags) (source symbol : Text) (records : List Data)
    (hsorted : (timestamps symbol records).IsChain (· ≤ ·)) :
    Segments.Partitions (Far flags) (timestamps symbol records)
        (sessions symbol (load flags source {} records).written) ↔
      SeesGaps flags (timestamps symbol records) := by
  have hkeyed : Keyed {} := by
    intro _ _ hlookup
    cases hlookup
  rw [sessions_load_of_new flags source symbol hkeyed rfl]
  change Segments.Partitions _ _ ([] ++ _) ↔ _
  rw [List.nil_append]
  match hts : timestamps symbol records with
  | [] =>
      refine iff_of_true ⟨?_, List.isChain_nil, ?_, List.isChain_nil⟩ trivial
      · intro _ hs
        cases hs
      · intro _ ht
        cases ht
  | [t] => exact partitions_singleton_iff flags t
  | t :: t' :: ts =>
      rw [hts] at hsorted
      obtain ⟨hle, hsorted⟩ := List.isChain_cons_cons.mp hsorted
      have hfirst : ¬ endsBefore flags 0 t' = true := by
        rw [endsBefore_iff]
        exact fun h => absurd h.1 (by decide)
      change Segments.Partitions _ _ (Segments.segments _ t 0 (t' :: ts)) ↔ _
      rw [Segments.segments, if_neg hfirst, Segments.partitions_segments_iff hle hsorted]
      apply and_congr_right'
      have hpairs := List.isChain_iff_forall_rel_of_append_cons_cons.mp hsorted
      rw [List.isChain_iff_forall_rel_of_append_cons_cons,
        List.isChain_iff_forall_rel_of_append_cons_cons]
      constructor
      · intro h a b front back heq
        exact (cuts_far_iff flags (hpairs heq)).mp (h heq)
      · intro h a b front back heq
        exact (cuts_far_iff flags (hpairs heq)).mpr (h heq)

/-- A record of a stock with the value one. -/
def aaplRecord (timestamp : UInt64) : Data :=
  .marketData ⟨timestamp, "AAPL.STK".toList, "LAST".toList, .ofInt 1, 265598⟩

theorem partitions_iff_seesGaps_minute :
    Segments.Partitions (Far ⟨"a.log".toList, 5⟩)
        (timestamps "AAPL.STK".toList [aaplRecord 1000000, aaplRecord 61000000])
        (sessions "AAPL.STK".toList (load ⟨"a.log".toList, 5⟩ "a.log".toList {}
          [aaplRecord 1000000, aaplRecord 61000000]).written) ↔
      SeesGaps ⟨"a.log".toList, 5⟩
        (timestamps "AAPL.STK".toList [aaplRecord 1000000, aaplRecord 61000000]) :=
  partitions_iff_seesGaps ⟨"a.log".toList, 5⟩ "a.log".toList "AAPL.STK".toList
    [aaplRecord 1000000, aaplRecord 61000000] (by decide)

/-- Records after one second, a minute later, and an hour after that: the hour has
no minutes left over, and all three are put into one session. -/
theorem not_partitions_hour_gap :
    ¬ Segments.Partitions (Far ⟨"a.log".toList, 5⟩)
      (timestamps "AAPL.STK".toList
        [aaplRecord 1000000, aaplRecord 61000000, aaplRecord 3661000000])
      (sessions "AAPL.STK".toList (load ⟨"a.log".toList, 5⟩ "a.log".toList {}
        [aaplRecord 1000000, aaplRecord 61000000, aaplRecord 3661000000]).written) := by
  intro hpartitions
  have htimes : timestamps "AAPL.STK".toList
      [aaplRecord 1000000, aaplRecord 61000000, aaplRecord 3661000000] =
        [1000000, 61000000, 3661000000] := by decide
  have hsessions : sessions "AAPL.STK".toList (load ⟨"a.log".toList, 5⟩ "a.log".toList {}
      [aaplRecord 1000000, aaplRecord 61000000, aaplRecord 3661000000]).written =
        [(1000000, 3661000000)] := by decide
  rw [htimes, hsessions] at hpartitions
  have hapart := (List.isChain_cons_cons.mp (List.isChain_cons_cons.mp hpartitions.apart).2).1
  have hfar : Far ⟨"a.log".toList, 5⟩ 61000000 3661000000 := by
    change (5 : Int) < _
    decide
  exact hapart.mpr hfar ⟨_, List.mem_cons_self, by decide, by decide⟩

end Atp.SessionLogs

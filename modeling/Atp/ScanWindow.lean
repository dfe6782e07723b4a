import Atp.LogReader
import Atp.TimedScan

/-!
The window of time that the reader of event logs scans.  It is anchored at the line
that follows the first record delivered, and not at that record.
-/

namespace Atp.ScanWindow

open LogRecord LogReader
open TimedScan (anchor)

inductive Message where
  | marketData (value : MarketData)
  | marketDepth (value : MarketDepth)

namespace Message

def marketData? : Message → Option MarketData
  | marketData value => some value
  | marketDepth _ => none

def marketDepth? : Message → Option MarketDepth
  | marketData _ => none
  | marketDepth value => some value

end Message

abbrev Entry := TimedScan.Entry Failure Message

/-- The message that a line converts to. -/
def convert (symbolMap : SymbolMap) (nv : LogRecord) : Except Failure (Option Message) := do
  match ← toMarketData symbolMap nv with
  | some m => .ok (some (.marketData m))
  | none =>
      match ← toMarketDepth symbolMap nv with
      | some m => .ok (some (.marketDepth m))
      | none => .ok none

/-- A supported line that lies within hours and not before the start. -/
def eventEntry (o : Options) (symbolMap : SymbolMap) (nv : LogRecord) : Option Entry :=
  match getTimestamp nv with
  | .error f => some (.broken f)
  | .ok none => none
  | .ok (some t) =>
      if inHours o t && !beforeStart o t then some (.event t.toNat (convert symbolMap nv))
      else none

/-- What a line is to the scan, and the symbols known after it. -/
def lineEntry (o : Options) (symbolMap : SymbolMap) (line : Text) : Option Entry × SymbolMap :=
  if ',' ∉ line then (none, symbolMap)
  else
    match recordOf '=' ',' line with
    | .error f => (some (.broken f), symbolMap)
    | .ok nv =>
        match if isAction nv then mapIdToSymbols symbolMap nv else .ok (false, symbolMap) with
        | .error f => (some (.broken f), symbolMap)
        | .ok (mapped, symbolMap) =>
            if mapped ∨ isSupported nv = false then (none, symbolMap)
            else (eventEntry o symbolMap nv, symbolMap)

def entries (o : Options) : SymbolMap → List Text → List Entry
  | _, [] => []
  | symbolMap, line :: lines =>
      (lineEntry o symbolMap line).1.toList ++ entries o (lineEntry o symbolMap line).2 lines

/-- The time of a line whose event is supported. -/
def supportedTime (line : Text) : Option UInt64 :=
  if ',' ∈ line then
    match recordOf '=' ',' line with
    | .ok nv =>
        if isSupported nv then
          match getTimestamp nv with
          | .ok t => t
          | .error _ => none
        else none
    | .error _ => none
  else none

def InOrder (text : Text) : Prop :=
  ((tokens text).filterMap supportedTime).Pairwise (· ≤ ·)

def outcome (s : State) : List MarketData × List MarketDepth × Nat :=
  (s.marketData, s.marketDepth, s.matchedRecords)

def delivery (ms : List Message) : List MarketData × List MarketDepth × Nat :=
  (ms.filterMap Message.marketData?, ms.filterMap Message.marketDepth?, ms.length)

/-- The convertible records within hours from the start on, up to `d` after the first,
are delivered, and their number is returned. -/
def DeliversWindow (o : Options) (symbolMap : SymbolMap) (d : Int) (text : Text) : Prop :=
  (process { o with duration := some d } { symbolMap := symbolMap } text).map outcome =
    .ok (delivery (TimedScan.within d (entries o symbolMap (tokens text))))

/-! ### The reader as a scan -/

/-- The state of the reader while the scan goes on. -/
structure Scans (s : State) (first : Option Int) (ms : List Message) : Prop where
  going : s.done = false
  first : s.first.map (fun t => (t.toNat : Int)) = first
  delivered : outcome s = delivery ms

theorem Scans.matchedRecords {s : State} {first : Option Int} {ms : List Message}
    (hscans : Scans s first ms) : s.matchedRecords = ms.length :=
  congrArg (fun x => x.2.2) hscans.delivered

theorem Scans.first_eq_none_iff {s : State} {first : Option Int} {ms : List Message}
    (hscans : Scans s first ms) : s.first = none ↔ first = none := by
  rw [← hscans.first, Option.map_eq_none_iff]

theorem delivery_concat_marketData (ms : List Message) (m : MarketData) :
    delivery (ms ++ [.marketData m]) =
      ((delivery ms).1 ++ [m], (delivery ms).2.1, (delivery ms).2.2 + 1) := by
  simp [delivery, Message.marketData?, Message.marketDepth?]

theorem delivery_concat_marketDepth (ms : List Message) (m : MarketDepth) :
    delivery (ms ++ [.marketDepth m]) =
      ((delivery ms).1, (delivery ms).2.1 ++ [m], (delivery ms).2.2 + 1) := by
  simp [delivery, Message.marketData?, Message.marketDepth?]

theorem foldlM_of_done (o : Options) {s : State} (hdone : s.done = true) (lines : List Text) :
    lines.foldlM (readLine o) s = .ok s := by
  induction lines with
  | nil => rfl
  | cons line lines ih =>
      rw [List.foldlM_cons, readLine, if_pos (.inl hdone)]
      exact ih

theorem deliver_eq {s : State} {first : Option Int} {ms : List Message}
    (hscans : Scans s first ms) (nv : LogRecord) :
    match convert s.symbolMap nv with
    | .error f => deliver s nv = .error f
    | .ok m => ∃ s', deliver s nv = .ok s' ∧ s'.symbolMap = s.symbolMap ∧
        Scans s' first (ms ++ m.toList) := by
  unfold convert deliver
  cases toMarketData s.symbolMap nv with
  | error f => rfl
  | ok m =>
      cases m with
      | some m =>
          refine ⟨_, rfl, rfl, hscans.going, hscans.first, ?_⟩
          rw [Option.toList_some, delivery_concat_marketData, ← hscans.delivered]
          rfl
      | none =>
          rw [ok_bind, ok_bind]
          dsimp only
          cases toMarketDepth s.symbolMap nv with
          | error f => rfl
          | ok m =>
              cases m with
              | some m =>
                  refine ⟨_, rfl, rfl, hscans.going, hscans.first, ?_⟩
                  rw [Option.toList_some, delivery_concat_marketDepth, ← hscans.delivered]
                  rfl
              | none =>
                  refine ⟨_, rfl, rfl, ?_⟩
                  rwa [Option.toList_none, List.append_nil]

/-- What the reader makes of an entry, as the scan does. -/
def Follows (d : Int) (symbolMap : SymbolMap) (first : Option Int) (ms : List Message)
    (read : Except Failure State) : Option Entry → Prop
  | none => ∃ s, read = .ok s ∧ s.symbolMap = symbolMap ∧ Scans s first ms
  | some (.broken f) => read = .error f
  | some (.event t converted) =>
      if ∃ f ∈ anchor first ms t, f + d < t then
        ∃ s, read = .ok s ∧ s.done = true ∧ outcome s = delivery ms
      else
        match converted with
        | .error f => read = .error f
        | .ok m => ∃ s, read = .ok s ∧ s.symbolMap = symbolMap ∧
            Scans s (anchor first ms t) (ms ++ m.toList)

section

variable {o : Options} {d : Int} {s : State} {first : Option Int} {ms : List Message}

theorem afterDuration_iff {first : Option Int} {t : UInt64} (hcurrent : s.current = some t)
    (hfirst : s.first.map (fun t => (t.toNat : Int)) = first) :
    afterDuration { o with duration := some d } s = true ↔
      ∃ f ∈ first, f + d < (t.toNat : Int) := by
  subst hfirst
  rw [afterDuration, hcurrent]
  cases s.first with
  | none => simp
  | some f =>
      simp only [decide_eq_true_iff, Option.map_some, Option.mem_def, Option.some.injEq,
        exists_eq_left']
      omega

theorem scan_follows {t : UInt64} (hscans : Scans s first ms) (hcurrent : s.current = some t)
    (nv : LogRecord) :
    Follows d s.symbolMap first ms (scan { o with duration := some d } s nv)
      (some (.event t.toNat (convert s.symbolMap nv))) := by
  obtain ⟨s', hs', hmap, hscans', hcurrent'⟩ : ∃ s' : State,
      s' = (if s.first = none ∧ s.matchedRecords = 1 then { s with first := s.current } else s) ∧
      s'.symbolMap = s.symbolMap ∧ Scans s' (anchor first ms t.toNat) ms ∧
      s'.current = some t := by
    have hiff : (s.first = none ∧ s.matchedRecords = 1) ↔ first = none ∧ ms.length = 1 := by
      rw [hscans.first_eq_none_iff, hscans.matchedRecords]
    refine ⟨_, rfl, ?_⟩
    by_cases hanchor : first = none ∧ ms.length = 1
    · rw [anchor, if_pos (hiff.mpr hanchor), if_pos hanchor]
      exact ⟨rfl, ⟨hscans.going, by rw [hcurrent]; rfl, hscans.delivered⟩, hcurrent⟩
    · rw [anchor, if_neg (mt hiff.mp hanchor), if_neg hanchor]
      exact ⟨rfl, hscans, hcurrent⟩
  rw [scan, ← hs']
  simp only [Follows]
  by_cases hlate : ∃ f ∈ anchor first ms t.toNat, f + d < (t.toNat : Int)
  · rw [if_pos hlate, if_pos ((afterDuration_iff hcurrent' hscans'.first).mpr hlate)]
    exact ⟨_, rfl, rfl, hscans'.delivered⟩
  · rw [if_neg hlate, if_neg fun h => hlate ((afterDuration_iff hcurrent' hscans'.first).mp h)]
    have hdeliver := deliver_eq hscans' nv
    rw [hmap] at hdeliver
    exact hdeliver

theorem readEvent_follows (hscans : Scans s first ms) (nv : LogRecord) :
    Follows d s.symbolMap first ms (readEvent { o with duration := some d } s nv)
      (eventEntry o s.symbolMap nv) := by
  have hours : inHours { o with duration := some d } = inHours o := rfl
  have hstart : beforeStart { o with duration := some d } = beforeStart o := rfl
  rw [readEvent, checkTime, eventEntry, hours]
  cases getTimestamp nv with
  | error f => rfl
  | ok t =>
      cases t with
      | none => exact ⟨s, rfl, rfl, hscans⟩
      | some t =>
          rw [ok_bind, ok_bind]
          dsimp only
          cases inHours o t with
          | false => exact ⟨s, rfl, rfl, hscans⟩
          | true =>
              have hnow : Scans { s with current := some t } first ms :=
                ⟨hscans.going, hscans.first, hscans.delivered⟩
              rw [if_pos rfl, ok_bind, hstart]
              cases hbefore : beforeStart o t with
              | true =>
                  refine ⟨{ s with current := some t }, ?_, rfl, hnow⟩
                  dsimp only
                  rw [if_pos hbefore]
              | false =>
                  dsimp only
                  rw [if_neg (by rw [hbefore]; exact Bool.false_ne_true)]
                  exact scan_follows hnow rfl nv

theorem readLine_follows (hscans : Scans s first ms) (line : Text) :
    Follows d (lineEntry o s.symbolMap line).2 first ms
      (readLine { o with duration := some d } s line) (lineEntry o s.symbolMap line).1 := by
  rw [readLine, lineEntry]
  by_cases hcomma : ',' ∈ line
  · have hgoing : ¬ (s.done = true ∨ ',' ∉ line) := by simp [hscans.going, hcomma]
    rw [if_neg hgoing, if_neg (not_not.mpr hcomma)]
    cases recordOf '=' ',' line with
    | error f => rfl
    | ok nv =>
        rw [ok_bind, readRecord_eq]
        dsimp only
        cases (if isAction nv = true then mapIdToSymbols s.symbolMap nv
          else Except.ok (false, s.symbolMap)) with
        | error f => rfl
        | ok mapping =>
            obtain ⟨mapped, symbolMap⟩ := mapping
            have hmapped : Scans { s with symbolMap := symbolMap } first ms :=
              ⟨hscans.going, hscans.first, hscans.delivered⟩
            rw [ok_bind]
            dsimp only
            by_cases hskip : mapped = true ∨ isSupported nv = false
            · rw [if_pos hskip, if_pos hskip]
              exact ⟨_, rfl, rfl, hmapped⟩
            · rw [if_neg hskip, if_neg hskip]
              exact readEvent_follows hmapped nv
  · have hstop : s.done = true ∨ ',' ∉ line := .inr hcomma
    rw [if_pos hstop, if_pos hcomma]
    exact ⟨s, rfl, rfl, hscans⟩

end

/-- The reader delivers what the scan of the entries gives. -/
theorem foldlM_readLine (o : Options) (d : Int) {s : State} {first : Option Int}
    {ms : List Message} (hscans : Scans s first ms) (lines : List Text) :
    (lines.foldlM (readLine { o with duration := some d }) s).map outcome =
      (TimedScan.scan d first ms (entries o s.symbolMap lines)).map delivery := by
  induction lines generalizing s first ms with
  | nil => exact congrArg Except.ok hscans.delivered
  | cons line lines ih =>
      have hfollows := readLine_follows (o := o) (d := d) hscans line
      rw [List.foldlM_cons, entries]
      match hentry : (lineEntry o s.symbolMap line).1 with
      | none =>
          rw [hentry] at hfollows
          obtain ⟨s', hread, hmap, hscans'⟩ := hfollows
          rw [hread, ok_bind, ← hmap]
          exact ih hscans'
      | some (.broken f) =>
          rw [hentry] at hfollows
          rw [show readLine _ s line = .error f from hfollows]
          rfl
      | some (.event t converted) =>
          rw [hentry] at hfollows
          simp only [Follows] at hfollows
          rw [Option.toList_some, List.singleton_append, TimedScan.scan_cons_event]
          by_cases hlate : ∃ f ∈ anchor first ms t, f + d < t
          · rw [if_pos hlate] at hfollows
            obtain ⟨s', hread, hdone, hdelivered⟩ := hfollows
            rw [hread, ok_bind, foldlM_of_done _ hdone]
            exact (congrArg Except.ok hdelivered).trans (by rw [if_pos hlate]; rfl)
          · rw [if_neg hlate] at hfollows
            rw [if_neg hlate]
            match converted with
            | .error f =>
                rw [show readLine _ s line = .error f from hfollows]
                rfl
            | .ok m =>
                obtain ⟨s', hread, hmap, hscans'⟩ := hfollows
                rw [hread, ok_bind, ← hmap]
                exact ih hscans'

/-! ### Lines in the order of their times -/

theorem time_of_eventEntry {o : Options} {symbolMap : SymbolMap} {nv : LogRecord} {t : Int}
    (ht : (eventEntry o symbolMap nv).bind TimedScan.Entry.time? = some t) :
    ∃ u, getTimestamp nv = .ok (some u) ∧ t = u.toNat := by
  rw [eventEntry] at ht
  split at ht
  · cases ht
  · cases ht
  · rename_i u hu
    split_ifs at ht
    · exact ⟨u, hu, (Option.some.inj ht).symm⟩
    · cases ht

theorem time_of_lineEntry {o : Options} {symbolMap : SymbolMap} {line : Text} {t : Int}
    (ht : (lineEntry o symbolMap line).1.bind TimedScan.Entry.time? = some t) :
    ∃ u, supportedTime line = some u ∧ t = u.toNat := by
  rw [lineEntry] at ht
  by_cases hcomma : ',' ∈ line
  · rw [if_neg (not_not.mpr hcomma)] at ht
    cases hread : recordOf '=' ',' line with
    | error f =>
        rw [hread] at ht
        cases ht
    | ok nv =>
        rw [hread] at ht
        dsimp only at ht
        split at ht
        · cases ht
        · split_ifs at ht with hskip
          · cases ht
          · rw [not_or, Bool.not_eq_false] at hskip
            obtain ⟨u, hu, htime⟩ := time_of_eventEntry ht
            refine ⟨u, ?_, htime⟩
            rw [supportedTime, if_pos hcomma, hread]
            dsimp only
            rw [if_pos hskip.2, hu]
  · rw [if_pos hcomma] at ht
    cases ht

theorem times_sublist (o : Options) (symbolMap : SymbolMap) (lines : List Text) :
    ((entries o symbolMap lines).filterMap TimedScan.Entry.time?).Sublist
      ((lines.filterMap supportedTime).map fun u => (u.toNat : Int)) := by
  induction lines generalizing symbolMap with
  | nil => exact List.nil_sublist _
  | cons line lines ih =>
      rw [entries, List.filterMap_append]
      cases ht : (lineEntry o symbolMap line).1.bind TimedScan.Entry.time? with
      | none =>
          have hnone : (lineEntry o symbolMap line).1.toList.filterMap
              TimedScan.Entry.time? = [] := by
            cases hentry : (lineEntry o symbolMap line).1 with
            | none => rfl
            | some entry =>
                rw [hentry] at ht
                exact List.filterMap_cons_none ht
          rw [hnone, List.nil_append]
          refine (ih _).trans (List.Sublist.map _ ?_)
          exact (List.sublist_cons_self line lines).filterMap supportedTime
      | some t =>
          obtain ⟨entry, hentry, htime⟩ := Option.bind_eq_some_iff.mp ht
          obtain ⟨u, hu, rfl⟩ := time_of_lineEntry ht
          rw [hentry, Option.toList_some, List.filterMap_cons_some htime,
            List.filterMap_cons_some hu]
          exact (ih _).cons_cons _

theorem chronological_entries {text : Text} (horder : InOrder text) (o : Options)
    (symbolMap : SymbolMap) :
    TimedScan.Chronological (entries o symbolMap (tokens text)) := by
  refine List.Pairwise.sublist (times_sublist o symbolMap (tokens text)) ?_
  refine List.pairwise_map.mpr (horder.imp fun hle => ?_)
  exact_mod_cast UInt64.le_iff_toNat_le.mp hle

/-- The window of the first record is what is delivered if and only if the line that
the scan anchors its window at makes no difference to the records, and no line that
is read fails. -/
theorem deliversWindow_iff (o : Options) (symbolMap : SymbolMap) (d : Int) (text : Text)
    (horder : InOrder text) :
    DeliversWindow o symbolMap d text ↔
      TimedScan.KeepsWindow d (entries o symbolMap (tokens text)) := by
  have hchronological := chronological_entries horder o symbolMap
  have hscans : Scans { symbolMap := symbolMap } none [] := ⟨rfl, rfl, rfl⟩
  rw [DeliversWindow, process, foldlM_readLine o d hscans,
    ← TimedScan.scan_eq_within_iff hchronological, TimedScan.map_eq_ok_iff]
  constructor
  · rintro ⟨ms, hscan, hdelivery⟩
    have hsublist := TimedScan.within_sublist_of_scan hchronological hscan
    have hlength : ms.length = _ := congrArg (fun x => x.2.2) hdelivery
    rw [hsublist.eq_of_length hlength.symm]
    exact hscan
  · intro hscan
    exact ⟨_, hscan, rfl⟩

def sizeLine (last : Char) : Text :=
  "ts_utc=133882560000000".toList ++ last :: ",event=tickSize,tickerId=1,".toList ++
    "field=LAST_SIZE,size=5 ".toList

/-- Sizes at three successive microseconds of a morning. -/
def sizes : Text := sizeLine '0' ++ sizeLine '1' ++ sizeLine '2'

def morning : Options := { eastern := fun _ => timeOfDay 10 0 }

def aapl : SymbolMap := AList.insert 1 "AAPL.STK".toList ∅

theorem inOrder_sizes : InOrder sizes := by
  unfold InOrder
  decide +kernel

theorem deliversWindow_sizes :
    DeliversWindow morning aapl 5 sizes ↔
      TimedScan.KeepsWindow 5 (entries morning aapl (tokens sizes)) :=
  deliversWindow_iff morning aapl 5 sizes inOrder_sizes

/-- The last of the sizes is later than the duration after the first, and still is
delivered. -/
theorem not_all_deliversWindow :
    ¬ ∀ o symbolMap d text, InOrder text → DeliversWindow o symbolMap d text := by
  intro hall
  have hdelivers := hall morning aapl 1 sizes inOrder_sizes
  have hcount := congrArg (fun r => (r.toOption.map fun x => x.2.2)) hdelivers
  exact absurd hcount (by decide +kernel)

end Atp.ScanWindow

import Atp.LogReader

/-!
Lines of market depth.  Such a line has all that a message for the visitor of
market depth needs, but its event is not one of the supported ones.
-/

namespace Atp.DepthLines

open LogReader LogRecord

def IsDepthEvent (event : Text) : Prop :=
  event = "updateMktDepth".toList ∨ event = "updateMktDepthL2".toList

/-- A time at which the reader neither waits for the start nor stops. -/
def InRange (o : Options) (s : State) (t : UInt64) : Prop :=
  beforeStart o t = false ∧
    afterDuration o { s with
      current := some t
      first := if s.first = none ∧ s.matchedRecords = 1 then some t else s.first } = false

/-- A line of a log that has all the fields of the message `m`, in a state that the
reader reaches with the lines before it. -/
structure DepthLine (o : Options) (start : State) (text : Text) (before after : List Text)
    (line : Text) (s : State) (m : MarketDepth) : Prop where
  tokens : tokens text = before ++ line :: after
  read : before.foldlM (readLine o) start = .ok s
  going : s.done = false
  fields : ∃ nv event, lineToRecord '=' ',' line = .ok nv ∧
    find nv "event".toList = some event ∧ IsDepthEvent event ∧
    toMarketDepth s.symbolMap nv = .ok (some m)
  hours : inHours o m.timestamp = true
  range : InRange o s m.timestamp

/-- The message goes to the visitor once, and the reader goes on. -/
def Delivers (o : Options) (s : State) (line : Text) (m : MarketDepth) : Prop :=
  ∃ s', readLine o s line = .ok s' ∧ s'.marketDepth = s.marketDepth ++ [m] ∧ s'.done = false

theorem not_supported_of_depth {nv : LogRecord} {event : Text}
    (hfind : find nv "event".toList = some event) (hdepth : IsDepthEvent event) :
    isSupported nv = false := by
  rw [isSupported, hfind]
  rcases hdepth with rfl | rfl
  · decide
  · decide

/-- The id of a message is a number that stands for a symbol. -/
theorem bound_of_toMarketDepth {symbolMap : SymbolMap} {nv : LogRecord} {m : MarketDepth}
    (hm : toMarketDepth symbolMap nv = .ok (some m)) :
    ∃ code symbol, getField LexicalCast.long nv "id".toList = .ok (some code) ∧
      symbolMap.lookup code = some symbol := by
  unfold toMarketDepth at hm
  obtain ⟨time, -, hm⟩ := ok_of_bind hm
  cases time with
  | none => cases hm
  | some time =>
      obtain ⟨code, hcode, hm⟩ := ok_of_bind hm
      cases code with
      | none => cases hm
      | some code =>
          dsimp only at hm
          split at hm
          · rename_i symbol hsymbol
            exact ⟨code, symbol, hcode, hsymbol⟩
          · cases hm

/-- An id that stands for a symbol is not mapped again. -/
theorem mapIdToSymbols_of_bound {symbolMap : SymbolMap} {nv : LogRecord} {code : Int64}
    {symbol : Text} (hcode : getField LexicalCast.long nv "id".toList = .ok (some code))
    (hsymbol : symbolMap.lookup code = some symbol) :
    mapIdToSymbols symbolMap nv = .ok (false, symbolMap) ∨
      ∃ f, mapIdToSymbols symbolMap nv = .error f := by
  unfold getField at hcode
  unfold mapIdToSymbols
  split at hcode
  · cases hcode
  · rename_i id hid
    have hcast : cast (LexicalCast.long id) = .ok code := by
      cases hlong : cast (LexicalCast.long id) with
      | error e =>
          rw [hlong] at hcode
          cases hcode
      | ok x =>
          rw [hlong] at hcode
          cases hcode
          rfl
    rw [hcast, ok_bind]
    split
    · exact .inl rfl
    · rename_i contract _
      cases recordOf ':' ';' contract with
      | error f => exact .inr ⟨f, rfl⟩
      | ok fields =>
          rw [ok_bind]
          split
          · exact .inr ⟨.fatal, rfl⟩
          · rw [hsymbol]
            dsimp only
            split_ifs
            · exact .inr ⟨.fatal, rfl⟩
            · exact .inl rfl

/-- The reader passes over a line of market depth, or it fails there. -/
theorem readLine_of_depth {o : Options} {s : State} {line : Text} {m : MarketDepth}
    {nv : LogRecord} {event : Text} (hline : lineToRecord '=' ',' line = .ok nv)
    (hfind : find nv "event".toList = some event) (hdepth : IsDepthEvent event)
    (hm : toMarketDepth s.symbolMap nv = .ok (some m)) :
    readLine o s line = .ok s ∨ ∃ f, readLine o s line = .error f := by
  obtain ⟨code, symbol, hcode, hsymbol⟩ := bound_of_toMarketDepth hm
  unfold readLine
  split_ifs
  · exact .inl rfl
  · rw [recordOf_of_ok hline, ok_bind]
    unfold readRecord
    split_ifs
    · rcases mapIdToSymbols_of_bound hcode hsymbol with hmap | ⟨f, hmap⟩
      · rw [hmap, ok_bind]
        dsimp only
        rw [if_pos (.inr (not_supported_of_depth hfind hdepth))]
        exact .inl rfl
      · rw [hmap]
        exact .inr ⟨f, rfl⟩
    · rw [ok_bind]
      dsimp only
      rw [if_pos (.inr (not_supported_of_depth hfind hdepth))]
      exact .inl rfl

/-- No line of market depth is delivered. -/
theorem not_delivers (o : Options) (start : State) (text : Text) (before after : List Text)
    (line : Text) (s : State) (m : MarketDepth)
    (hline : DepthLine o start text before after line s m) : ¬ Delivers o s line m := by
  rintro ⟨s', hread, hdelivered, -⟩
  obtain ⟨nv, event, hfields, hfind, hdepth, hmessage⟩ := hline.fields
  rcases readLine_of_depth hfields hfind hdepth hmessage with hsame | ⟨f, hfails⟩
  · obtain rfl : s = s' := Except.ok.inj (hsame.symm.trans hread)
    have hlength := congrArg List.length hdelivered
    rw [List.length_append, List.length_singleton] at hlength
    omega
  · rw [hfails] at hread
    cases hread

/-- Supported events would not help: a line is tried as market data first, and
ends the program if it has no ticker id. -/
theorem deliver_of_no_tickerId (s : State) {nv : LogRecord} {t : UInt64}
    (htime : getField LexicalCast.uint64 nv "ts_utc".toList = .ok (some t))
    (hid : find nv "tickerId".toList = none) : deliver s nv = .error .fatal := by
  rw [deliver, toMarketData, htime, ok_bind]
  dsimp only
  rw [getField_of_none _ hid]
  rfl

/-- A run over the whole of a morning, with the symbol of one id known. -/
def morning : Options := { eastern := fun _ => timeOfDay 10 0 }

def known : State := { symbolMap := AList.insert 1 "AAPL.STK".toList ∅ }

def depthLine : Text :=
  "ts_utc=1338825600000000,event=updateMktDepth,id=1,position=0,operation=0,side=1,price=0,size=5".toList

def depthMessage : MarketDepth where
  timestamp := 1338825600000000
  symbol := "AAPL.STK".toList
  side := .bid
  price := ⟨0⟩
  size := 5
  operation := .insert
  level := 0
  mm := some []
  contractId := 1

theorem depthLine_ready :
    DepthLine morning known depthLine [] [] depthLine known depthMessage where
  tokens := by decide +kernel
  read := rfl
  going := rfl
  fields := ⟨fields '=' ',' depthLine, _, lineToRecord_of_short (by decide +kernel),
    by decide +kernel, .inl rfl, by decide +kernel⟩
  hours := by decide +kernel
  range := by
    constructor
    · rfl
    · rfl

theorem not_delivers_depthLine : ¬ Delivers morning known depthLine depthMessage :=
  not_delivers morning known depthLine [] [] depthLine known depthMessage depthLine_ready

/-- A line that a reader which knows its id passes over. -/
theorem not_all_delivered :
    ¬ ∀ o start text before after line s m,
      DepthLine o start text before after line s m → Delivers o s line m := by
  intro hall
  obtain ⟨s', hread, hdelivered, -⟩ := hall _ _ _ _ _ _ _ _ depthLine_ready
  obtain rfl : known = s' := Except.ok.inj hread
  cases hdelivered

end Atp.DepthLines

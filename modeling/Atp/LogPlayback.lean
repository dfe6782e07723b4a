import Atp.HistorianKeys
import Atp.LoggedActions
import Atp.ScanWindow
import Atp.TypedMessages

/-!
A log that is read and published: the messages that the reader hands to its visitors,
each sent under the topic of its symbol, and a message of its own after the last.
-/

namespace Atp.LogPlayback

open LogReader LogRecord TypedMessages
open ScanWindow (Message)

/-- What the visitors are given while a line is read. -/
def visited (before after : State) : List Message :=
  (after.marketData.drop before.marketData.length).map .marketData ++
    (after.marketDepth.drop before.marketDepth.length).map .marketDepth

/-- The visits of `Process` on some lines, and whether it returns. -/
def visits (o : Options) : State → List Text → List Message × Bool
  | _, [] => ([], true)
  | s, line :: lines =>
      match readLine o s line with
      | .error _ => ([], false)
      | .ok s' => (visited s s' ++ (visits o s' lines).1, (visits o s' lines).2)

/-- The protobuf library; no message is serialized as the empty text. -/
structure Wires where
  marketData : Codec MarketData
  marketDepth : Codec MarketDepth
  marketData_ne_nil : ∀ m, marketData.serializeToString m ≠ []
  marketDepth_ne_nil : ∀ m, marketDepth.serializeToString m ≠ []

/-- The dispatchers: `dispatch` with the topic and the message. -/
def Wires.message (wires : Wires) : Message → TypedMessage
  | .marketData m => ⟨m.symbol, wires.marketData.serializeToString m⟩
  | .marketDepth m =>
      ⟨HistorianKeys.entityIbMarketDepth ++ ':' :: m.symbol,
        wires.marketDepth.serializeToString m⟩

def dataEnd : TypedMessage := ⟨"__DATA_END__".toList, "__DATA_END__".toList⟩

/-- `DispatchEvents`.  An exception out of `Process` ends it before the stop. -/
def dispatchEvents (wires : Wires) (o : Options) (text : Text) : List TypedMessage :=
  (visits o {} (tokens text)).1.map wires.message ++
    if (visits o {} (tokens text)).2 then [dataEnd] else []

/-! ### What the reader hands out -/

/-- No symbol is empty. -/
def Named (s : State) : Prop := ∀ id symbol, s.symbolMap.lookup id = some symbol → symbol ≠ []

theorem symbolFromContract_ne_nil {contract : LogRecord} {symbol : Text}
    (hsymbol : symbolFromContract contract = some symbol) : symbol ≠ [] := by
  simp only [symbolFromContract, Option.bind_eq_bind, Option.bind_eq_some_iff] at hsymbol
  obtain ⟨name, -, secType, -, hsymbol⟩ := hsymbol
  split_ifs at hsymbol
  · simp only [Option.bind_eq_some_iff] at hsymbol
    obtain ⟨expiry, -, strike, -, right, -, hsymbol⟩ := hsymbol
    rw [← Option.some.inj hsymbol]
    simp
  · rw [← Option.some.inj hsymbol]
    simp

theorem named_mapIdToSymbols {s : State} (hs : Named s) {nv : LogRecord} {mapped : Bool}
    {symbolMap : SymbolMap} (hmap : mapIdToSymbols s.symbolMap nv = .ok (mapped, symbolMap)) :
    Named { s with symbolMap := symbolMap } := by
  unfold mapIdToSymbols at hmap
  split at hmap
  · obtain ⟨-, rfl⟩ := Prod.mk.inj (Except.ok.inj hmap)
    exact hs
  · obtain ⟨tickerId, -, hmap⟩ := ok_of_bind hmap
    split at hmap
    · obtain ⟨-, rfl⟩ := Prod.mk.inj (Except.ok.inj hmap)
      exact hs
    · obtain ⟨fields, -, hmap⟩ := ok_of_bind hmap
      split at hmap
      · cases hmap
      · rename_i symbol hsymbol
        split at hmap
        · obtain ⟨-, rfl⟩ := Prod.mk.inj (Except.ok.inj hmap)
          intro id known hknown
          by_cases hid : id = tickerId
          · rw [hid, AList.lookup_insert] at hknown
            exact Option.some.inj hknown ▸ symbolFromContract_ne_nil hsymbol
          · rw [AList.lookup_insert_ne hid] at hknown
            exact hs id known hknown
        · split_ifs at hmap
          obtain ⟨-, rfl⟩ := Prod.mk.inj (Except.ok.inj hmap)
          exact hs

/-- A message of market data has the symbol of an id. -/
theorem exists_lookup_of_toMarketData {symbolMap : SymbolMap} {nv : LogRecord} {m : MarketData}
    (hm : toMarketData symbolMap nv = .ok (some m)) :
    ∃ id, symbolMap.lookup id = some m.symbol := by
  unfold toMarketData at hm
  obtain ⟨timestamp, -, hm⟩ := ok_of_bind hm
  cases timestamp with
  | none => cases hm
  | some timestamp =>
      obtain ⟨code, -, hm⟩ := ok_of_bind hm
      cases code with
      | none => cases hm
      | some code =>
          dsimp only at hm
          split at hm
          · rename_i symbol hsymbol
            refine ⟨code, hsymbol.trans ?_⟩
            split at hm
            · split at hm
              · split at hm
                · obtain ⟨value, -, hm⟩ := ok_of_bind hm
                  cases hm
                  rfl
                · cases hm
              · cases hm
                rfl
            · cases hm
          · cases hm

/-- Between two states of the reader, these messages have been handed out. -/
structure Hands (s s' : State) (ms : List Message) : Prop where
  marketData : s'.marketData = s.marketData ++ ms.filterMap Message.marketData?
  marketDepth : s'.marketDepth = s.marketDepth ++ ms.filterMap Message.marketDepth?
  symbol : ∀ m ∈ ms.filterMap Message.marketData?, m.symbol ≠ []

theorem hands_nil (s : State) {s' : State} (hdata : s'.marketData = s.marketData)
    (hdepth : s'.marketDepth = s.marketDepth) : Hands s s' [] where
  marketData := hdata.trans (List.append_nil _).symm
  marketDepth := hdepth.trans (List.append_nil _).symm
  symbol _ hm := absurd hm List.not_mem_nil

section

variable {s s' : State} (hs : Named s) {nv : LogRecord}

include hs

theorem hands_of_deliver (h : deliver s nv = .ok s') :
    Named s' ∧ ∃ ms, ms.length ≤ 1 ∧ Hands s s' ms := by
  refine ⟨fun id symbol => LoggedActions.symbolMap_of_deliver h ▸ hs id symbol, ?_⟩
  unfold deliver at h
  obtain ⟨data, hdata, h⟩ := ok_of_bind h
  cases data with
  | some m =>
      cases h
      obtain ⟨id, hid⟩ := exists_lookup_of_toMarketData hdata
      refine ⟨[.marketData m], le_rfl, rfl, (List.append_nil _).symm, ?_⟩
      exact List.forall_mem_singleton.mpr (hs id m.symbol hid)
  | none =>
      obtain ⟨depth, -, h⟩ := ok_of_bind h
      cases depth with
      | some m =>
          cases h
          exact ⟨[.marketDepth m], le_rfl, (List.append_nil _).symm, rfl,
            fun _ hm => absurd hm List.not_mem_nil⟩
      | none =>
          cases h
          exact ⟨[], Nat.zero_le 1, hands_nil s rfl rfl⟩

theorem hands_of_scan {o : Options} (h : scan o s nv = .ok s') :
    Named s' ∧ ∃ ms, ms.length ≤ 1 ∧ Hands s s' ms := by
  have hquiet : Named s ∧ ∃ ms, ms.length ≤ 1 ∧ Hands s s ms :=
    ⟨hs, [], Nat.zero_le 1, hands_nil s rfl rfl⟩
  have hfirst : Named { s with first := s.current } := hs
  unfold scan at h
  dsimp only at h
  split_ifs at h
  · cases h
    exact ⟨hfirst, [], Nat.zero_le 1, hands_nil s rfl rfl⟩
  · obtain ⟨hnamed, ms, hlength, hdata, hdepth, hsymbol⟩ := hands_of_deliver hfirst h
    exact ⟨hnamed, ms, hlength, hdata, hdepth, hsymbol⟩
  · cases h
    exact ⟨hs, [], Nat.zero_le 1, hands_nil s rfl rfl⟩
  · exact hands_of_deliver hs h

theorem hands_of_readEvent {o : Options} (h : readEvent o s nv = .ok s') :
    Named s' ∧ ∃ ms, ms.length ≤ 1 ∧ Hands s s' ms := by
  unfold readEvent at h
  obtain ⟨inTime, -, h⟩ := ok_of_bind h
  split_ifs at h
  · obtain ⟨time, -, h⟩ := ok_of_bind h
    cases time with
    | none => exact hands_of_scan hs h
    | some t =>
        have hcurrent : Named { s with current := some t } := hs
        dsimp only at h
        split_ifs at h
        · cases h
          exact ⟨hcurrent, [], Nat.zero_le 1, hands_nil s rfl rfl⟩
        · obtain ⟨hnamed, ms, hlength, hdata, hdepth, hsymbol⟩ := hands_of_scan hcurrent h
          exact ⟨hnamed, ms, hlength, hdata, hdepth, hsymbol⟩
  · cases h
    exact ⟨hs, [], Nat.zero_le 1, hands_nil s rfl rfl⟩

theorem hands_of_readRecord {o : Options} (h : readRecord o s nv = .ok s') :
    Named s' ∧ ∃ ms, ms.length ≤ 1 ∧ Hands s s' ms := by
  rw [readRecord_eq] at h
  obtain ⟨⟨mapped, symbolMap⟩, hmap, h⟩ := ok_of_bind h
  have hnamed : Named { s with symbolMap := symbolMap } := by
    split_ifs at hmap
    · exact named_mapIdToSymbols hs hmap
    · cases hmap
      exact hs
  dsimp only at h
  split_ifs at h
  · cases h
    exact ⟨hnamed, [], Nat.zero_le 1, hands_nil s rfl rfl⟩
  · obtain ⟨hnamed', ms, hlength, hdata, hdepth, hsymbol⟩ := hands_of_readEvent hnamed h
    exact ⟨hnamed', ms, hlength, hdata, hdepth, hsymbol⟩

theorem hands_of_readLine {o : Options} {line : Text} (h : readLine o s line = .ok s') :
    Named s' ∧ Hands s s' (visited s s') := by
  have hexists : Named s' ∧ ∃ ms, ms.length ≤ 1 ∧ Hands s s' ms := by
    unfold readLine at h
    split_ifs at h
    · cases h
      exact ⟨hs, [], Nat.zero_le 1, hands_nil s rfl rfl⟩
    · obtain ⟨nv, -, h⟩ := ok_of_bind h
      exact hands_of_readRecord hs h
  obtain ⟨hnamed, ms, hlength, hhands⟩ := hexists
  refine ⟨hnamed, ?_⟩
  -- A line gives at most one message, so the order of the two lists is the order of `ms`.
  have hvisited : visited s s' = ms := by
    rw [visited, hhands.marketData, hhands.marketDepth, List.drop_left, List.drop_left]
    match ms, hlength with
    | [], _ => rfl
    | [.marketData m], _ => rfl
    | [.marketDepth m], _ => rfl
  exact hvisited ▸ hhands

end

/-- The visits are the messages of the state that `Process` ends with, and each has a
topic. -/
theorem hands_visits (o : Options) {s : State} (hs : Named s) (lines : List Text) :
    (∀ m ∈ (visits o s lines).1.filterMap Message.marketData?, m.symbol ≠ []) ∧
      ((visits o s lines).2 = true ↔ ∃ s', lines.foldlM (readLine o) s = .ok s') ∧
      ∀ s', lines.foldlM (readLine o) s = .ok s' → Hands s s' (visits o s lines).1 := by
  induction lines generalizing s with
  | nil =>
      refine ⟨fun _ hm => absurd hm List.not_mem_nil, iff_of_true rfl ⟨s, rfl⟩, ?_⟩
      rintro s' h
      cases h
      exact hands_nil s rfl rfl
  | cons line lines ih =>
      rw [visits, List.foldlM_cons]
      cases hread : readLine o s line with
      | error f =>
          refine ⟨fun _ hm => absurd hm List.not_mem_nil, iff_of_false Bool.false_ne_true ?_, ?_⟩
          · rintro ⟨s', h⟩
            cases h
          · rintro s' h
            cases h
      | ok t =>
          obtain ⟨hnamed, hhands⟩ := hands_of_readLine hs hread
          obtain ⟨hsymbols, hreturns, hrest⟩ := ih hnamed
          refine ⟨?_, hreturns, ?_⟩
          · rw [List.filterMap_append, List.forall_mem_append]
            exact ⟨hhands.symbol, hsymbols⟩
          · intro s' h
            have hlater := hrest s' h
            refine ⟨?_, ?_, ?_⟩
            · rw [hlater.marketData, hhands.marketData, List.filterMap_append, List.append_assoc]
            · rw [hlater.marketDepth, hhands.marketDepth, List.filterMap_append,
                List.append_assoc]
            · rw [List.filterMap_append, List.forall_mem_append]
              exact ⟨hhands.symbol, hlater.symbol⟩

end Atp.LogPlayback

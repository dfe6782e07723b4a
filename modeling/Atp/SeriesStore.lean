import Atp.GuardedWrites
import Atp.HistorianQuery

/-!
The historian as a store of time series.  A record has a slot: its kind, its symbol
(with the event, for an indexed value) and its time.  The database of keys and bytes
holds what a store of slots and records holds after the same writes, and a query
shows the records of one series between two times, in order of time.
-/

namespace Atp.SeriesStore

open GuardedWrites HistorianKeys HistorianStore HistorianQuery

/-! ### The abstract store -/

inductive Slot where
  | data (symbol : Text) (timestamp : UInt64)
  | value (symbol event : Text) (timestamp : UInt64)
  | depth (symbol : Text) (timestamp : UInt64)
  | session (symbol : Text) (start stop : UInt64)
deriving DecidableEq

def slot : Item → Slot
  | .marketData v => .data v.symbol v.timestamp
  | .marketDepth v => .depth v.symbol v.timestamp
  | .sessionLog v => .session v.symbol v.startTimestamp v.stopTimestamp
  | .indexed symbol event v => .value symbol event v.timestamp

/-- The item that a message is first of all. -/
def mainItem : Message → Item
  | .marketData v => .marketData v
  | .marketDepth v => .marketDepth v
  | .sessionLog v => .sessionLog v

theorem mainItem_mem_items (message : Message) : mainItem message ∈ message.items := by
  cases message <;> simp [mainItem, Message.items]

/-- A message is put with all its items, unless the slot of its main item is taken and
the call does not overwrite. -/
def recording (message : Message) (overwrite : Bool) : Write Slot Item where
  guard := slot (mainItem message)
  items := message.items.map fun item => (slot item, item)
  overwrite := overwrite
  guard_mem := by
    simp only [List.map_map, List.mem_map, Function.comp_apply]
    exact ⟨mainItem message, mainItem_mem_items message, rfl⟩

/-- A call that fails whatever the store holds: its message is not initialized, or
leveldb fails. -/
def Lost (call : WriteCall) : Bool :=
  call.value.isNone || call.faults.write || !call.overwrite && call.faults.get

def recordings (calls : List WriteCall) : List (Write Slot Item) :=
  calls.filterMap fun call =>
    if Lost call then none else call.value.map fun message => recording message call.overwrite

/-- The records of the historian after a sequence of calls. -/
def series (calls : List WriteCall) : Contents Slot Item :=
  GuardedWrites.run (fun _ => none) (recordings calls)

/-! ### The database as writes to a partial map -/

def Slot.key : Slot → Text
  | .data symbol t => marketDataKey symbol t
  | .value symbol event t => buildIndexKey symbol event t
  | .depth symbol t => marketDepthKey symbol t
  | .session symbol start stop => sessionLogKey ⟨symbol, start, stop, []⟩

theorem key_slot (item : Item) : (slot item).key = item.key := by
  cases item <;> rfl

theorem key_mainItem (message : Message) : (mainItem message).key = message.key := by
  cases message <;> rfl

section

variable (codec : Codec Record)

/-- What the bytes of an item are. -/
def bytesOf (item : Item) : Text := codec.serializeToString item.record

theorem get?_putItems (levelDb : LevelDb) (items : List Item) :
    (items.foldl (putItem codec) levelDb).get? =
      putAll levelDb.get? (items.map fun item => (item.key, bytesOf codec item)) := by
  induction items generalizing levelDb with
  | nil => rfl
  | cons item items ih =>
      rw [List.foldl_cons, ih]
      have hput : (putItem codec levelDb item).get? =
          put levelDb.get? (item.key, bytesOf codec item) := by
        funext k
        rw [putItem, OrderedMap.get?_put, put, Function.update_apply]
        rfl
      rw [hput]
      rfl

theorem items_recording (message : Message) (overwrite : Bool) :
    ((recording message overwrite).map Slot.key (bytesOf codec)).items =
      message.items.map fun item => (item.key, bytesOf codec item) := by
  simp [recording, Write.map, key_slot]

theorem okToWrite_iff_applies {call : WriteCall} {message : Message} (levelDb : LevelDb)
    (hlost : Lost call = false) (hvalue : call.value = some message) :
    (okToWrite call.faults message.key levelDb call.overwrite = true ∧
        call.faults.write = false) ↔
      ((recording message call.overwrite).map Slot.key (bytesOf codec)).Applies
        levelDb.get? := by
  simp only [Lost, hvalue, Option.isNone_some, Bool.false_or, Bool.or_eq_false_iff,
    Bool.and_eq_false_iff, Bool.not_eq_false'] at hlost
  obtain ⟨hwrite, hget⟩ := hlost
  have hguard : ((recording message call.overwrite).map Slot.key (bytesOf codec)).guard =
      message.key := (key_slot (mainItem message)).trans (key_mainItem message)
  rw [and_iff_left hwrite, Write.Applies, hguard, okToWrite, Bool.or_eq_true,
    decide_eq_true_iff]
  change call.overwrite = true ∨ _ ↔ call.overwrite = true ∨ _
  cases hoverwrite : call.overwrite with
  | true => simp
  | false =>
      have hget : call.faults.get = false := by simpa [hoverwrite] using hget
      rw [getStatus, hget]
      cases levelDb.get? message.key <;> simp

/-- One call of `Db::Write` is a write to the partial map, or nothing. -/
theorem get?_write (levelDb : LevelDb) (call : WriteCall) :
    (write codec levelDb call).2.get? =
      GuardedWrites.run levelDb.get?
        ((recordings [call]).map (Write.map Slot.key (bytesOf codec))) := by
  obtain ⟨value, overwrite, faults⟩ := call
  cases value with
  | none => rfl
  | some message =>
      rw [write_some]
      cases hlost : Lost ⟨some message, overwrite, faults⟩ with
      | true =>
          rw [if_neg, recordings, List.filterMap_cons_none (by simp [hlost])]
          · rfl
          · rintro ⟨hok, hwrite⟩
            simp only [Lost, hwrite, Option.isNone_some, Bool.false_or] at hlost
            cases overwrite with
            | true => cases hlost
            | false =>
                have hget : faults.get = true := hlost
                simp [okToWrite, getStatus, hget] at hok
      | false =>
          have happlies := okToWrite_iff_applies codec levelDb hlost rfl
          rw [recordings, List.filterMap_cons_some (by rw [hlost]; rfl)]
          change _ = ((recording message overwrite).map Slot.key (bytesOf codec)).apply
            levelDb.get?
          rw [Write.apply]
          by_cases h : okToWrite faults message.key levelDb overwrite = true ∧
              faults.write = false
          · rw [if_pos h, if_pos (happlies.mp h), items_recording]
            exact get?_putItems codec levelDb message.items
          · rw [if_neg h, if_neg fun h' => h (happlies.mpr h')]

theorem recordings_append (calls calls' : List WriteCall) :
    recordings (calls ++ calls') = recordings calls ++ recordings calls' :=
  List.filterMap_append

/-- So are all calls of a run. -/
theorem get?_run (calls : List WriteCall) :
    (HistorianStore.run codec calls).get? =
      GuardedWrites.run (fun _ => none)
        ((recordings calls).map (Write.map Slot.key (bytesOf codec))) := by
  induction calls using List.reverseRecOn with
  | nil => rfl
  | append_singleton calls call ih =>
      rw [HistorianStore.run, List.foldl_concat, ← HistorianStore.run, get?_write, ih,
        recordings_append, List.map_append, GuardedWrites.run_append]

end

/-! ### Slots that are told apart by their keys -/

/-- No colon in the texts of the key, and a time of the given number of digits. -/
def Regular (digits : Nat) : Item → Prop
  | .sessionLog v => ':' ∉ v.symbol ∧ (decimal v.startTimestamp.toNat).length = digits
  | item => Plain digits item

def RegularMessage (digits : Nat) (message : Message) : Prop :=
  PlainMessage digits message ∧ Regular digits (mainItem message)

instance (digits : Nat) : DecidablePred (Regular digits)
  | .marketData v =>
      inferInstanceAs (Decidable (':' ∉ v.symbol ∧ (decimal v.timestamp.toNat).length = digits))
  | .marketDepth v =>
      inferInstanceAs (Decidable (':' ∉ v.symbol ∧ (decimal v.timestamp.toNat).length = digits))
  | .sessionLog v =>
      inferInstanceAs (Decidable (':' ∉ v.symbol ∧
        (decimal v.startTimestamp.toNat).length = digits))
  | .indexed symbol event v =>
      inferInstanceAs (Decidable (':' ∉ symbol ∧ ':' ∉ event ∧
        (decimal v.timestamp.toNat).length = digits))

instance (digits : Nat) (message : Message) : Decidable (RegularMessage digits message) :=
  inferInstanceAs (Decidable (_ ∧ _))

def Slot.Regular : Slot → Prop
  | .data symbol _ => ':' ∉ symbol
  | .value symbol event _ => ':' ∉ symbol ∧ ':' ∉ event
  | .depth symbol _ => ':' ∉ symbol
  | .session symbol _ _ => ':' ∉ symbol

theorem plain_of_regular {digits : Nat} {item : Item} (hitem : Regular digits item) :
    Plain digits item := by
  cases item with
  | sessionLog v => trivial
  | _ => exact hitem

theorem regular_slot {digits : Nat} {item : Item} (hitem : Regular digits item) :
    (slot item).Regular := by
  cases item with
  | indexed symbol event v => exact ⟨hitem.1, hitem.2.1⟩
  | _ => exact hitem.1

theorem regular_of_mem_items {digits : Nat} {message : Message}
    (hmessage : RegularMessage digits message) : ∀ item ∈ message.items, Regular digits item := by
  intro item hitem
  have hplain := plain_of_plainMessage hmessage.1 item hitem
  cases message with
  | sessionLog v =>
      obtain rfl := List.mem_singleton.mp hitem
      exact hmessage.2
  | marketDepth v =>
      obtain rfl := List.mem_singleton.mp hitem
      exact hplain
  | marketData v =>
      rcases List.mem_pair.mp hitem with rfl | rfl
      · exact hplain
      · exact hplain

def Slot.type : Slot → RecordType
  | .data _ _ => .ibMarketData
  | .value _ _ _ => .indexedValue
  | .depth _ _ => .ibMarketDepth
  | .session _ _ _ => .sessionLog

def entity : RecordType → Text
  | .ibMarketData => entityIbMarketData
  | .indexedValue => indexIbMarketDataByEvent
  | .ibMarketDepth => entityIbMarketDepth
  | .sessionLog => entitySessionLog

theorem colon_not_mem_entity (type : RecordType) : ':' ∉ entity type := by
  cases type <;> decide

theorem entity_injective : Function.Injective entity := by
  intro a b
  cases a <;> cases b <;> decide

theorem exists_key_eq (k : Slot) : ∃ rest, k.key = entity k.type ++ ':' :: rest := by
  cases k <;> exact ⟨_, rfl⟩

theorem type_eq_of_key_eq {a b : Slot} (hkey : a.key = b.key) : a.type = b.type := by
  obtain ⟨resta, hresta⟩ := exists_key_eq a
  obtain ⟨restb, hrestb⟩ := exists_key_eq b
  rw [hresta, hrestb] at hkey
  exact entity_injective
    (entity_eq_of_key_eq (colon_not_mem_entity _) (colon_not_mem_entity _) hkey)

theorem sessionLogKey_inj {a b : SessionLog} (ha : ':' ∉ a.symbol)
    (hkey : sessionLogKey a = sessionLogKey b) :
    a.symbol = b.symbol ∧ a.startTimestamp = b.startTimestamp ∧
      a.stopTimestamp = b.stopTimestamp := by
  have hparts := List.cons.inj (List.append_cancel_left hkey)
  have htwo := (Text.append_two_sep_inj ha (colon_not_mem_decimal _)
    (colon_not_mem_decimal _)).mp hparts.2
  exact htwo.imp_right (And.imp decimal_toNat_inj.mp decimal_toNat_inj.mp)

theorem key_injOn : Set.InjOn Slot.key {k | k.Regular} := by
  intro a ha b hb hkey
  have htype := type_eq_of_key_eq hkey
  cases a <;> cases b <;> try cases htype
  case data.data => exact congrArg₂ Slot.data (timeKey_inj.mp hkey).1 (timeKey_inj.mp hkey).2
  case depth.depth => exact congrArg₂ Slot.depth (timeKey_inj.mp hkey).1 (timeKey_inj.mp hkey).2
  case value.value =>
      obtain ⟨rfl, rfl, ht⟩ := (buildIndexKey_eq_iff ha.1 ha.2).mp hkey
      rw [decimal_toNat_inj.mp ht]
  case session.session symbol start stop symbol' start' stop' =>
      obtain ⟨hsymbol, hstart, hstop⟩ := sessionLogKey_inj (show ':' ∉ symbol from ha) hkey
      exact Slot.session.injEq .. ▸ ⟨hsymbol, hstart, hstop⟩

section

variable (codec : Codec Record) {digits : Nat} {calls : List WriteCall}
  (hcalls : ∀ call ∈ calls, ∀ message ∈ call.value, RegularMessage digits message)

include hcalls

theorem regular_of_mem_recordings {w : Write Slot Item} (hw : w ∈ recordings calls) :
    ∀ e ∈ w.items, Regular digits e.2 ∧ e.1 = slot e.2 := by
  obtain ⟨call, hcall, hw⟩ := List.mem_filterMap.mp hw
  split_ifs at hw
  obtain ⟨message, hmessage, rfl⟩ := Option.map_eq_some_iff.mp hw
  intro e he
  obtain ⟨item, hitem, rfl⟩ := List.mem_map.mp he
  exact ⟨regular_of_mem_items (hcalls call hcall message hmessage) item hitem, rfl⟩

theorem regular_of_series {k : Slot} {item : Item} (hitem : series calls k = some item) :
    Regular digits item ∧ k = slot item := by
  rcases mem_of_run hitem with hnone | ⟨w, hw, he⟩
  · cases hnone
  · exact regular_of_mem_recordings hcalls hw _ he

/-- The database has the bytes of the record in its slot. -/
theorem get?_key {k : Slot} (hk : k.Regular) :
    (HistorianStore.run codec calls).get? k.key = (series calls k).map (bytesOf codec) := by
  rw [get?_run]
  apply run_map Slot.key (bytesOf codec) key_injOn (fun _ _ => rfl) _ hk
  intro w hw e he
  obtain ⟨hregular, hslot⟩ := regular_of_mem_recordings hcalls hw e he
  exact hslot ▸ regular_slot hregular

theorem allItems_regular : AllItems codec (Regular digits) (HistorianStore.run codec calls) :=
  allItems_run codec fun call hcall message hmessage =>
    regular_of_mem_items (hcalls call hcall message hmessage)

omit hcalls in
theorem item_eq_of_bytes {item item' : Item} (hslot : slot item = slot item')
    (hbytes : bytesOf codec item = bytesOf codec item') : item = item' := by
  rcases eq_of_record_eq (serialize_injective codec hbytes) with
    hsame | ⟨symbol, event, symbol', event', v, rfl, rfl⟩
  · exact hsame
  · obtain ⟨rfl, rfl, -⟩ := Slot.value.inj hslot
    rfl

/-- What is present in the database is what is in the series. -/
theorem present_iff_series {item : Item} (hitem : Regular digits item) :
    Present codec (HistorianStore.run codec calls) item ↔ series calls (slot item) = some item := by
  rw [Present, ← key_slot, get?_key codec hcalls (regular_slot hitem), Option.map_eq_some_iff]
  constructor
  · rintro ⟨item', hseries, hbytes⟩
    have hslot := (regular_of_series hcalls hseries).2
    rw [hseries, item_eq_of_bytes codec hslot hbytes.symm]
  · intro hseries
    exact ⟨item, hseries, rfl⟩

end

/-! ### Queries -/

/-- The item is of the series that the query names, and its time is in the half-open
range of the query. -/
def Belongs (query : QueryBySymbol) : Item → Prop
  | .sessionLog v =>
      query.type = .sessionLog ∧ v.symbol = query.symbol ∧
        query.getFirst ≤ v.startTimestamp ∧ v.startTimestamp < query.getLast
  | item => Answers query item

/-- A visitor that is passed the records until it stops. -/
def visitUntil {σ : Type} (visit : Visitor σ) : σ → List Record → σ
  | s, [] => s
  | s, record :: records =>
      let (s, readMore) := visit s record
      if readMore then visitUntil visit s records else s

theorem queryLoop_visitUntil (codec : Codec Record) {σ : Type} (visit : Visitor σ)
    (stop : Text) (items : List Item) (rest : List (Text × Text)) (count : Nat) (s : σ)
    (hitems : ∀ item ∈ items, item.key < stop) (hrest : ∀ e ∈ rest.head?, ¬ e.1 < stop) :
    (queryLoop codec visit stop (items.map (entry codec) ++ rest) count s).2 =
      visitUntil visit s (items.map visited) := by
  induction items generalizing count s with
  | nil =>
      cases rest with
      | nil => rfl
      | cons e rest => simp [queryLoop, hrest e rfl, visitUntil]
  | cons item items ih =>
      obtain ⟨hitem, hitems⟩ := List.forall_mem_cons.mp hitems
      have hitem : (entry codec item).1 < stop := hitem
      rw [List.map_cons, List.cons_append, queryLoop, if_pos hitem, List.map_cons, visitUntil]
      have hparse : codec.parseFromString (entry codec item).2 = some item.record :=
        codec.parse_serialize item.record
      have hvisit : visit s (item.record.setKey (entry codec item).1) =
          visit s (visited item) := rfl
      simp only [hparse, hvisit]
      split_ifs
      · exact ih (count + 1) (visit s (visited item)).1 hitems
      · rfl

theorem pairwise_key_of_range {codec : Codec Record} {levelDb : LevelDb} {start stop : Text}
    {items : List Item} (hrange : levelDb.range start stop = items.map (entry codec)) :
    items.Pairwise fun a b => a.key < b.key := by
  have hsorted := levelDb.sorted_range start stop
  rw [hrange, List.pairwise_map] at hsorted
  exact hsorted

section

variable {digits : Nat} {query : QueryBySymbol}
  (hfirst : (decimal query.getFirst.toNat).length = digits)
  (hlast : (decimal query.getLast.toNat).length = digits)

theorem sessionLogKey_eq (v : SessionLog) :
    sessionLogKey v = entitySessionLog ++ ':' :: (v.symbol ++ ':' ::
      (decimal v.startTimestamp.toNat ++ ':' :: decimal v.stopTimestamp.toNat)) := rfl

include hfirst hlast

theorem sessionLog_in_range {v : SessionLog} (hv : Regular digits (.sessionLog v))
    (hsymbol : ':' ∉ query.symbol) :
    (sessionLogTimeKey query.symbol query.getFirst ≤ sessionLogKey v ∧
        sessionLogKey v < sessionLogTimeKey query.symbol query.getLast) ↔
      v.symbol = query.symbol ∧ query.getFirst ≤ v.startTimestamp ∧
        v.startTimestamp < query.getLast := by
  obtain ⟨hcolon, hdigits⟩ := hv
  rw [sessionLogTimeKey, sessionLogTimeKey, timeKey_between,
    ← decimal_between hfirst hlast hdigits, ← Text.append_lt_iff (hdigits.trans hfirst.symm),
    ← Text.append_lt_iff (hdigits.trans hlast.symm)]
  constructor
  · rintro ⟨r, hkey, hlow, hhigh⟩
    have hparts := List.cons.inj (List.append_cancel_left hkey)
    obtain ⟨hsame, rfl⟩ := (Text.append_sep_inj hcolon hsymbol).mp hparts.2
    exact ⟨hsame, hlow, hhigh⟩
  · rintro ⟨hsame, hlow, hhigh⟩
    exact ⟨_, by rw [sessionLogKey_eq, hsame], hlow, hhigh⟩

/-- Among the keys of regular items, the range of a query holds those of the items
that belong to it. -/
theorem in_range_iff_belongs (hsymbol : ':' ∉ query.symbol) {start stop : Text}
    (hbounds : bounds query = some (start, stop)) {item : Item} (hitem : Regular digits item) :
    (start ≤ item.key ∧ item.key < stop) ↔ Belongs query item := by
  by_cases htype : query.type = .sessionLog
  · have hrange : start = sessionLogTimeKey query.symbol query.getFirst ∧
        stop = sessionLogTimeKey query.symbol query.getLast := by
      rw [bounds, htype] at hbounds
      exact (Prod.mk.inj (Option.some.inj hbounds)).imp Eq.symm Eq.symm
    obtain ⟨rfl, rfl⟩ := hrange
    cases item with
    | sessionLog v =>
        simp only [Belongs, htype, true_and]
        exact sessionLog_in_range hfirst hlast hitem hsymbol
    | _ =>
        refine iff_of_false (not_in_timeKey_range (by decide) (by decide) (by decide)) ?_
        simp [Belongs, Answers, htype]
  · rw [in_range_iff_answers hfirst hlast htype hbounds (plain_of_regular hitem)]
    cases item with
    | sessionLog v => exact iff_of_false id fun h => htype h.1
    | _ => rfl

omit hfirst hlast in
theorem not_belongs_of_bounds_none (hbounds : bounds query = none) (item : Item) :
    ¬ Belongs query item := by
  have hanswers := not_answers_of_bounds_none hbounds item
  cases item with
  | sessionLog v =>
      rintro ⟨htype, -⟩
      rw [bounds, htype] at hbounds
      cases hbounds
  | _ => exact hanswers

end

/-- Keys of items that belong to one query are in the order of their times. -/
theorem time_le_of_key_lt {digits : Nat} {query : QueryBySymbol} {a b : Item}
    (ha : Regular digits a) (hb : Regular digits b) (hqa : Belongs query a)
    (hqb : Belongs query b) (hlt : a.key < b.key) : time a ≤ time b := by
  cases a with
  | sessionLog v =>
      cases b with
      | sessionLog w =>
          have hsymbol : v.symbol = w.symbol := hqa.2.1.trans hqb.2.1.symm
          rw [Item.key, Item.key, sessionLogKey_eq, sessionLogKey_eq, hsymbol,
            Text.append_lt_append_iff, List.cons_lt_cons_self, Text.append_lt_append_iff,
            List.cons_lt_cons_self, Text.append_lt_append_iff_of_length (ha.2.trans hb.2.symm),
            Text.decimal_lt_iff (ha.2.trans hb.2.symm), decimal_toNat_inj] at hlt
          rcases hlt with hlt | ⟨heq, -⟩
          · exact UInt64.le_of_lt hlt
          · exact UInt64.le_of_eq heq
      | _ => exact absurd (hqa.1.symm.trans hqb.1) (by decide)
  | _ =>
      cases b with
      | sessionLog w => exact absurd (hqa.1.symm.trans hqb.1) (by decide)
      | _ => exact UInt64.le_of_lt (time_lt_of_key_lt ha hb hqa hqb hlt)

/-- The records of the series that belong to the query, each once and in order of time. -/
structure IsAnswer (calls : List WriteCall) (q : QueryBySymbol) (items : List Item) : Prop where
  mem_iff : ∀ item, item ∈ items ↔ series calls (slot item) = some item ∧ Belongs q item
  nodup : items.Nodup
  sorted : items.Pairwise fun a b => time a ≤ time b

theorem isAnswer_nil {q : QueryBySymbol} (hbounds : bounds q = none) (calls : List WriteCall) :
    IsAnswer calls q [] where
  mem_iff item := by simpa using fun _ => not_belongs_of_bounds_none hbounds item
  nodup := .nil
  sorted := .nil

section

variable (codec : Codec Record) {calls : List WriteCall} {digits : Nat}
  (hcalls : ∀ call ∈ calls, ∀ message ∈ call.value, RegularMessage digits message)
  {q : QueryBySymbol} (hsymbol : ':' ∉ q.symbol)
  (hfirst : (decimal q.getFirst.toNat).length = digits)
  (hlast : (decimal q.getLast.toNat).length = digits)

include hcalls hsymbol hfirst hlast

/-- The items of a range of keys answer the query that has these bounds. -/
theorem isAnswer_of_range {start stop : Text} (hbounds : bounds q = some (start, stop))
    {items : List Item} (hitems : ∀ item ∈ items, Regular digits item)
    (hrange : (HistorianStore.run codec calls).range start stop = items.map (entry codec)) :
    IsAnswer calls q items := by
  have hkeys := pairwise_key_of_range hrange
  have hregular : ∀ {item}, Regular digits item → (item ∈ items ↔
      series calls (slot item) = some item ∧ Belongs q item) := by
    intro item hitem
    rw [← present_iff_series codec hcalls hitem,
      ← in_range_iff_belongs hfirst hlast hsymbol hbounds hitem, Present,
      ← OrderedMap.mem_range_iff, hrange, List.mem_map]
    constructor
    · intro h
      exact ⟨item, h, rfl⟩
    · rintro ⟨item', hin, heq⟩
      exact entry_inj (plain_of_regular (hitems item' hin)) heq ▸ hin
  have hmem : ∀ item, item ∈ items ↔
      series calls (slot item) = some item ∧ Belongs q item := by
    intro item
    constructor
    · intro hin
      exact (hregular (hitems item hin)).mp hin
    · intro h
      exact (hregular (regular_of_series hcalls h.1).1).mpr h
  refine ⟨hmem, ?_, ?_⟩
  · apply hkeys.imp
    rintro a b hlt rfl
    exact lt_irrefl _ hlt
  · apply hkeys.imp_of_mem
    intro a b ha hb hlt
    exact time_le_of_key_lt (hitems a ha) (hitems b hb) ((hmem a).mp ha).2
      ((hmem b).mp hb).2 hlt

theorem queryRange_shows_answer {start stop : Text} (hbounds : bounds q = some (start, stop)) :
    ∃ items, IsAnswer calls q items ∧ ∀ (σ : Type) (visit : Visitor σ) (s : σ),
      (queryRange codec visit (HistorianStore.run codec calls) start stop s).2 =
        visitUntil visit s (items.map visited) := by
  have hall := allItems_regular codec hcalls
  obtain ⟨items, hitems, hrange⟩ :
      ∃ items : List Item, (∀ item ∈ items, Regular digits item) ∧
        (HistorianStore.run codec calls).range start stop = items.map (entry codec) := by
    apply exists_items
    intro e he
    obtain ⟨item, hitem, hkey, hvalue⟩ := hall e.1 e.2 (OrderedMap.mem_range_iff.mp he).1
    exact ⟨item, hitem, Prod.ext hkey hvalue⟩
  refine ⟨items, isAnswer_of_range codec hcalls hsymbol hfirst hlast hbounds hitems hrange,
    fun σ visit s => ?_⟩
  obtain ⟨rest, hseek, hbelow, hrest⟩ :=
    (HistorianStore.run codec calls).exists_seek_eq start stop
  rw [hrange] at hseek hbelow
  rw [queryRange, hseek]
  apply queryLoop_visitUntil codec visit stop items rest 0 s _ hrest
  intro item hitem
  exact hbelow _ (List.mem_map_of_mem hitem)

/-- A query shows every visitor its answer, until the visitor stops. -/
theorem query_shows_answer : ∃ items, IsAnswer calls q items ∧
    ∀ (σ : Type) (visit : Visitor σ) (s : σ),
      (query codec visit (HistorianStore.run codec calls) q s).2 =
        visitUntil visit s (items.map visited) := by
  cases hbounds : bounds q with
  | none =>
      refine ⟨[], isAnswer_nil hbounds calls, fun σ visit s => ?_⟩
      rw [query, hbounds]
      rfl
  | some range =>
      obtain ⟨items, hanswer, hvisits⟩ :=
        queryRange_shows_answer codec hcalls hsymbol hfirst hlast hbounds
      refine ⟨items, hanswer, fun σ visit s => ?_⟩
      rw [query, hbounds]
      exact hvisits σ visit s

/-- After any calls of `Db::Write` the database holds the series: each of its slots under
its key, and for every query and visitor the records that belong to the query, each once
and in order of time, until the visitor stops. -/
theorem run_refines_series :
    (∀ k : Slot, k.Regular →
      (HistorianStore.run codec calls).get? k.key = (series calls k).map (bytesOf codec)) ∧
    ∃ items, IsAnswer calls q items ∧ ∀ (σ : Type) (visit : Visitor σ) (s : σ),
      (query codec visit (HistorianStore.run codec calls) q s).2 =
        visitUntil visit s (items.map visited) :=
  ⟨fun _ hk => get?_key codec hcalls hk,
    query_shows_answer codec hcalls hsymbol hfirst hlast⟩

end

/-- The second call does not overwrite the record of the first. -/
def repeatedCalls : List WriteCall :=
  [{ value := some (.marketData ⟨15, ['A'], ['A', 'S', 'K'], .ofInt 1, 7⟩) },
    { value := some (.marketData ⟨15, ['A'], ['B', 'I', 'D'], .ofInt 2, 7⟩)
      overwrite := false },
    { value := some (.sessionLog ⟨['A'], 10, 20, []⟩) },
    { value := some (.sessionLog ⟨['A'], 10, 0, []⟩) }]

def sessionsOfA : QueryBySymbol :=
  { type := .sessionLog, symbol := ['A'], utcFirstMicros := some 10, utcLastMicros := some 20 }

theorem run_refines_series_sessionsOfA :
    (HistorianStore.run RecordWire.recordCodec repeatedCalls).get? (marketDataKey ['A'] 15) =
        (series repeatedCalls (.data ['A'] 15)).map (bytesOf RecordWire.recordCodec) ∧
      ∃ items, IsAnswer repeatedCalls sessionsOfA items ∧
        (query RecordWire.recordCodec (fun seen record => (seen ++ [record], true))
            (HistorianStore.run RecordWire.recordCodec repeatedCalls) sessionsOfA []).2 =
          visitUntil (fun seen record => (seen ++ [record], true)) [] (items.map visited) := by
  obtain ⟨hget, items, hitems, hquery⟩ :=
    @run_refines_series RecordWire.recordCodec repeatedCalls 2 (by decide) sessionsOfA
      (by decide) (by decide) (by decide)
  exact ⟨hget (.data ['A'] 15) (show ':' ∉ ['A'] by decide), items, hitems, hquery _ _ _⟩

example : series repeatedCalls (.data ['A'] 15) =
    some (.marketData ⟨15, ['A'], ['A', 'S', 'K'], .ofInt 1, 7⟩) := by rfl

end Atp.SeriesStore

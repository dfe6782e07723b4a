import Atp.DbReactor

/-!
Market data and market depth written with overwrite.  The key of a record is its
type, symbol and time; neither the event of market data nor the side and level of
market depth is in it.
-/

namespace Atp.RecordCollisions

open HistorianKeys HistorianStore HistorianQuery DbReactor

inductive MarketRecord where
  | data (value : MarketData)
  | depth (value : MarketDepth)

namespace MarketRecord

def message : MarketRecord → Message
  | data v => .marketData v
  | depth v => .marketDepth v

def item : MarketRecord → Item
  | data v => .marketData v
  | depth v => .marketDepth v

def type : MarketRecord → RecordType
  | data _ => .ibMarketData
  | depth _ => .ibMarketDepth

def symbol : MarketRecord → Text
  | data v => v.symbol
  | depth v => v.symbol

def timestamp : MarketRecord → UInt64
  | data v => v.timestamp
  | depth v => v.timestamp

end MarketRecord

/-- A call of `Db::Write` with `overwrite` set. -/
structure OverwriteCall where
  record : MarketRecord
  faults : Faults := {}

def OverwriteCall.call (w : OverwriteCall) : WriteCall := ⟨some w.record.message, true, w.faults⟩

def store (codec : Codec Record) (writes : List OverwriteCall) : LevelDb :=
  run codec (writes.map OverwriteCall.call)

/-- The records of the calls in which leveldb does not fail. -/
def written (writes : List OverwriteCall) : List MarketRecord :=
  (writes.filter fun w => !w.faults.write).map OverwriteCall.record

/-- The records are of different types, or differ in what tells two events of the
market apart. -/
def Differ : MarketRecord → MarketRecord → Prop
  | .data v, .data w => v.symbol ≠ w.symbol ∨ v.event ≠ w.event ∨ v.timestamp ≠ w.timestamp
  | .depth v, .depth w =>
      v.symbol ≠ w.symbol ∨ v.timestamp ≠ w.timestamp ∨ v.side ≠ w.side ∨ v.level ≠ w.level
  | _, _ => True

def Collide (a b : MarketRecord) : Prop :=
  a.type = b.type ∧ a.symbol = b.symbol ∧ a.timestamp = b.timestamp

/-- The range of the query holds the record: its key, or its symbol and time, with
bounds that are written with as many digits as the time. -/
def Covers (record : MarketRecord) : DbQuery → Prop
  | .byRange q => q.first ≤ record.item.key ∧ record.item.key < q.last
  | .bySymbol q => q.type = record.type ∧ q.symbol = record.symbol ∧
      q.getFirst ≤ record.timestamp ∧ record.timestamp < q.getLast ∧
      (decimal q.getFirst.toNat).length = (decimal record.timestamp.toNat).length ∧
      (decimal q.getLast.toNat).length = (decimal record.timestamp.toNat).length

def Retrievable (codec : Codec Record) (levelDb : LevelDb) (record : MarketRecord) : Prop :=
  ∀ query, Covers record query → visited record.item ∈ visits codec levelDb query

/-! ### Keys -/

/-- The first part of the key of a record. -/
def MarketRecord.entity : MarketRecord → Text
  | .data _ => entityIbMarketData
  | .depth _ => entityIbMarketDepth

theorem key_eq_timeKey (record : MarketRecord) :
    record.item.key = timeKey record.entity record.symbol record.timestamp := by
  cases record <;> rfl

theorem colon_not_mem_entity (record : MarketRecord) : ':' ∉ record.entity := by
  cases record with
  | data v => exact (by decide : ':' ∉ entityIbMarketData)
  | depth v => exact (by decide : ':' ∉ entityIbMarketDepth)

theorem entity_eq_iff {a b : MarketRecord} : a.entity = b.entity ↔ a.type = b.type := by
  have hne : entityIbMarketData ≠ entityIbMarketDepth := by decide
  cases a <;> cases b <;> simp [MarketRecord.entity, MarketRecord.type, hne, hne.symm]

theorem key_eq_iff {a b : MarketRecord} : a.item.key = b.item.key ↔ Collide a b := by
  rw [key_eq_timeKey, key_eq_timeKey, Collide, ← entity_eq_iff]
  constructor
  · intro hkey
    have hentity := entity_eq_of_key_eq (colon_not_mem_entity a) (colon_not_mem_entity b) hkey
    rw [hentity] at hkey
    exact ⟨hentity, timeKey_inj.mp hkey⟩
  · rintro ⟨hentity, hsymbol, htime⟩
    rw [hentity, hsymbol, htime]

theorem key_ne_buildIndexKey (record : MarketRecord) (symbol event : Text) (t : UInt64) :
    record.item.key ≠ buildIndexKey symbol event t := by
  intro hkey
  rw [key_eq_timeKey] at hkey
  have hentity := entity_eq_of_key_eq (colon_not_mem_entity record) (by decide) hkey
  cases record with
  | data v => exact absurd hentity (by decide : entityIbMarketData ≠ indexIbMarketDataByEvent)
  | depth v => exact absurd hentity (by decide : entityIbMarketDepth ≠ indexIbMarketDataByEvent)

theorem record_ne_of_differ {a b : MarketRecord} (hdiffer : Differ a b) :
    a.item.record ≠ b.item.record := by
  intro hrecord
  rcases eq_of_record_eq hrecord with heq | ⟨_, _, _, _, _, heq, -⟩
  · cases a <;> cases b <;> simp_all [MarketRecord.item, Differ]
  · cases a <;> cases heq

/-! ### What the writes leave -/

section

variable (codec : Codec Record)

def putRecord (levelDb : LevelDb) (record : MarketRecord) : LevelDb :=
  record.message.items.foldl (putItem codec) levelDb

theorem store_eq (writes : List OverwriteCall) :
    store codec writes = (written writes).foldl (putRecord codec) OrderedMap.empty := by
  rw [store, run]
  generalize (OrderedMap.empty : LevelDb) = levelDb
  induction writes generalizing levelDb with
  | nil => rfl
  | cons w writes ih =>
      rw [List.map_cons, List.foldl_cons, ih, OverwriteCall.call, write_some]
      cases hwrite : w.faults.write with
      | false =>
          simp only [okToWrite, Bool.true_or, and_self, ↓reduceIte, written, hwrite,
            List.filter_cons, Bool.not_false, List.map_cons, List.foldl_cons]
          rfl
      | true => simp [written, hwrite]

theorem get?_putRecord_of_eq (levelDb : LevelDb) {record other : MarketRecord}
    (hkey : other.item.key = record.item.key) :
    (putRecord codec levelDb record).get? other.item.key =
      some (codec.serializeToString record.item.record) := by
  cases record with
  | data v =>
      have hindex := key_ne_buildIndexKey other v.symbol v.event v.timestamp
      refine (OrderedMap.get?_put_of_ne _ hindex _).trans ?_
      rw [hkey]
      exact OrderedMap.get?_put_self _ _ _
  | depth v =>
      rw [hkey]
      exact OrderedMap.get?_put_self _ _ _

theorem get?_putRecord_of_ne (levelDb : LevelDb) {record other : MarketRecord}
    (hkey : other.item.key ≠ record.item.key) :
    (putRecord codec levelDb record).get? other.item.key = levelDb.get? other.item.key := by
  cases record with
  | data v =>
      have hindex := key_ne_buildIndexKey other v.symbol v.event v.timestamp
      exact (OrderedMap.get?_put_of_ne _ hindex _).trans (OrderedMap.get?_put_of_ne _ hkey _)
  | depth v => exact OrderedMap.get?_put_of_ne _ hkey _

theorem present_putRecord_self (levelDb : LevelDb) (record : MarketRecord) :
    Present codec (putRecord codec levelDb record) record.item :=
  get?_putRecord_of_eq codec levelDb rfl

/-- A record stays unless one of another event, side or level takes its key. -/
theorem present_putRecord_iff {levelDb : LevelDb} {record other : MarketRecord}
    (hdiffer : Differ other record) :
    Present codec (putRecord codec levelDb record) other.item ↔
      Present codec levelDb other.item ∧ ¬ Collide other record := by
  rw [Present, ← key_eq_iff]
  by_cases hkey : other.item.key = record.item.key
  · rw [get?_putRecord_of_eq codec levelDb hkey]
    refine iff_of_false (fun heq => ?_) fun h => h.2 hkey
    have hrecord := serialize_injective codec (Option.some.inj heq)
    exact record_ne_of_differ hdiffer hrecord.symm
  · rw [get?_putRecord_of_ne codec levelDb hkey, and_iff_left hkey, Present]

theorem present_foldl_iff {records : List MarketRecord} (hdiffer : records.Pairwise Differ) :
    (∀ record ∈ records,
        Present codec (records.foldl (putRecord codec) OrderedMap.empty) record.item) ↔
      records.Pairwise fun a b => ¬ Collide a b := by
  induction records using List.reverseRecOn with
  | nil => simp
  | append_singleton records last ih =>
      obtain ⟨hrecords, -, hlast⟩ := List.pairwise_append.mp hdiffer
      have hlast : ∀ record ∈ records, Differ record last := by simpa using hlast
      rw [List.foldl_concat, List.pairwise_append, ← ih hrecords]
      simp only [List.mem_append, List.mem_singleton, or_imp, forall_and, forall_eq,
        present_putRecord_self, and_true, List.pairwise_singleton, true_and]
      rw [← forall₂_and]
      exact forall₂_congr fun record hmem => present_putRecord_iff codec (hlast record hmem)

end

/-! ### What a query shows -/

section

variable {codec : Codec Record} {levelDb : LevelDb}

theorem visits_of_queryRange {query : DbQuery} {start stop : Text}
    (hquery : ∀ (σ : Type) (visit : Visitor σ) (s : σ),
      dbQuery codec visit levelDb query s = queryRange codec visit levelDb start stop s) :
    visits codec levelDb query = recordsOf codec (levelDb.range start stop) := by
  rw [visits, hquery, queryRange, queryLoop_of_continues codec fun _ _ => rfl]
  exact (foldl_concat_map _ _ _).trans (by simp [OrderedMap.range])

theorem bounds_of_type {record : MarketRecord} {query : QueryBySymbol}
    (htype : query.type = record.type) :
    bounds query = some (timeKey record.entity query.symbol query.getFirst,
      timeKey record.entity query.symbol query.getLast) := by
  rw [bounds, htype]
  cases record <;> rfl

theorem visits_of_covers {record : MarketRecord} {query : DbQuery}
    (hcovers : Covers record query) :
    ∃ start stop, start ≤ record.item.key ∧ record.item.key < stop ∧
      visits codec levelDb query = recordsOf codec (levelDb.range start stop) := by
  cases query with
  | byRange q =>
      exact ⟨q.first, q.last, hcovers.1, hcovers.2, visits_of_queryRange fun _ _ _ => rfl⟩
  | bySymbol q =>
      obtain ⟨htype, hsymbol, hfirst, hlast, hdigits, hdigits'⟩ := hcovers
      have hdecimal := (decimal_between hdigits hdigits' rfl).mpr ⟨hfirst, hlast⟩
      obtain ⟨hstart, hstop⟩ := timeKey_between.mpr ⟨_, key_eq_timeKey record, hdecimal⟩
      refine ⟨_, _, hstart, hstop, visits_of_queryRange fun σ visit s => ?_⟩
      change HistorianQuery.query codec visit levelDb q s = _
      rw [HistorianQuery.query, bounds_of_type htype, hsymbol]

theorem setKey_inj {a b : Item} {k k' : Text}
    (heq : a.record.setKey k = b.record.setKey k') : k = k' ∧ a.record = b.record := by
  have hkey : ∀ item : Item, item.record.key = none := by
    intro item
    cases item <;> rfl
  have ha : a.record = { a.record.setKey k with key := none } := by
    rw [Record.setKey, ← hkey a]
  have hb : b.record = { b.record.setKey k' with key := none } := by
    rw [Record.setKey, ← hkey b]
  constructor
  · exact Option.some.inj (congrArg Record.key heq)
  · rw [ha, hb, heq]

theorem retrievable_iff_present (hall : AllItems codec (fun _ => True) levelDb)
    {record : MarketRecord} :
    Retrievable codec levelDb record ↔ Present codec levelDb record.item := by
  constructor
  · intro hretrievable
    have hlt := (Text.append_lt_append_iff record.item.key [] ['0']).mpr (List.nil_lt_cons _ _)
    rw [List.append_nil] at hlt
    have hcovers : Covers record (.byRange ⟨record.type, record.item.key,
        record.item.key ++ ['0'], none⟩) := ⟨le_rfl, hlt⟩
    have hmem := hretrievable _ hcovers
    rw [visits_of_queryRange fun _ _ _ => rfl] at hmem
    obtain ⟨⟨k, v⟩, hentry, hvisited⟩ := List.mem_filterMap.mp hmem
    have hget := (OrderedMap.mem_range_iff.mp hentry).1
    obtain ⟨item, -, rfl, rfl⟩ := hall k v hget
    rw [Codec.parse_serialize, Option.map_some, Option.some.injEq] at hvisited
    obtain ⟨hkey, hrecord⟩ := setKey_inj hvisited
    rw [Present, ← hkey, ← hrecord]
    exact hget
  · intro hpresent query hcovers
    obtain ⟨start, stop, hstart, hstop, hvisits⟩ := @visits_of_covers codec levelDb _ _ hcovers
    rw [hvisits]
    apply List.mem_filterMap.mpr
    refine ⟨(record.item.key, codec.serializeToString record.item.record), ?_, ?_⟩
    · exact OrderedMap.mem_range_iff.mpr ⟨hpresent, hstart, hstop⟩
    · rw [Codec.parse_serialize, Option.map_some]
      rfl

end

/-- Of writes that pairwise differ, each record stays retrievable exactly if no two
of them share type, symbol and time. -/
theorem retrievable_iff_not_collide (codec : Codec Record) {writes : List OverwriteCall}
    (hdiffer : (written writes).Pairwise Differ) :
    (∀ record ∈ written writes, Retrievable codec (store codec writes) record) ↔
      (written writes).Pairwise fun a b => ¬ Collide a b := by
  have hall : AllItems codec (fun _ => True) (store codec writes) :=
    allItems_run codec fun _ _ _ _ _ _ => trivial
  rw [← present_foldl_iff codec hdiffer, ← store_eq]
  exact forall₂_congr fun record _ => retrievable_iff_present hall

def bid : MarketRecord := .data ⟨15, ['A'], ['B', 'I', 'D'], .ofInt 1, 7⟩

def ask : MarketRecord := .data ⟨15, ['A'], ['A', 'S', 'K'], .ofInt 2, 7⟩

def depthAsk : MarketRecord := .depth ⟨15, ['A'], .ask, ⟨0⟩, 1, .insert, 0, none, 7⟩

theorem retrievable_iff_not_collide_bid_depth :
    (∀ record ∈ written [⟨bid, {}⟩, ⟨ask, { write := true }⟩, ⟨depthAsk, {}⟩],
        Retrievable RecordWire.recordCodec (store RecordWire.recordCodec
          [⟨bid, {}⟩, ⟨ask, { write := true }⟩, ⟨depthAsk, {}⟩]) record) ↔
      [bid, depthAsk].Pairwise fun a b => ¬ Collide a b :=
  retrievable_iff_not_collide RecordWire.recordCodec
    (List.pairwise_pair.mpr trivial : [bid, depthAsk].Pairwise Differ)

/-- The ask at a time removes the bid at the same time. -/
theorem not_always_retrievable :
    ¬ ∀ writes, (writes.map OverwriteCall.record).Pairwise Differ →
      ∀ record ∈ written writes,
        Retrievable RecordWire.recordCodec (store RecordWire.recordCodec writes) record := by
  intro hall
  have hdiffer : Differ bid ask := .inr (.inl (by decide))
  have hbid := hall [⟨bid, {}⟩, ⟨ask, {}⟩] (List.pairwise_pair.mpr hdiffer) bid
    List.mem_cons_self
    (.bySymbol ⟨.ibMarketData, ['A'], some 12, some 16, none⟩)
    ⟨rfl, rfl, by decide, by decide, by decide, by decide⟩
  exact absurd hbid (by decide +kernel)

end Atp.RecordCollisions

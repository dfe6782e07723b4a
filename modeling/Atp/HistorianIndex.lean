import Atp.HistorianStore
import Atp.RecordWire
import Atp.Runs

/-!
The secondary index of market data by event, and when it agrees with the primary
records.  The table the two should be views of has at most one record for each
symbol and time.
-/

namespace Atp.HistorianIndex

open HistorianKeys HistorianStore

variable (codec : Codec Record)

def primary (levelDb : LevelDb) (symbol : Text) (timestamp : UInt64) : Option MarketData :=
  (levelDb.get? (marketDataKey symbol timestamp)).bind fun bytes =>
    (codec.parseFromString bytes).bind Record.asMarketData

def indexEntry (levelDb : LevelDb) (symbol event : Text) (timestamp : UInt64) :
    Option Value :=
  (levelDb.get? (buildIndexKey symbol event timestamp)).bind fun bytes =>
    (codec.parseFromString bytes).bind fun record =>
      record.asIndexedValue.map IndexedValue.value

/-- An index entry exists exactly where a primary record carries its event, and
both hold the same value. -/
def Agree (levelDb : LevelDb) : Prop :=
  ∀ symbol event timestamp v, indexEntry codec levelDb symbol event timestamp = some v ↔
    ∃ data, primary codec levelDb symbol timestamp = some data ∧ data.event = event ∧
      data.value = v

/-- No colon takes part in the key, and a record that is replaced has the same
event. -/
def Keeps (levelDb : LevelDb) (call : WriteCall) : Prop :=
  ∀ data, Effective levelDb call (.marketData data) →
    ':' ∉ data.symbol ∧ ':' ∉ data.event ∧
      ∀ old, primary codec levelDb data.symbol data.timestamp = some old →
        old.event = data.event

abbrev Table := Text → UInt64 → Option MarketData

def Table.set (table : Table) (data : MarketData) : Table := fun symbol timestamp =>
  if symbol = data.symbol ∧ timestamp = data.timestamp then some data
  else table symbol timestamp

/-- The store is the table with its index. -/
structure Indexed (levelDb : LevelDb) (table : Table) : Prop where
  records : ∀ symbol timestamp, levelDb.get? (marketDataKey symbol timestamp) =
    (table symbol timestamp).map fun data =>
      codec.serializeToString (Record.wrapMarketData data)
  entries : ∀ symbol event timestamp, levelDb.get? (buildIndexKey symbol event timestamp) =
    ((table symbol timestamp).filter fun data => data.event = event).map fun data =>
      codec.serializeToString (Record.wrapIndexedValue ⟨timestamp, data.value⟩)
  plain : ∀ {symbol timestamp data}, table symbol timestamp = some data →
    ':' ∉ symbol ∧ ':' ∉ data.event

variable {codec}

theorem Indexed.primary_eq {levelDb : LevelDb} {table : Table}
    (hindexed : Indexed codec levelDb table) (symbol : Text) (timestamp : UInt64) :
    primary codec levelDb symbol timestamp = table symbol timestamp := by
  rw [primary, hindexed.records]
  cases table symbol timestamp with
  | none => rfl
  | some data => simp [Record.asMarketData, Record.as, Record.wrapMarketData]

theorem Indexed.indexEntry_eq {levelDb : LevelDb} {table : Table}
    (hindexed : Indexed codec levelDb table) (symbol event : Text) (timestamp : UInt64) :
    indexEntry codec levelDb symbol event timestamp =
      ((table symbol timestamp).filter fun data => data.event = event).map
        MarketData.value := by
  rw [indexEntry, hindexed.entries]
  cases (table symbol timestamp).filter fun data => data.event = event with
  | none => rfl
  | some data => simp [Record.asIndexedValue, Record.as, Record.wrapIndexedValue]

theorem Indexed.agree {levelDb : LevelDb} {table : Table}
    (hindexed : Indexed codec levelDb table) : Agree codec levelDb := by
  intro symbol event timestamp v
  rw [hindexed.indexEntry_eq, hindexed.primary_eq]
  simp [Option.filter_eq_some_iff, and_assoc]

theorem indexed_empty : Indexed codec OrderedMap.empty fun _ _ => none :=
  ⟨fun _ _ => rfl, fun _ _ _ => rfl, fun h => nomatch h⟩

/-! ### What a write changes -/

theorem marketDataKey_ne_buildIndexKey (symbol symbol' event : Text) (t t' : UInt64) :
    marketDataKey symbol t ≠ buildIndexKey symbol' event t' := fun heq =>
  absurd (entity_eq_of_key_eq (by decide) (by decide) heq) (by decide)

section

variable {levelDb : LevelDb} {call : WriteCall}

theorem get?_marketDataKey_write {data : MarketData}
    (heffective : Effective levelDb call (.marketData data)) (symbol : Text)
    (timestamp : UInt64) :
    (write codec levelDb call).2.get? (marketDataKey symbol timestamp) =
      if symbol = data.symbol ∧ timestamp = data.timestamp then
        some (codec.serializeToString (Record.wrapMarketData data))
      else levelDb.get? (marketDataKey symbol timestamp) := by
  rw [write_of_effective codec heffective]
  simp only [Message.items, List.foldl_cons, List.foldl_nil, putItem, Item.key, Item.record]
  rw [OrderedMap.get?_put_of_ne _ (marketDataKey_ne_buildIndexKey _ _ _ _ _),
    OrderedMap.get?_put]
  exact if_congr timeKey_inj rfl rfl

theorem get?_buildIndexKey_write {data : MarketData}
    (heffective : Effective levelDb call (.marketData data)) (symbol event : Text)
    (timestamp : UInt64) :
    (write codec levelDb call).2.get? (buildIndexKey symbol event timestamp) =
      if buildIndexKey symbol event timestamp =
          buildIndexKey data.symbol data.event data.timestamp then
        some (codec.serializeToString
          (Record.wrapIndexedValue ⟨data.timestamp, data.value⟩))
      else levelDb.get? (buildIndexKey symbol event timestamp) := by
  rw [write_of_effective codec heffective]
  simp only [Message.items, List.foldl_cons, List.foldl_nil, putItem, Item.key, Item.record]
  rw [OrderedMap.get?_put,
    OrderedMap.get?_put_of_ne _ (marketDataKey_ne_buildIndexKey _ _ _ _ _).symm]

theorem get?_write_of_no_data (hnone : ∀ data, ¬ Effective levelDb call (.marketData data))
    {k : Text} (hk : (∃ symbol t, k = marketDataKey symbol t) ∨
      ∃ symbol event t, k = buildIndexKey symbol event t) :
    (write codec levelDb call).2.get? k = levelDb.get? k := by
  by_cases heffective : ∃ message, Effective levelDb call message
  · obtain ⟨message, heffective⟩ := heffective
    rw [write_of_effective codec heffective]
    cases message with
    | marketData data => exact absurd heffective (hnone data)
    | marketDepth v =>
        refine OrderedMap.get?_put_of_ne _ ?_ _
        rcases hk with ⟨symbol, t, rfl⟩ | ⟨symbol, event, t, rfl⟩
        · exact fun heq => absurd (entity_eq_of_key_eq (by decide) (by decide) heq) (by decide)
        · exact fun heq => absurd (entity_eq_of_key_eq (by decide) (by decide) heq) (by decide)
    | sessionLog v =>
        refine OrderedMap.get?_put_of_ne _ ?_ _
        rcases hk with ⟨symbol, t, rfl⟩ | ⟨symbol, event, t, rfl⟩
        · exact fun heq => absurd (entity_eq_of_key_eq (by decide) (by decide) heq) (by decide)
        · exact fun heq => absurd (entity_eq_of_key_eq (by decide) (by decide) heq) (by decide)
  · rw [write_of_not_effective codec (not_exists.mp heffective)]

/-- A write that meets the condition puts its record into the table. -/
theorem Indexed.step {table : Table} (hindexed : Indexed codec levelDb table)
    (hkeeps : Keeps codec levelDb call) :
    ∃ table', Indexed codec (write codec levelDb call).2 table' := by
  by_cases hsome : ∃ data, Effective levelDb call (.marketData data)
  · obtain ⟨data, heffective⟩ := hsome
    obtain ⟨hsymbol, hevent, hold⟩ := hkeeps data heffective
    simp only [hindexed.primary_eq] at hold
    refine ⟨table.set data, ?_, ?_, ?_⟩
    · intro symbol timestamp
      rw [get?_marketDataKey_write heffective, hindexed.records, Table.set]
      split_ifs <;> rfl
    · intro symbol event timestamp
      have hkey : buildIndexKey symbol event timestamp =
          buildIndexKey data.symbol data.event data.timestamp ↔
            (symbol = data.symbol ∧ timestamp = data.timestamp) ∧ event = data.event := by
        rw [eq_comm]
        exact (buildIndexKey_eq_iff hsymbol hevent).trans
          (by rw [decimal_toNat_inj]; tauto)
      rw [get?_buildIndexKey_write heffective, hindexed.entries, Table.set]
      simp only [hkey]
      by_cases hat : symbol = data.symbol ∧ timestamp = data.timestamp
      · obtain ⟨rfl, rfl⟩ := hat
        by_cases heq : event = data.event
        · simp [heq]
        · have hnone : (table data.symbol data.timestamp).filter
              (fun old => old.event = event) = none := by
            rw [Option.filter_eq_none_iff]
            intro old hmem hold'
            exact heq ((of_decide_eq_true hold').symm.trans (hold old hmem))
          simp [heq, Ne.symm heq, hnone]
      · simp [hat]
    · intro symbol timestamp data' hdata
      rw [Table.set] at hdata
      split_ifs at hdata with hat
      · obtain ⟨rfl, rfl⟩ := hat
        rw [← Option.some.inj hdata]
        exact ⟨hsymbol, hevent⟩
      · exact hindexed.plain hdata
  · have hnone := not_exists.mp hsome
    refine ⟨table, fun symbol timestamp => ?_, fun symbol event timestamp => ?_,
      hindexed.plain⟩
    · rw [get?_write_of_no_data hnone (.inl ⟨_, _, rfl⟩), hindexed.records]
    · rw [get?_write_of_no_data hnone (.inr ⟨_, _, _, rfl⟩), hindexed.entries]

theorem exists_alias {symbol event : Text} (hcolon : ':' ∈ symbol ∨ ':' ∈ event) :
    ∃ symbol' event', symbol' ≠ symbol ∧ (':' ∈ symbol' ∨ ':' ∈ event') ∧
      ∀ t, buildIndexKey symbol' event' t = buildIndexKey symbol event t := by
  rcases hcolon with hcolon | hcolon
  · obtain ⟨a, b, rfl⟩ := List.append_of_mem hcolon
    exact ⟨a, b ++ ':' :: event, by simp, .inr (by simp), fun t => by simp [buildIndexKey]⟩
  · obtain ⟨a, b, rfl⟩ := List.append_of_mem hcolon
    exact ⟨symbol ++ ':' :: a, b, by simp, .inl (by simp), fun t => by simp [buildIndexKey]⟩

/-- A write that does not meet the condition leaves an index entry without its
record. -/
theorem Indexed.not_agree_step {table : Table} (hindexed : Indexed codec levelDb table)
    (hbreaks : ¬ Keeps codec levelDb call) :
    ¬ Agree codec (write codec levelDb call).2 := by
  intro hagree
  simp only [Keeps, not_forall] at hbreaks
  obtain ⟨data, heffective, hbreaks⟩ := hbreaks
  have hprimary : ∀ {symbol data'}, symbol ≠ data.symbol →
      primary codec (write codec levelDb call).2 symbol data.timestamp =
        some data' → table symbol data.timestamp = some data' := by
    intro symbol data' hne hdata
    rwa [primary, get?_marketDataKey_write heffective, if_neg fun h => hne h.1, ← primary,
      hindexed.primary_eq] at hdata
  by_cases hcolon : ':' ∈ data.symbol ∨ ':' ∈ data.event
  · obtain ⟨symbol', event', hne, hcolon', hkey⟩ := exists_alias hcolon
    have hentry : indexEntry codec (write codec levelDb call).2 symbol' event'
        data.timestamp = some data.value := by
      rw [indexEntry, get?_buildIndexKey_write heffective, if_pos (hkey _)]
      simp [Record.asIndexedValue, Record.as, Record.wrapIndexedValue]
    obtain ⟨data', hdata, rfl, -⟩ := (hagree _ _ _ _).mp hentry
    obtain ⟨hsymbol, hevent⟩ := hindexed.plain (hprimary hne hdata)
    exact hcolon'.elim hsymbol hevent
  · rw [not_or] at hcolon
    obtain ⟨old, hold, hne⟩ : ∃ old, primary codec levelDb data.symbol data.timestamp =
        some old ∧ old.event ≠ data.event := by
      by_contra hnone
      push Not at hnone
      exact hbreaks ⟨hcolon.1, hcolon.2, hnone⟩
    have hentry : indexEntry codec (write codec levelDb call).2 data.symbol
        old.event data.timestamp = some old.value := by
      have hkey : buildIndexKey data.symbol old.event data.timestamp ≠
          buildIndexKey data.symbol data.event data.timestamp := fun heq =>
        hne ((buildIndexKey_eq_iff hcolon.1 hcolon.2).mp heq.symm).2.1.symm
      rw [indexEntry, get?_buildIndexKey_write heffective, if_neg hkey, ← indexEntry,
        hindexed.indexEntry_eq, ← hindexed.primary_eq, hold]
      simp
    obtain ⟨data', hdata, hevent, -⟩ := (hagree _ _ _ _).mp hentry
    rw [primary, get?_marketDataKey_write heffective, if_pos ⟨rfl, rfl⟩] at hdata
    obtain rfl : data = data' := by
      simpa [Record.asMarketData, Record.as, Record.wrapMarketData] using hdata
    exact hne hevent.symm

end

def step (codec : Codec Record) (levelDb : LevelDb) (call : WriteCall) : Option LevelDb :=
  some (write codec levelDb call).2

/-- Index and records agree throughout a run of writes if and only if no write
that takes effect has a colon in its symbol or event, or replaces a record of
another event. -/
theorem agree_iff_keeps (codec : Codec Record) (calls : List WriteCall) :
    Runs.Always (step codec) (Agree codec) OrderedMap.empty calls ↔
      Runs.Throughout (step codec) (Keeps codec) OrderedMap.empty calls := by
  refine @Runs.always_iff_throughout _ _ _ _ (fun levelDb => ∃ table, Indexed codec levelDb table)
    _ ?_ ?_ ?_ _ ⟨_, indexed_empty⟩ calls
  · rintro levelDb ⟨table, hindexed⟩
    exact hindexed.agree
  · rintro levelDb call levelDb' ⟨table, hindexed⟩ hstep hkeeps
    obtain rfl := Option.some.inj hstep
    exact hindexed.step hkeeps
  · rintro levelDb call levelDb' ⟨table, hindexed⟩ hstep hbreaks
    obtain rfl := Option.some.inj hstep
    exact hindexed.not_agree_step hbreaks

theorem stale_index_entry :
    ¬ Agree RecordWire.recordCodec (run RecordWire.recordCodec
      [{ value := some (.marketData ⟨12, ['A'], ['A', 'S', 'K'], .ofInt 1, 7⟩) },
        { value := some (.marketData ⟨12, ['A'], ['B', 'I', 'D'], .ofInt 2, 7⟩) }]) := by
  intro hagree
  have hentry : indexEntry RecordWire.recordCodec (run RecordWire.recordCodec
      [{ value := some (.marketData ⟨12, ['A'], ['A', 'S', 'K'], .ofInt 1, 7⟩) },
        { value := some (.marketData ⟨12, ['A'], ['B', 'I', 'D'], .ofInt 2, 7⟩) }])
      ['A'] ['A', 'S', 'K'] 12 = some (.ofInt 1) := by
    decide +kernel
  obtain ⟨data, hdata, hevent, -⟩ := (hagree _ _ _ _).mp hentry
  have hlast : primary RecordWire.recordCodec (run RecordWire.recordCodec
      [{ value := some (.marketData ⟨12, ['A'], ['A', 'S', 'K'], .ofInt 1, 7⟩) },
        { value := some (.marketData ⟨12, ['A'], ['B', 'I', 'D'], .ofInt 2, 7⟩) }])
      ['A'] 12 = some ⟨12, ['A'], ['B', 'I', 'D'], .ofInt 2, 7⟩ := by
    decide +kernel
  rw [hlast, Option.some.injEq] at hdata
  rw [← hdata] at hevent
  exact absurd hevent (by decide)

end Atp.HistorianIndex

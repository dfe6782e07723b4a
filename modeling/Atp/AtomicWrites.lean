import Atp.HistorianIndex

/-!
A market data record and its index entry go in together or not at all, and without
`overwrite` the first record for a symbol and time is the one that stays.
-/

namespace Atp.AtomicWrites

open HistorianKeys HistorianStore HistorianIndex

variable (codec : Codec Record)

/-- Both keys of a market data value hold it. -/
structure Holds (levelDb : LevelDb) (value : MarketData) : Prop where
  primary : levelDb.get? (marketDataKey value.symbol value.timestamp) =
    some (codec.serializeToString (Record.wrapMarketData value))
  index : levelDb.get? (buildIndexKey value.symbol value.event value.timestamp) =
    some (codec.serializeToString (Record.wrapIndexedValue ⟨value.timestamp, value.value⟩))

structure AllOrNothing (faults : Faults) (value : MarketData) (levelDb : LevelDb)
    (overwrite : Bool) : Prop where
  holds : (writeMarketData codec faults value levelDb overwrite).1 = true →
    Holds codec (writeMarketData codec faults value levelDb overwrite).2 value
  unchanged : (writeMarketData codec faults value levelDb overwrite).1 = false →
    (writeMarketData codec faults value levelDb overwrite).2 = levelDb

def Absent (levelDb : LevelDb) (value : MarketData) : Prop :=
  levelDb.get? (marketDataKey value.symbol value.timestamp) = none

/-- One of a sequence of writes that do not overwrite. -/
structure DataCall where
  value : MarketData
  faults : Faults := {}

def DataCall.Succeeds (call : DataCall) : Prop :=
  call.faults.get = false ∧ call.faults.write = false

instance (call : DataCall) : Decidable call.Succeeds :=
  inferInstanceAs (Decidable (_ ∧ _))

def writes (levelDb : LevelDb) (calls : List DataCall) : LevelDb :=
  calls.foldl (fun m call => (writeMarketData codec call.faults call.value m false).2) levelDb

/-- The first of the values for a symbol and time at which leveldb does not fail. -/
def firstFor (symbol : Text) (timestamp : UInt64) (calls : List DataCall) : Option DataCall :=
  calls.find? fun call =>
    decide (call.Succeeds ∧ symbol = call.value.symbol ∧ timestamp = call.value.timestamp)

def KeepsFirst (levelDb : LevelDb) (calls : List DataCall) : Prop :=
  ∀ symbol timestamp, (writes codec levelDb calls).get? (marketDataKey symbol timestamp) =
    (levelDb.get? (marketDataKey symbol timestamp)).or
      ((firstFor symbol timestamp calls).map fun call =>
        codec.serializeToString (Record.wrapMarketData call.value))

theorem okToWrite_false_iff {faults : Faults} {key : Text} {levelDb : LevelDb} :
    okToWrite faults key levelDb false = true ↔
      levelDb.get? key = none ∧ faults.get = false := by
  rw [okToWrite, Bool.false_or, decide_eq_true_iff, getStatus]
  cases faults.get with
  | true => simp
  | false => cases levelDb.get? key <;> simp

section

variable {codec} (faults : Faults) (value : MarketData) (levelDb : LevelDb)

theorem write_marketData (overwrite : Bool) :
    write codec levelDb ⟨some (.marketData value), overwrite, faults⟩ =
      writeMarketData codec faults value levelDb overwrite := rfl

theorem writeMarketData_fst_iff (overwrite : Bool) :
    (writeMarketData codec faults value levelDb overwrite).1 = true ↔
      Effective levelDb ⟨some (.marketData value), overwrite, faults⟩ (.marketData value) := by
  rw [writeMarketData_eq]
  split_ifs with hok
  · exact iff_of_true rfl ⟨rfl, hok.2, hok.1⟩
  · refine iff_of_false not_false ?_
    rintro ⟨-, hwrite, hget⟩
    exact hok ⟨hget, hwrite⟩

theorem allOrNothing (overwrite : Bool) : AllOrNothing codec faults value levelDb overwrite := by
  constructor
  · intro htrue
    have heffective := (writeMarketData_fst_iff faults value levelDb overwrite).mp htrue
    rw [← write_marketData]
    constructor
    · rw [get?_marketDataKey_write heffective, if_pos ⟨rfl, rfl⟩]
    · rw [get?_buildIndexKey_write heffective, if_pos rfl]
  · intro hfalse
    rw [writeMarketData_eq] at hfalse ⊢
    split_ifs at hfalse ⊢
    rfl

theorem writeMarketData_false_iff :
    (writeMarketData codec faults value levelDb false).1 = true ↔
      Absent levelDb value ∧ faults.get = false ∧ faults.write = false := by
  rw [writeMarketData_fst_iff, Effective, okToWrite_false_iff]
  constructor
  · rintro ⟨-, hwrite, habsent, hget⟩
    exact ⟨habsent, hget, hwrite⟩
  · rintro ⟨habsent, hget, hwrite⟩
    exact ⟨rfl, hwrite, habsent, hget⟩

/-- What a write that does not overwrite makes of the primary keys. -/
theorem get?_writeMarketData_false (symbol : Text) (timestamp : UInt64) :
    (writeMarketData codec faults value levelDb false).2.get? (marketDataKey symbol timestamp) =
      (levelDb.get? (marketDataKey symbol timestamp)).or
        (if (⟨value, faults⟩ : DataCall).Succeeds ∧ symbol = value.symbol ∧
            timestamp = value.timestamp then
          some (codec.serializeToString (Record.wrapMarketData value))
        else none) := by
  cases hresult : (writeMarketData codec faults value levelDb false).1 with
  | true =>
      obtain ⟨habsent, hsucceeds⟩ := (writeMarketData_false_iff faults value levelDb).mp hresult
      have heffective := (writeMarketData_fst_iff faults value levelDb false).mp hresult
      rw [← write_marketData, get?_marketDataKey_write heffective]
      by_cases hat : symbol = value.symbol ∧ timestamp = value.timestamp
      · obtain ⟨rfl, rfl⟩ := hat
        rw [if_pos ⟨rfl, rfl⟩, if_pos ⟨hsucceeds, rfl, rfl⟩, habsent, Option.none_or]
      · rw [if_neg hat, if_neg fun h => hat h.2, Option.or_none]
  | false =>
      rw [(allOrNothing faults value levelDb false).unchanged hresult]
      split_ifs with hat
      · obtain ⟨hsucceeds, rfl, rfl⟩ := hat
        have hpresent : ¬ Absent levelDb value := fun habsent =>
          Bool.false_ne_true (hresult.symm.trans
            ((writeMarketData_false_iff faults value levelDb).mpr ⟨habsent, hsucceeds⟩))
        obtain ⟨bytes, hbytes⟩ := Option.ne_none_iff_exists'.mp hpresent
        rw [hbytes, Option.some_or]
      · rw [Option.or_none]

end

theorem keepsFirst (levelDb : LevelDb) (calls : List DataCall) :
    KeepsFirst codec levelDb calls := by
  intro symbol timestamp
  induction calls generalizing levelDb with
  | nil => exact Option.or_none.symm
  | cons call calls ih =>
      rw [writes, List.foldl_cons, ← writes, ih, get?_writeMarketData_false, Option.or_assoc,
        firstFor, firstFor, List.find?_cons]
      congr 1
      by_cases hfor : call.Succeeds ∧ symbol = call.value.symbol ∧
          timestamp = call.value.timestamp
      · rw [if_pos hfor, decide_eq_true hfor]
        rfl
      · rw [if_neg hfor, decide_eq_false hfor, Option.none_or]

/-- A write returns true only with both keys holding the value and false only with the
store unchanged.  Without `overwrite` it writes just where the primary key was absent,
unless leveldb fails, and what the first write has put stays. -/
theorem writeMarketData_atomic (levelDb : LevelDb) :
    (∀ faults value overwrite, AllOrNothing codec faults value levelDb overwrite) ∧
      (∀ faults value, (writeMarketData codec faults value levelDb false).1 = true ↔
        Absent levelDb value ∧ faults.get = false ∧ faults.write = false) ∧
      ∀ calls, KeepsFirst codec levelDb calls := by
  refine ⟨?_, ?_, ?_⟩
  · intro faults value overwrite
    exact allOrNothing faults value levelDb overwrite
  · intro faults value
    exact writeMarketData_false_iff faults value levelDb
  · intro calls
    exact keepsFirst codec levelDb calls

/-- When the read fails, an absent key is not written. -/
theorem not_all_writes_iff_absent :
    ¬ ∀ codec faults value levelDb,
      (writeMarketData codec faults value levelDb false).1 = true ↔ Absent levelDb value := by
  intro hall
  have hwrites := (hall RecordWire.recordCodec { get := true }
    ⟨12, ['A'], ['A', 'S', 'K'], .ofInt 1, 7⟩ OrderedMap.empty).mpr rfl
  exact absurd hwrites (by decide)

end Atp.AtomicWrites

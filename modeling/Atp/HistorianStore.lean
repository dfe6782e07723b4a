import Atp.HistorianKeys
import Atp.OrderedMap

/-!
The historian's database: one ordered map from keys to serialized records, and
the writers that put market data with its secondary index, market depth and
session logs into it.
-/

namespace Atp.HistorianStore

open HistorianKeys

abbrev LevelDb := OrderedMap Text Text

/-- Which of the calls into leveldb fail during one write. -/
structure Faults where
  get : Bool := false
  write : Bool := false

inductive Status where
  | ok | notFound | ioError
deriving DecidableEq

def getStatus (faults : Faults) (levelDb : LevelDb) (key : Text) : Status :=
  if faults.get then .ioError
  else if (levelDb.get? key).isSome then .ok else .notFound

abbrev WriteBatch := List (Text × Text)

def applyBatch (levelDb : LevelDb) (batch : WriteBatch) : LevelDb :=
  batch.foldl (fun m e => m.put e.1 e.2) levelDb

/-- `write_db` for a batch, which is written as a whole or not at all. -/
def writeDbBatch (faults : Faults) (batch : WriteBatch) (levelDb : LevelDb) :
    Bool × LevelDb :=
  if faults.write then (false, levelDb) else (true, applyBatch levelDb batch)

/-- The test shared by `write_db` and `write_batch`. -/
def okToWrite (faults : Faults) (key : Text) (levelDb : LevelDb) (overwrite : Bool) :
    Bool :=
  overwrite || getStatus faults levelDb key = .notFound

section

variable (codec : Codec Record)

def writeDb (faults : Faults) (key : Text) (value : Record) (levelDb : LevelDb)
    (overwrite : Bool := true) : Bool × LevelDb :=
  if key.length = 0 then (false, levelDb)
  else if okToWrite faults key levelDb overwrite then
    if faults.write then (false, levelDb)
    else (true, levelDb.put key (codec.serializeToString value))
  else (false, levelDb)

def writeBatch (faults : Faults) (key : Text) (value : Record) (batch : WriteBatch)
    (levelDb : LevelDb) (overwrite : Bool := true) : Bool × WriteBatch :=
  if key.length = 0 then (false, batch)
  else if okToWrite faults key levelDb overwrite then
    (true, batch ++ [(key, codec.serializeToString value)])
  else (false, batch)

/-- `Writer<MarketData>`: the primary record first, then its index entry. -/
def writeMarketData (faults : Faults) (value : MarketData) (levelDb : LevelDb)
    (overwrite : Bool := true) : Bool × LevelDb :=
  let key := marketDataKey value.symbol value.timestamp
  let record := Record.wrapMarketData value
  let primary := writeBatch codec faults key record [] levelDb overwrite
  if primary.1 then
    let iv : IndexedValue := ⟨value.timestamp, value.value⟩
    let indexRecord := Record.wrapIndexedValue iv
    let indexKey := buildIndexKey value.symbol value.event value.timestamp
    let index := writeBatch codec faults indexKey indexRecord primary.2 levelDb true
    writeDbBatch faults index.2 levelDb
  else (false, levelDb)

def writeMarketDepth (faults : Faults) (value : MarketDepth) (levelDb : LevelDb)
    (overwrite : Bool := true) : Bool × LevelDb :=
  writeDb codec faults (marketDepthKey value.symbol value.timestamp)
    (Record.wrapMarketDepth value) levelDb overwrite

def writeSessionLog (faults : Faults) (value : SessionLog) (levelDb : LevelDb)
    (overwrite : Bool := true) : Bool × LevelDb :=
  writeDb codec faults (sessionLogKey value) (Record.wrapSessionLog value) levelDb
    overwrite

/-- A message of one of the types the database supports. -/
inductive Message where
  | marketData (value : MarketData)
  | marketDepth (value : MarketDepth)
  | sessionLog (value : SessionLog)

/-- The arguments of one `Db::Write`; nothing stands for a message that is not
initialized. -/
structure WriteCall where
  value : Option Message
  overwrite : Bool := true
  faults : Faults := {}

def write (levelDb : LevelDb) (call : WriteCall) : Bool × LevelDb :=
  match call.value with
  | none => (false, levelDb)
  | some (.marketData v) => writeMarketData codec call.faults v levelDb call.overwrite
  | some (.marketDepth v) => writeMarketDepth codec call.faults v levelDb call.overwrite
  | some (.sessionLog v) => writeSessionLog codec call.faults v levelDb call.overwrite

def run (calls : List WriteCall) : LevelDb :=
  calls.foldl (fun levelDb call => (write codec levelDb call).2) OrderedMap.empty

end

/-! ### What the store holds -/

/-- One thing stored: a record under the key that belongs to it.  The index
entry of a market data record carries its symbol and event in the key only. -/
inductive Item where
  | marketData (value : MarketData)
  | marketDepth (value : MarketDepth)
  | sessionLog (value : SessionLog)
  | indexed (symbol event : Text) (value : IndexedValue)

namespace Item

def key : Item → Text
  | marketData v => marketDataKey v.symbol v.timestamp
  | marketDepth v => marketDepthKey v.symbol v.timestamp
  | sessionLog v => sessionLogKey v
  | indexed symbol event v => buildIndexKey symbol event v.timestamp

def record : Item → Record
  | marketData v => Record.wrapMarketData v
  | marketDepth v => Record.wrapMarketDepth v
  | sessionLog v => Record.wrapSessionLog v
  | indexed _ _ v => Record.wrapIndexedValue v

end Item

/-- The items that go in together with a message. -/
def Message.items : Message → List Item
  | marketData v => [.marketData v, .indexed v.symbol v.event ⟨v.timestamp, v.value⟩]
  | marketDepth v => [.marketDepth v]
  | sessionLog v => [.sessionLog v]

def Message.key : Message → Text
  | marketData v => marketDataKey v.symbol v.timestamp
  | marketDepth v => marketDepthKey v.symbol v.timestamp
  | sessionLog v => sessionLogKey v

def putItem (codec : Codec Record) (levelDb : LevelDb) (item : Item) : LevelDb :=
  levelDb.put item.key (codec.serializeToString item.record)

/-- A message is written unless its key is taken, or leveldb fails. -/
def Effective (levelDb : LevelDb) (call : WriteCall) (message : Message) : Prop :=
  call.value = some message ∧ call.faults.write = false ∧
    okToWrite call.faults message.key levelDb call.overwrite = true

section

variable (codec : Codec Record) (faults : Faults) (levelDb : LevelDb) (overwrite : Bool)

theorem writeDb_eq {key : Text} (hkey : key ≠ []) (value : Record) :
    writeDb codec faults key value levelDb overwrite =
      if okToWrite faults key levelDb overwrite = true ∧ faults.write = false then
        (true, levelDb.put key (codec.serializeToString value))
      else (false, levelDb) := by
  rw [writeDb, if_neg (by simpa using hkey)]
  cases okToWrite faults key levelDb overwrite <;> cases faults.write <;> rfl

theorem writeBatch_eq {key : Text} (hkey : key ≠ []) (value : Record)
    (batch : WriteBatch) :
    writeBatch codec faults key value batch levelDb overwrite =
      if okToWrite faults key levelDb overwrite then
        (true, batch ++ [(key, codec.serializeToString value)])
      else (false, batch) := by
  rw [writeBatch, if_neg (by simpa using hkey)]

theorem writeMarketData_eq (value : MarketData) :
    writeMarketData codec faults value levelDb overwrite =
      if okToWrite faults (marketDataKey value.symbol value.timestamp) levelDb
          overwrite = true ∧ faults.write = false then
        (true, (Message.marketData value).items.foldl (putItem codec) levelDb)
      else (false, levelDb) := by
  have hkey : marketDataKey value.symbol value.timestamp ≠ [] := timeKey_ne_nil _ _ _
  simp only [writeMarketData, writeBatch_eq codec faults levelDb overwrite hkey,
    writeBatch_eq codec faults levelDb true (buildIndexKey_ne_nil _ _ _)]
  cases okToWrite faults (marketDataKey value.symbol value.timestamp) levelDb overwrite with
  | false => rfl
  | true =>
      simp only [↓reduceIte, okToWrite, Bool.true_or, writeDbBatch, true_and]
      cases faults.write <;> rfl

end

theorem Message.key_ne_nil (message : Message) : message.key ≠ [] := by
  cases message with
  | marketData v => exact timeKey_ne_nil _ _ _
  | marketDepth v => exact timeKey_ne_nil _ _ _
  | sessionLog v => simp [Message.key, sessionLogKey]

/-- A write puts all the items of its message, or leaves the store as it was. -/
theorem write_some (codec : Codec Record) (levelDb : LevelDb) (message : Message)
    (overwrite : Bool) (faults : Faults) :
    write codec levelDb ⟨some message, overwrite, faults⟩ =
      if okToWrite faults message.key levelDb overwrite = true ∧ faults.write = false then
        (true, message.items.foldl (putItem codec) levelDb)
      else (false, levelDb) := by
  cases message with
  | marketData v => exact writeMarketData_eq codec faults levelDb overwrite v
  | marketDepth v =>
      exact writeDb_eq codec faults levelDb overwrite (Message.key_ne_nil (.marketDepth v)) _
  | sessionLog v =>
      exact writeDb_eq codec faults levelDb overwrite (Message.key_ne_nil (.sessionLog v)) _

theorem write_of_effective (codec : Codec Record) {levelDb : LevelDb} {call : WriteCall}
    {message : Message} (heffective : Effective levelDb call message) :
    write codec levelDb call =
      (true, message.items.foldl (putItem codec) levelDb) := by
  obtain ⟨value, overwrite, faults⟩ := call
  obtain ⟨rfl, hwrite, hok⟩ := heffective
  rw [write_some, if_pos ⟨hok, hwrite⟩]

theorem write_of_not_effective (codec : Codec Record) {levelDb : LevelDb}
    {call : WriteCall} (hnone : ∀ message, ¬ Effective levelDb call message) :
    write codec levelDb call = (false, levelDb) := by
  obtain ⟨value, overwrite, faults⟩ := call
  cases value with
  | none => rfl
  | some message =>
      rw [write_some, if_neg]
      rintro ⟨hok, hwrite⟩
      exact hnone message ⟨rfl, hwrite, hok⟩

theorem run_invariant (codec : Codec Record) {P : LevelDb → Prop} (hempty : P OrderedMap.empty)
    {calls : List WriteCall}
    (hstep : ∀ levelDb, ∀ call ∈ calls, P levelDb → P (write codec levelDb call).2) :
    P (run codec calls) := by
  induction calls using List.reverseRecOn with
  | nil => exact hempty
  | append_singleton calls call ih =>
      rw [run, List.foldl_concat]
      refine hstep _ call (by simp) (ih fun levelDb c hc => ?_)
      exact hstep levelDb c (List.mem_append_left _ hc)

def AllItems (codec : Codec Record) (P : Item → Prop) (levelDb : LevelDb) : Prop :=
  ∀ k v, levelDb.get? k = some v →
    ∃ item, P item ∧ k = item.key ∧ v = codec.serializeToString item.record

theorem AllItems.putItem {codec : Codec Record} {P : Item → Prop} {levelDb : LevelDb}
    (hall : AllItems codec P levelDb) {item : Item} (hitem : P item) :
    AllItems codec P (putItem codec levelDb item) := by
  intro k v hget
  rw [HistorianStore.putItem, OrderedMap.get?_put] at hget
  split_ifs at hget with hk
  · exact ⟨item, hitem, hk, (Option.some.inj hget).symm⟩
  · exact hall k v hget

theorem AllItems.putItems {codec : Codec Record} {P : Item → Prop} {levelDb : LevelDb}
    (hall : AllItems codec P levelDb) {items : List Item} (hitems : ∀ item ∈ items, P item) :
    AllItems codec P (items.foldl (HistorianStore.putItem codec) levelDb) := by
  induction items generalizing levelDb with
  | nil => exact hall
  | cons item items ih =>
      exact ih (hall.putItem (hitems item List.mem_cons_self))
        fun i hi => hitems i (List.mem_cons_of_mem _ hi)

theorem AllItems.write {codec : Codec Record} {P : Item → Prop} {levelDb : LevelDb}
    (hall : AllItems codec P levelDb) {call : WriteCall}
    (hcall : ∀ message ∈ call.value, ∀ item ∈ message.items, P item) :
    AllItems codec P (write codec levelDb call).2 := by
  by_cases heffective : ∃ message, Effective levelDb call message
  · obtain ⟨message, heffective⟩ := heffective
    rw [write_of_effective codec heffective]
    exact hall.putItems (hcall message heffective.1)
  · rw [write_of_not_effective codec (not_exists.mp heffective)]
    exact hall

theorem allItems_run (codec : Codec Record) {P : Item → Prop} {calls : List WriteCall}
    (hcalls : ∀ call ∈ calls, ∀ message ∈ call.value, ∀ item ∈ message.items, P item) :
    AllItems codec P (run codec calls) :=
  run_invariant codec (fun _ _ hget => by simp at hget)
    fun _ call hcall hall => hall.write (hcalls call hcall)

end Atp.HistorianStore

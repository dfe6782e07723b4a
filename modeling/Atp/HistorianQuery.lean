import Atp.HistorianStore
import Atp.RecordWire

/-!
Queries by symbol over a range of time: the visitor is called for the records
of one half-open range of keys, which holds exactly the records of that symbol,
type and time.
-/

namespace Atp.HistorianQuery

open HistorianKeys HistorianStore

/-- A visitor with its own state, which says whether to read on. -/
abbrev Visitor (σ : Type) := σ → Record → σ × Bool

section

variable (codec : Codec Record) {σ : Type} (visit : Visitor σ)

/-- The loop of `query` over the entries from the start key on.  A value that is
no record is counted but not visited. -/
def queryLoop (stop : Text) : List (Text × Text) → Nat → σ → Nat × σ
  | [], count, s => (count, s)
  | e :: es, count, s =>
      if e.1 < stop then
        match codec.parseFromString e.2 with
        | some record =>
            let (s, readMore) := visit s (record.setKey e.1)
            if readMore then queryLoop stop es (count + 1) s else (count, s)
        | none => queryLoop stop es (count + 1) s
      else (count, s)

def queryRange (levelDb : LevelDb) (start stop : Text) (s : σ) : Nat × σ :=
  queryLoop codec visit stop (levelDb.seek start) 0 s

/-- The range of keys of a query; an indexed value needs an index. -/
def bounds (query : QueryBySymbol) : Option (Text × Text) :=
  match query.type with
  | .ibMarketData =>
      some (marketDataKey query.symbol query.getFirst,
        marketDataKey query.symbol query.getLast)
  | .ibMarketDepth =>
      some (marketDepthKey query.symbol query.getFirst,
        marketDepthKey query.symbol query.getLast)
  | .sessionLog =>
      some (sessionLogTimeKey query.symbol query.getFirst,
        sessionLogTimeKey query.symbol query.getLast)
  | .indexedValue =>
      query.index.map fun index =>
        (buildIndexKey query.symbol index query.getFirst,
          buildIndexKey query.symbol index query.getLast)

/-- `Db::Query`: the number of records read, and what the visitor has become. -/
def query (levelDb : LevelDb) (query : QueryBySymbol) (s : σ) : Nat × σ :=
  match bounds query with
  | some (start, stop) => queryRange codec visit levelDb start stop s
  | none => (0, s)

end

def Continues {σ : Type} (visit : Visitor σ) : Prop := ∀ s record, (visit s record).2 = true

def recordsOf (codec : Codec Record) (entries : List (Text × Text)) : List Record :=
  entries.filterMap fun e => (codec.parseFromString e.2).map (Record.setKey e.1)

theorem queryLoop_of_continues (codec : Codec Record) {σ : Type} {visit : Visitor σ}
    (hvisit : Continues visit) (stop : Text) (es : List (Text × Text)) (count : Nat) (s : σ) :
    queryLoop codec visit stop es count s =
      (count + (OrderedMap.below stop es).length,
        (recordsOf codec (OrderedMap.below stop es)).foldl
          (fun s record => (visit s record).1) s) := by
  induction es generalizing count s with
  | nil => rfl
  | cons e es ih =>
      rw [queryLoop]
      split_ifs with hstop
      · rw [OrderedMap.below_cons_of_lt hstop, List.length_cons]
        cases hparse : codec.parseFromString e.2 with
        | none =>
            simp only [ih, recordsOf, List.filterMap_cons, hparse, Option.map_none]
            rw [Nat.add_assoc, Nat.add_comm 1]
        | some record =>
            simp only [hvisit s _, ↓reduceIte, ih, recordsOf, List.filterMap_cons, hparse,
              Option.map_some, List.foldl_cons]
            rw [Nat.add_assoc, Nat.add_comm 1]
      · rw [OrderedMap.below_cons_of_not_lt hstop]
        rfl

/-! ### What a query should visit -/

/-- A message whose texts have no colon and whose time has the given number of
digits. -/
def Plain (digits : Nat) : Item → Prop
  | .marketData v => ':' ∉ v.symbol ∧ (decimal v.timestamp.toNat).length = digits
  | .marketDepth v => ':' ∉ v.symbol ∧ (decimal v.timestamp.toNat).length = digits
  | .sessionLog _ => True
  | .indexed symbol event v =>
      ':' ∉ symbol ∧ ':' ∉ event ∧ (decimal v.timestamp.toNat).length = digits

def PlainMessage (digits : Nat) : Message → Prop
  | .marketData v =>
      ':' ∉ v.symbol ∧ ':' ∉ v.event ∧ (decimal v.timestamp.toNat).length = digits
  | .marketDepth v => ':' ∉ v.symbol ∧ (decimal v.timestamp.toNat).length = digits
  | .sessionLog _ => True

instance (digits : Nat) : DecidablePred (PlainMessage digits)
  | .marketData v =>
      inferInstanceAs (Decidable (':' ∉ v.symbol ∧ ':' ∉ v.event ∧
        (decimal v.timestamp.toNat).length = digits))
  | .marketDepth v =>
      inferInstanceAs (Decidable (':' ∉ v.symbol ∧
        (decimal v.timestamp.toNat).length = digits))
  | .sessionLog _ => .isTrue trivial

def time : Item → UInt64
  | .marketData v => v.timestamp
  | .marketDepth v => v.timestamp
  | .sessionLog v => v.startTimestamp
  | .indexed _ _ v => v.timestamp

/-- The item is of the type, symbol and event the query names, and its time is
in the half-open range of the query. -/
def Answers (query : QueryBySymbol) : Item → Prop
  | .marketData v =>
      query.type = .ibMarketData ∧ v.symbol = query.symbol ∧
        query.getFirst ≤ v.timestamp ∧ v.timestamp < query.getLast
  | .marketDepth v =>
      query.type = .ibMarketDepth ∧ v.symbol = query.symbol ∧
        query.getFirst ≤ v.timestamp ∧ v.timestamp < query.getLast
  | .sessionLog _ => False
  | .indexed symbol event v =>
      query.type = .indexedValue ∧ symbol = query.symbol ∧ query.index = some event ∧
        query.getFirst ≤ v.timestamp ∧ v.timestamp < query.getLast

def Present (codec : Codec Record) (levelDb : LevelDb) (item : Item) : Prop :=
  levelDb.get? item.key = some (codec.serializeToString item.record)

theorem plain_of_plainMessage {digits : Nat} {message : Message}
    (hmessage : PlainMessage digits message) : ∀ item ∈ message.items, Plain digits item := by
  cases message with
  | marketData v =>
      obtain ⟨hsymbol, hevent, hdigits⟩ := hmessage
      simp only [Message.items, List.mem_cons, List.not_mem_nil, or_false, forall_eq_or_imp,
        forall_eq]
      exact ⟨⟨hsymbol, hdigits⟩, hsymbol, hevent, hdigits⟩
  | marketDepth v =>
      simp only [Message.items, List.mem_singleton, forall_eq]
      exact hmessage
  | sessionLog v => simp [Message.items, Plain]

/-! ### The range of a query -/

theorem timeKey_between {entity symbol k : Text} {first last : UInt64} :
    (timeKey entity symbol first ≤ k ∧ k < timeKey entity symbol last) ↔
      ∃ r, k = entity ++ ':' :: (symbol ++ ':' :: r) ∧
        ¬ r < decimal first.toNat ∧ r < decimal last.toNat := by
  obtain ⟨p, hkey⟩ : ∃ p, ∀ t, entity ++ ':' :: (symbol ++ ':' :: t) = p ++ t :=
    ⟨entity ++ ':' :: (symbol ++ [':']), fun t => by simp⟩
  rw [timeKey, timeKey, hkey, hkey, ← not_lt, Text.between_iff]
  simp only [hkey]

theorem buildIndexKey_between {symbol event k : Text} {first last : UInt64} :
    (buildIndexKey symbol event first ≤ k ∧ k < buildIndexKey symbol event last) ↔
      ∃ r, k = indexIbMarketDataByEvent ++ ':' :: (symbol ++ ':' :: (event ++ ':' :: r)) ∧
        ¬ r < decimal first.toNat ∧ r < decimal last.toNat := by
  obtain ⟨p, hkey⟩ : ∃ p, ∀ t,
      indexIbMarketDataByEvent ++ ':' :: (symbol ++ ':' :: (event ++ ':' :: t)) = p ++ t :=
    ⟨indexIbMarketDataByEvent ++ ':' :: (symbol ++ ':' :: (event ++ [':'])),
      fun t => by simp⟩
  rw [buildIndexKey, buildIndexKey, hkey, hkey, ← not_lt, Text.between_iff]
  simp only [hkey]

section

variable {digits : Nat} {first last : UInt64}
  (hfirst : (decimal first.toNat).length = digits)
  (hlast : (decimal last.toNat).length = digits)

include hfirst hlast

theorem decimal_between {t : UInt64} (ht : (decimal t.toNat).length = digits) :
    (¬ decimal t.toNat < decimal first.toNat ∧ decimal t.toNat < decimal last.toNat) ↔
      first ≤ t ∧ t < last := by
  rw [Text.decimal_lt_iff (ht.trans hfirst.symm), Text.decimal_lt_iff (ht.trans hlast.symm),
    Nat.not_lt]
  exact Iff.rfl

theorem timeKey_in_range {entity symbol symbol' : Text} {t : UInt64}
    (hsymbol : ':' ∉ symbol) (ht : (decimal t.toNat).length = digits) :
    (timeKey entity symbol' first ≤ timeKey entity symbol t ∧
        timeKey entity symbol t < timeKey entity symbol' last) ↔
      symbol = symbol' ∧ first ≤ t ∧ t < last := by
  rw [timeKey_between, ← decimal_between hfirst hlast ht]
  simp only [timeKey_eq_iff hsymbol]
  constructor
  · rintro ⟨r, ⟨rfl, rfl⟩, hlow, hhigh⟩
    exact ⟨rfl, hlow, hhigh⟩
  · rintro ⟨rfl, hlow, hhigh⟩
    exact ⟨_, ⟨rfl, rfl⟩, hlow, hhigh⟩

theorem buildIndexKey_in_range {symbol event symbol' event' : Text} {t : UInt64}
    (hsymbol : ':' ∉ symbol) (hevent : ':' ∉ event)
    (ht : (decimal t.toNat).length = digits) :
    (buildIndexKey symbol' event' first ≤ buildIndexKey symbol event t ∧
        buildIndexKey symbol event t < buildIndexKey symbol' event' last) ↔
      symbol = symbol' ∧ event = event' ∧ first ≤ t ∧ t < last := by
  rw [buildIndexKey_between, ← decimal_between hfirst hlast ht]
  simp only [buildIndexKey_eq_iff hsymbol hevent]
  constructor
  · rintro ⟨r, ⟨rfl, rfl, rfl⟩, hlow, hhigh⟩
    exact ⟨rfl, rfl, hlow, hhigh⟩
  · rintro ⟨rfl, rfl, hlow, hhigh⟩
    exact ⟨_, ⟨rfl, rfl, rfl⟩, hlow, hhigh⟩

end

theorem not_in_timeKey_range {entity entity' symbol a : Text} {first last : UInt64}
    (hentity : ':' ∉ entity) (hentity' : ':' ∉ entity') (hne : entity' ≠ entity) :
    ¬ (timeKey entity symbol first ≤ entity' ++ ':' :: a ∧
      entity' ++ ':' :: a < timeKey entity symbol last) := by
  rw [timeKey_between]
  rintro ⟨r, hr, -⟩
  exact hne (entity_eq_of_key_eq hentity' hentity hr)

theorem not_in_buildIndexKey_range {entity' symbol event a : Text} {first last : UInt64}
    (hentity' : ':' ∉ entity') (hne : entity' ≠ indexIbMarketDataByEvent) :
    ¬ (buildIndexKey symbol event first ≤ entity' ++ ':' :: a ∧
      entity' ++ ':' :: a < buildIndexKey symbol event last) := by
  rw [buildIndexKey_between]
  rintro ⟨r, hr, -⟩
  exact hne (entity_eq_of_key_eq hentity' (by decide) hr)

/-- Among the keys of well-formed items, the range of a query holds exactly the
keys of the items that answer it. -/
theorem in_range_iff_answers {digits : Nat} {query : QueryBySymbol}
    (hfirst : (decimal query.getFirst.toNat).length = digits)
    (hlast : (decimal query.getLast.toNat).length = digits)
    (htype : query.type ≠ .sessionLog) {start stop : Text}
    (hbounds : bounds query = some (start, stop)) {item : Item}
    (hitem : Plain digits item) :
    (start ≤ item.key ∧ item.key < stop) ↔ Answers query item := by
  obtain ⟨type, symbol, utcFirst, utcLast, index⟩ := query
  cases type with
  | sessionLog => exact absurd rfl htype
  | ibMarketData =>
      obtain ⟨rfl, rfl⟩ := Prod.mk.inj (Option.some.inj hbounds)
      cases item with
      | marketData v =>
          exact (timeKey_in_range hfirst hlast hitem.1 hitem.2).trans (by simp [Answers])
      | _ =>
          exact iff_of_false (not_in_timeKey_range (by decide) (by decide) (by decide))
            (by simp [Answers])
  | ibMarketDepth =>
      obtain ⟨rfl, rfl⟩ := Prod.mk.inj (Option.some.inj hbounds)
      cases item with
      | marketDepth v =>
          exact (timeKey_in_range hfirst hlast hitem.1 hitem.2).trans (by simp [Answers])
      | _ =>
          exact iff_of_false (not_in_timeKey_range (by decide) (by decide) (by decide))
            (by simp [Answers])
  | indexedValue =>
      cases index with
      | none => cases hbounds
      | some index =>
          obtain ⟨rfl, rfl⟩ := Prod.mk.inj (Option.some.inj hbounds)
          cases item with
          | indexed symbol' event v =>
              exact (buildIndexKey_in_range hfirst hlast hitem.1 hitem.2.1 hitem.2.2).trans
                (by simp [Answers, eq_comm])
          | _ =>
              exact iff_of_false (not_in_buildIndexKey_range (by decide) (by decide))
                (by simp [Answers])

theorem not_answers_of_bounds_none {query : QueryBySymbol} (hbounds : bounds query = none)
    (item : Item) : ¬ Answers query item := by
  obtain ⟨type, symbol, utcFirst, utcLast, index⟩ := query
  cases type with
  | indexedValue =>
      cases index with
      | none => cases item <;> simp [Answers]
      | some index => cases hbounds
  | _ => cases hbounds

/-! ### The items visited -/

def entry (codec : Codec Record) (item : Item) : Text × Text :=
  (item.key, codec.serializeToString item.record)

def visited (item : Item) : Record := item.record.setKey item.key

theorem recordsOf_map_entry (codec : Codec Record) (items : List Item) :
    recordsOf codec (items.map (entry codec)) = items.map visited := by
  induction items with
  | nil => rfl
  | cons item items ih =>
      simp only [recordsOf] at ih
      simp [recordsOf, entry, visited, ih]

theorem serialize_injective (codec : Codec Record) :
    Function.Injective codec.serializeToString := by
  intro a b hab
  have hparse := congrArg codec.parseFromString hab
  simpa using hparse

theorem eq_of_record_eq {item item' : Item} (heq : item.record = item'.record) :
    item = item' ∨ ∃ symbol event symbol' event' v,
      item = .indexed symbol event v ∧ item' = .indexed symbol' event' v := by
  cases item <;> cases item' <;>
    simp_all [Item.record, Record.wrapMarketData, Record.wrapMarketDepth,
      Record.wrapSessionLog, Record.wrapIndexedValue]

theorem entry_inj {codec : Codec Record} {digits : Nat} {item item' : Item}
    (hitem : Plain digits item) (heq : entry codec item = entry codec item') :
    item = item' := by
  obtain ⟨hkey, hvalue⟩ := Prod.mk.inj heq
  rcases eq_of_record_eq (serialize_injective codec hvalue) with
    hsame | ⟨symbol, event, symbol', event', v, rfl, rfl⟩
  · exact hsame
  · obtain ⟨rfl, rfl, -⟩ := (buildIndexKey_eq_iff hitem.1 hitem.2.1).mp hkey
    rfl

theorem exists_items {codec : Codec Record} {P : Item → Prop} {entries : List (Text × Text)}
    (hentries : ∀ e ∈ entries, ∃ item, P item ∧ e = entry codec item) :
    ∃ items : List Item, (∀ item ∈ items, P item) ∧ entries = items.map (entry codec) := by
  induction entries with
  | nil => exact ⟨[], by simp, rfl⟩
  | cons e es ih =>
      obtain ⟨item, hitem, rfl⟩ := hentries e List.mem_cons_self
      obtain ⟨items, hitems, rfl⟩ := ih fun f hf => hentries f (List.mem_cons_of_mem _ hf)
      refine ⟨item :: items, fun i hi => ?_, rfl⟩
      rcases List.mem_cons.mp hi with rfl | hi
      · exact hitem
      · exact hitems i hi

/-- Keys of items that answer one query are in the order of their times. -/
theorem time_lt_of_key_lt {digits : Nat} {query : QueryBySymbol} {item item' : Item}
    (hitem : Plain digits item) (hitem' : Plain digits item')
    (hanswer : Answers query item) (hanswer' : Answers query item')
    (hlt : item.key < item'.key) : time item < time item' := by
  have hdecimal : ∀ {t t' : UInt64}, (decimal t.toNat).length = digits →
      (decimal t'.toNat).length = digits → decimal t.toNat < decimal t'.toNat → t < t' :=
    fun ht ht' h => (Text.decimal_lt_iff (ht.trans ht'.symm)).mp h
  cases item with
  | marketData v =>
      cases item' with
      | marketData v' =>
          rw [Item.key, Item.key, hanswer.2.1, hanswer'.2.1] at hlt
          exact hdecimal hitem.2 hitem'.2 ((timeKey_lt_iff_decimal _ _ _ _).mp hlt)
      | sessionLog v' => exact hanswer'.elim
      | _ => exact absurd (hanswer.1.symm.trans hanswer'.1) (by decide)
  | marketDepth v =>
      cases item' with
      | marketDepth v' =>
          rw [Item.key, Item.key, hanswer.2.1, hanswer'.2.1] at hlt
          exact hdecimal hitem.2 hitem'.2 ((timeKey_lt_iff_decimal _ _ _ _).mp hlt)
      | sessionLog v' => exact hanswer'.elim
      | _ => exact absurd (hanswer.1.symm.trans hanswer'.1) (by decide)
  | sessionLog v => exact hanswer.elim
  | indexed symbol event v =>
      cases item' with
      | indexed symbol' event' v' =>
          obtain ⟨-, rfl, hindex, -⟩ := hanswer
          obtain ⟨-, rfl, hindex', -⟩ := hanswer'
          obtain rfl : event = event' := Option.some.inj (hindex.symm.trans hindex')
          exact hdecimal hitem.2.2 hitem'.2.2
            ((buildIndexKey_lt_iff_decimal _ _ _ _).mp hlt)
      | sessionLog v' => exact hanswer'.elim
      | _ => exact absurd (hanswer.1.symm.trans hanswer'.1) (by decide)

theorem plain_of_present {codec : Codec Record} {digits : Nat} {levelDb : LevelDb}
    (hall : AllItems codec (Plain digits) levelDb) {item : Item}
    (hpresent : Present codec levelDb item) : Plain digits item := by
  obtain ⟨item', hitem', hkey, hvalue⟩ := hall _ _ hpresent
  have heq : entry codec item' = entry codec item := Prod.ext hkey.symm hvalue.symm
  exact entry_inj hitem' heq ▸ hitem'

/-- After any writes of records whose texts have no colon and whose times have
one number of digits, a query for market data, market depth or an indexed value
shows a visitor that never stops exactly the records present that answer it,
each once and in the order of their times. -/
theorem query_visits_answers (codec : Codec Record) {calls : List WriteCall} {digits : Nat}
    (hcalls : ∀ call ∈ calls, ∀ message ∈ call.value, PlainMessage digits message)
    {q : QueryBySymbol} (htype : q.type ≠ .sessionLog)
    (hfirst : (decimal q.getFirst.toNat).length = digits)
    (hlast : (decimal q.getLast.toNat).length = digits) :
    ∃ items : List Item,
      (∀ item, item ∈ items ↔ Present codec (run codec calls) item ∧ Answers q item) ∧
      items.Pairwise (fun a b => time a < time b) ∧
      ∀ (σ : Type) (visit : Visitor σ) (s : σ), Continues visit →
        query codec visit (run codec calls) q s =
          (items.length, (items.map visited).foldl (fun s record => (visit s record).1) s) := by
  have hall : AllItems codec (Plain digits) (run codec calls) :=
    allItems_run codec fun call hcall message hmessage =>
      plain_of_plainMessage (hcalls call hcall message hmessage)
  cases hbounds : bounds q with
  | none =>
      refine ⟨[], fun item => ?_, .nil, fun σ visit s _ => ?_⟩
      · simpa using fun _ => not_answers_of_bounds_none hbounds item
      · rw [query, hbounds]
        rfl
  | some range =>
      obtain ⟨start, stop⟩ := range
      obtain ⟨items, hitems, hrange⟩ :
          ∃ items : List Item, (∀ item ∈ items, Plain digits item) ∧
            (run codec calls).range start stop = items.map (entry codec) := by
        apply exists_items
        intro e he
        obtain ⟨item, hitem, hkey, hvalue⟩ :=
          hall e.1 e.2 (OrderedMap.mem_range_iff.mp he).1
        exact ⟨item, hitem, Prod.ext hkey hvalue⟩
      have hmem : ∀ item, item ∈ items ↔
          Present codec (run codec calls) item ∧ Answers q item := by
        intro item
        constructor
        · intro hin
          have hentry : entry codec item ∈ (run codec calls).range start stop :=
            hrange ▸ List.mem_map_of_mem hin
          obtain ⟨hpresent, hkeys⟩ := OrderedMap.mem_range_iff.mp hentry
          exact ⟨hpresent, (in_range_iff_answers hfirst hlast htype hbounds
            (hitems item hin)).mp hkeys⟩
        · rintro ⟨hpresent, hanswer⟩
          have hplain := plain_of_present hall hpresent
          have hentry : entry codec item ∈ (run codec calls).range start stop :=
            OrderedMap.mem_range_iff.mpr ⟨hpresent, (in_range_iff_answers hfirst hlast htype
              hbounds hplain).mpr hanswer⟩
          rw [hrange, List.mem_map] at hentry
          obtain ⟨item', hin, heq⟩ := hentry
          exact entry_inj (hitems item' hin) heq ▸ hin
      refine ⟨items, hmem, ?_, fun σ visit s hvisit => ?_⟩
      · have hsorted := (run codec calls).sorted_range start stop
        rw [hrange, List.pairwise_map] at hsorted
        apply hsorted.imp_of_mem
        intro a b ha hb hlt
        exact time_lt_of_key_lt (hitems a ha) (hitems b hb) ((hmem a).mp ha).2
          ((hmem b).mp hb).2 hlt
      · rw [query, hbounds]
        change queryLoop codec visit stop _ 0 s = _
        have hrange' : OrderedMap.below stop ((run codec calls).seek start) =
            items.map (entry codec) := hrange
        rw [queryLoop_of_continues codec hvisit, hrange', recordsOf_map_entry,
          List.length_map, Nat.zero_add]

def mixedCalls : List WriteCall :=
  [{ value := some (.marketData ⟨15, ['A'], ['A', 'S', 'K'], .ofInt 1, 7⟩) },
    { value := some (.marketData ⟨12, ['A'], ['B', 'I', 'D'], .ofInt 2, 7⟩) },
    { value := some (.marketData ⟨13, ['A', 'B'], ['B', 'I', 'D'], .ofInt 3, 8⟩) },
    { value := some (.marketDepth ⟨14, ['A'], .ask, ⟨0⟩, 1, .insert, 0, none, 7⟩) },
    { value := some (.sessionLog ⟨['A'], 10, 20, []⟩) },
    { value := none }]

theorem query_mixedCalls :
    ∃ items : List Item,
      (∀ item, item ∈ items ↔ Present RecordWire.recordCodec
          (run RecordWire.recordCodec mixedCalls) item ∧
        Answers ⟨.indexedValue, ['A'], some 12, some 15, some ['B', 'I', 'D']⟩ item) ∧
      query RecordWire.recordCodec (fun s record => (s ++ [record.type], true))
          (run RecordWire.recordCodec mixedCalls)
          ⟨.indexedValue, ['A'], some 12, some 15, some ['B', 'I', 'D']⟩ [] =
        (items.length, ((items.map visited).foldl (fun s record => s ++ [record.type]) [])) := by
  obtain ⟨items, hitems, -, hvisits⟩ :=
    @query_visits_answers RecordWire.recordCodec mixedCalls 2 (by decide)
      ⟨.indexedValue, ['A'], some 12, some 15, some ['B', 'I', 'D']⟩ (by decide)
      (by decide) (by decide)
  exact ⟨items, hitems, hvisits _ _ [] fun _ _ => rfl⟩

example :
    query RecordWire.recordCodec (fun s record => (s ++ [record.type], true))
        (run RecordWire.recordCodec mixedCalls)
        ⟨.indexedValue, ['A'], some 12, some 15, some ['B', 'I', 'D']⟩ [] =
      (1, [.indexedValue]) := by
  decide +kernel

end Atp.HistorianQuery

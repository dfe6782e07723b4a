import Atp.LoggedTicks
import Atp.TickerCode
import Mathlib.Data.List.ReduceOption

/-!
The loader of the historian, which reads market depth back from the lines that the
event wrapper has logged, and the messages that are published live for the same
callbacks.
-/

namespace Atp.HistorianLoader

open LogRecord Replay

/-! ### The C library -/

/-- `strtoll` to the base ten: the number at the front of a text, or the nearest one
that a `long long` has. -/
def strtoll (s : Text) : Int64 :=
  let (negative, s) := LexicalCast.takeSign (s.dropWhile isSpace)
  let v := LexicalCast.signed negative (Nat.ofDigitChars 10 (s.takeWhile Char.isDigit) 0)
  Int64.ofInt (max (-9223372036854775808) (min v 9223372036854775807))

def atol (s : Text) : Int64 := strtoll s

def atoi (s : Text) : Int32 := (strtoll s).toInt32

/-- The exponent at the front of a text, if there is one. -/
def exponentPrefix : Text → Int
  | [] => 0
  | c :: s =>
      if c = 'e' ∨ c = 'E' then
        let (negative, s) := LexicalCast.takeSign s
        LexicalCast.signed negative (Nat.ofDigitChars 10 (s.takeWhile Char.isDigit) 0)
      else 0

/-- `atof` of a decimal numeral. -/
def atof (s : Text) : Double :=
  let (negative, s) := LexicalCast.takeSign (s.dropWhile isSpace)
  if (s.take 3).map Char.toLower = ['i', 'n', 'f'] then Double.infinity negative
  else if (s.take 3).map Char.toLower = ['n', 'a', 'n'] then Double.nan negative
  else
    let (whole, s) := s.span Char.isDigit
    let (frac, s) := LexicalCast.takeFraction s
    if whole ++ frac = [] then ⟨0⟩
    else
      match LexicalCast.ofDecimal negative (Nat.ofDigitChars 10 (whole ++ frac) 0)
          (exponentPrefix s - frac.length) with
      | .ok x => x
      | .error _ => Double.infinity negative

/-! ### The loader -/

/-- The fields of a `MarketDepth` as a converter sets them. -/
structure Depth where
  timestamp : UInt64
  symbol : Text
  contractId : UInt64
  side : Option DepthSide
  operation : Option DepthOperation
  level : UInt32
  price : Double
  size : UInt64
  mm : Text
deriving DecidableEq

/-- The numbers of `MarketDepth_Side`. -/
def sideNumber : DepthSide → Int32
  | .ask => 0
  | .bid => 1

/-- The numbers of `MarketDepth_Operation`. -/
def operationNumber : DepthOperation → Int32
  | .insert => 0
  | .update => 1
  | .delete => 2

/-- `GetSymbol`.  What it registers for an id without a symbol is what it returns. -/
def getSymbol (tickerIdSymbolMap : AList fun _ : Int64 => Text) (code : Int64) : Text :=
  match tickerIdSymbolMap.lookup code with
  | some symbol => symbol
  | none => TickerCode.symbolFromTickerId code.toInt32.toInt ++ ".STK".toList

/-- `GetField`, where it returns true. -/
def getField {α : Type} (convert : Text → α) (nv : LogRecord) (key : Text) : Option α :=
  (find nv key).map convert

def loadedSide (parsedSide : Int32) : Option DepthSide :=
  if parsedSide = sideNumber .ask then some .ask
  else if parsedSide = sideNumber .bid then some .bid
  else none

def loadedOperation (parsedOperation : Int32) : Option DepthOperation :=
  if parsedOperation = operationNumber .insert then some .insert
  else if parsedOperation = operationNumber .delete then some .delete
  else if parsedOperation = operationNumber .update then some .update
  else none

def checkEvent (event : LogRecord) : Bool :=
  match find event "event".toList with
  | some name => ["tickPrice".toList, "tickSize".toList, "tickGeneric".toList].contains name
  | none => false

def checkBookEvent (event : LogRecord) : Bool :=
  match find event "event".toList with
  | some name => name = "updateMktDepth".toList ∨ name = "updateMktDepthL2".toList
  | none => false

/-- `Convert` to a `MarketDepth`, where it returns true. -/
def convert (tickerIdSymbolMap : AList fun _ : Int64 => Text) (nv : LogRecord) :
    Option Depth := do
  let ts ← getField (fun value => (strtoll value).toUInt64) nv "ts_utc".toList
  let code ← getField atol nv "id".toList
  let parsedSide ← getField atoi nv "side".toList
  let parsedOperation ← getField atoi nv "operation".toList
  let parsedLevel ← getField atoi nv "position".toList
  let parsedPrice ← getField atof nv "price".toList
  let parsedSize ← getField atoi nv "size".toList
  -- `set_mm("L1")`, where there is no market maker, is undone by the next `set_mm`.
  let parsedMm := (getField id nv "marketMaker".toList).getD []
  some {
    timestamp := ts
    symbol := getSymbol tickerIdSymbolMap code
    contractId := code.toUInt64
    side := loadedSide parsedSide
    operation := loadedOperation parsedOperation
    level := parsedLevel.toUInt32
    price := parsedPrice
    size := parsedSize.toInt64.toUInt64
    mm := parsedMm }

/-- The market depth of one token of the log. -/
def loadToken (tickerIdSymbolMap : AList fun _ : Int64 => Text) (line : Text) :
    Except FieldSplit.Failure (Option Depth) := do
  if ',' ∈ line then
    let nv ← lineToRecord '=' ',' line
    if checkEvent nv then .ok none
    else if checkBookEvent nv then .ok (convert tickerIdSymbolMap nv)
    else .ok none
  else .ok none

/-- A token that cannot be split ends the program. -/
def load (tickerIdSymbolMap : AList fun _ : Int64 => Text) (text : Text) :
    Except FieldSplit.Failure (List Depth) :=
  List.reduceOption <$> (tokens text).mapM (loadToken tickerIdSymbolMap)

/-! ### The event wrapper -/

/-- `updateMktDepth`, or `updateMktDepthL2` with a market maker. -/
structure DepthCallback where
  id : Int64
  position : Int32
  marketMaker : Option Text
  operation : Int32
  side : Int32
  price : Double
  size : Int32

/-- `__func__`. -/
def DepthCallback.method (c : DepthCallback) : Text :=
  match c.marketMaker with
  | none => "updateMktDepth".toList
  | some _ => "updateMktDepthL2".toList

def publishedSide (side : Int32) : Option DepthSide :=
  if side = 0 then some .ask else if side = 1 then some .bid else none

def publishedOperation (operation : Int32) : Option DepthOperation :=
  if operation = 0 then some .insert
  else if operation = 1 then some .update
  else if operation = 2 then some .delete
  else none

/-- `publishDepth`; nothing for an id that is not registered. -/
def publishDepth (m : TickerMap) (micros : UInt64) (c : DepthCallback) : Option Depth :=
  (m.getSubscriptionKeyFromId c.id).map fun topic => {
    timestamp := micros
    symbol := topic
    contractId := c.id.toUInt64
    side := publishedSide c.side
    operation := publishedOperation c.operation
    level := c.position.toUInt32
    price := c.price
    size := c.size.toInt64.toUInt64
    mm := c.marketMaker.getD "L1".toList }

/-- A callback, with the start of its log line and the two readings of the clock that
are made while the line is written.  The second stays in the wrapper. -/
structure DepthTick where
  header : Text
  connectionId : UInt32
  logged : UInt64
  latest : UInt64
  callback : DepthCallback

/-- `LOG_EVENT`. -/
def DepthTick.pairs (t : DepthTick) : List (Text × Text) :=
  [("cid".toList, decimal t.connectionId.toNat), ("ts_utc".toList, decimal t.logged.toNat),
    ("event".toList, t.callback.method), ("id".toList, integer t.callback.id.toInt),
    ("position".toList, integer t.callback.position.toInt)] ++
  (t.callback.marketMaker.map fun mm => ("marketMaker".toList, mm)).toList ++
  [("operation".toList, integer t.callback.operation.toInt),
    ("side".toList, integer t.callback.side.toInt), ("price".toList, t.callback.price.text),
    ("size".toList, integer t.callback.size.toInt)]

def DepthTick.line (t : DepthTick) : Text := t.header ++ ' ' :: pairsText '=' ',' t.pairs

/-- The fields that are compared. -/
structure SameDepth (d live : Depth) : Prop where
  symbol : d.symbol = live.symbol
  contractId : d.contractId = live.contractId
  timestamp : d.timestamp = live.timestamp
  side : d.side = live.side
  operation : d.operation = live.operation
  level : d.level = live.level
  size : d.size = live.size
  mm : d.mm = live.mm

/-- The loader makes one message of the line, the one that was published. -/
def LoadsAs (tickerIdSymbolMap : AList fun _ : Int64 => Text) (t : DepthTick) (live : Depth) :
    Prop :=
  ∃ d, load tickerIdSymbolMap t.line = .ok [d] ∧ SameDepth d live

/-- A callback with a market maker that is one word without commas, during which the clock
stood still, and whose id the loader knows under the key that it is registered with.  An id
that is new to the loader is to be registered with the stock that its number spells. -/
structure Recoverable (m : TickerMap) (tickerIdSymbolMap : AList fun _ : Int64 => Text)
    (t : DepthTick) : Prop where
  marketMaker : ∃ mm, t.callback.marketMaker = some mm ∧ Clean mm
  clock : min t.logged.toNat 9223372036854775807 = t.latest.toNat
  symbol : ∃ topic, m.getSubscriptionKeyFromId t.callback.id = some topic ∧
    (tickerIdSymbolMap.lookup t.callback.id = some topic ∨
      tickerIdSymbolMap.lookup t.callback.id = none ∧
        topic = TickerCode.symbolFromTickerId t.callback.id.toInt32.toInt ++ ".STK".toList)

/-! ### Numbers -/

theorem takeWhile_isDigit_decimal (n : Nat) : (decimal n).takeWhile Char.isDigit = decimal n :=
  List.takeWhile_eq_self_iff.mpr fun _ hc => Text.isDigit_of_mem_decimal hc

theorem strtoll_integer (v : Int) :
    strtoll (integer v) =
      Int64.ofInt (max (-9223372036854775808) (min v 9223372036854775807)) := by
  have hspace : (integer v).dropWhile isSpace = integer v := by
    obtain ⟨c, rest, hcons⟩ : ∃ c rest, integer v = c :: rest := by
      apply List.exists_cons_of_ne_nil
      unfold integer
      split_ifs
      · exact List.cons_ne_nil _ _
      · exact Text.decimal_ne_nil _
    have hc := (clean_integer v).2 c (by rw [hcons]; exact List.mem_cons_self)
    rw [hcons, List.dropWhile_cons_of_neg (by rw [hc]; exact Bool.false_ne_true)]
  rw [strtoll, hspace, LexicalCast.takeSign_integer]
  dsimp only
  rw [takeWhile_isDigit_decimal, decimal, Nat.ofDigitChars_ten_toDigits, LexicalCast.signed_natAbs]

theorem strtoll_toInt (v : Int64) : strtoll (integer v.toInt) = v := by
  have hlow := v.le_toInt
  have hhigh := v.toInt_lt
  rw [strtoll_integer, min_eq_left (by omega), max_eq_right (by omega), Int64.ofInt_toInt]

theorem atoi_toInt (v : Int32) : atoi (integer v.toInt) = v := by
  have hv : v.toInt = v.toInt64.toInt := (Int32.toInt_toInt64 v).symm
  rw [atoi, hv, strtoll_toInt, Int32.toInt32_toInt64]

/-- A reading of the clock as the loader reads it. -/
theorem toNat_strtoll (n : UInt64) :
    (strtoll (decimal n.toNat)).toUInt64.toNat = min n.toNat 9223372036854775807 := by
  have hinteger : decimal n.toNat = integer n.toNat := by
    rw [integer, if_neg (by omega), Int.natAbs_natCast]
  have hmin : max (-9223372036854775808 : Int) (min (n.toNat : Int) 9223372036854775807) =
      ((min n.toNat 9223372036854775807 : Nat) : Int) := by omega
  rw [hinteger, strtoll_integer, hmin, Int64.ofInt_eq_ofNat, Int64.toUInt64_ofNat',
    UInt64.toNat_ofNat', Nat.mod_eq_of_lt]
  omega

/-! ### What the loader makes of a line -/

/-- A text that the loader reads has neither commas nor white space. -/
theorem clean_of_find {line token value key : Text} {nv : LogRecord} (htoken : token ∈ tokens line)
    (hread : lineToRecord '=' ',' token = .ok nv) (hvalue : find nv key = some value) :
    Clean value := by
  obtain ⟨front, back, hsplit, -⟩ := List.lookup_eq_some_iff.mp hvalue
  have hmem : (key, value) ∈ nv := by
    rw [hsplit]
    exact List.mem_append_right front List.mem_cons_self
  constructor
  · intro hcomma
    exact (mem_and_ne_of_mem_value hread hmem hcomma).2 rfl
  · intro c hc
    exact isSpace_of_mem_tokens htoken (mem_and_ne_of_mem_value hread hmem hc).1

theorem convert_of_loadToken {symbols : AList fun _ : Int64 => Text} {token : Text} {d : Depth}
    (hload : loadToken symbols token = .ok (some d)) :
    ∃ nv, lineToRecord '=' ',' token = .ok nv ∧ convert symbols nv = some d := by
  unfold loadToken at hload
  split_ifs at hload
  · obtain ⟨nv, hread, hload⟩ := ok_of_bind hload
    split_ifs at hload
    · cases hload
    · exact ⟨nv, hread, Except.ok.inj hload⟩
    · cases hload
  · cases hload

theorem clean_of_mem_load {symbols : AList fun _ : Int64 => Text} {line : Text}
    {ds : List Depth} (hload : load symbols line = .ok ds) {d : Depth} (hd : d ∈ ds) :
    Clean d.mm := by
  rw [load] at hload
  cases htokens : (tokens line).mapM (loadToken symbols) with
  | error e =>
      rw [htokens] at hload
      cases hload
  | ok loaded =>
      rw [htokens] at hload
      obtain rfl : loaded.reduceOption = ds := Except.ok.inj hload
      obtain ⟨token, htoken, hd⟩ :=
        exists_of_mem_mapM htokens (List.reduceOption_mem_iff.mp hd)
      obtain ⟨nv, hread, hconvert⟩ := convert_of_loadToken hd
      simp only [convert, Option.bind_eq_bind, Option.bind_eq_some_iff] at hconvert
      obtain ⟨_, _, _, _, _, _, _, _, _, _, _, _, _, _, hmake⟩ := hconvert
      rw [← Option.some.inj hmake]
      cases hmm : find nv "marketMaker".toList with
      | none =>
          simp only [getField, hmm]
          decide
      | some mm =>
          simp only [getField, hmm]
          exact clean_of_find htoken hread hmm

theorem loadedSide_eq (side : Int32) : loadedSide side = publishedSide side := rfl

/-- The loader tries the numbers in another order. -/
theorem loadedOperation_eq (operation : Int32) :
    loadedOperation operation = publishedOperation operation := by
  unfold loadedOperation publishedOperation operationNumber
  dsimp only
  split_ifs with hinsert hdelete hupdate
  · rfl
  · rw [hdelete] at hupdate
    exact absurd hupdate (by decide)
  · rfl
  · rfl
  · rfl

/-- The message that the loader makes of a line whose market maker it can read. -/
def DepthTick.loaded (tickerIdSymbolMap : AList fun _ : Int64 => Text) (t : DepthTick) : Depth where
  timestamp := (strtoll (decimal t.logged.toNat)).toUInt64
  symbol := getSymbol tickerIdSymbolMap t.callback.id
  contractId := t.callback.id.toUInt64
  side := publishedSide t.callback.side
  operation := publishedOperation t.callback.operation
  level := t.callback.position.toUInt32
  price := atof t.callback.price.text
  size := t.callback.size.toInt64.toUInt64
  mm := t.callback.marketMaker.getD []

theorem convert_pairs (symbols : AList fun _ : Int64 => Text) (t : DepthTick) :
    convert symbols t.pairs.reverse = some (t.loaded symbols) := by
  obtain ⟨header, connectionId, logged, latest, callback⟩ := t
  obtain ⟨id, position, marketMaker, operation, side, price, size⟩ := callback
  have hread : convert symbols (DepthTick.pairs ⟨header, connectionId, logged, latest,
      ⟨id, position, marketMaker, operation, side, price, size⟩⟩).reverse = some {
        timestamp := (strtoll (decimal logged.toNat)).toUInt64
        symbol := getSymbol symbols (strtoll (integer id.toInt))
        contractId := (strtoll (integer id.toInt)).toUInt64
        side := loadedSide (atoi (integer side.toInt))
        operation := loadedOperation (atoi (integer operation.toInt))
        level := (atoi (integer position.toInt)).toUInt32
        price := atof price.text
        size := (atoi (integer size.toInt)).toInt64.toUInt64
        mm := marketMaker.getD [] } := by
    cases marketMaker <;> rfl
  rw [hread, strtoll_toInt, atoi_toInt, atoi_toInt, atoi_toInt, atoi_toInt, loadedSide_eq,
    loadedOperation_eq]
  rfl

theorem cleanPair_of_mem_pairs {t : DepthTick} (hmm : ∀ mm ∈ t.callback.marketMaker, Clean mm) :
    ∀ p ∈ t.pairs, CleanPair p := by
  have hmethod : Clean t.callback.method := by
    unfold DepthCallback.method
    split
    · decide
    · decide
  have hmarketMaker : ∀ p ∈ (t.callback.marketMaker.map fun mm =>
      ("marketMaker".toList, mm)).toList, CleanPair p := by
    intro p hp
    obtain ⟨mm, hmem, rfl⟩ := Option.mem_map.mp (Option.mem_toList.mp hp)
    exact cleanPair (by decide) (hmm mm hmem)
  unfold DepthTick.pairs
  simp only [List.forall_mem_append, List.forall_mem_cons, List.not_mem_nil, IsEmpty.forall_iff,
    implies_true, and_true]
  refine ⟨⟨⟨?_, ?_, ?_, ?_, ?_⟩, hmarketMaker⟩, ?_, ?_, ?_, ?_⟩
  · exact cleanPair (by decide) (clean_decimal _)
  · exact cleanPair (by decide) (clean_decimal _)
  · exact cleanPair (by decide) hmethod
  · exact cleanPair (by decide) (clean_integer _)
  · exact cleanPair (by decide) (clean_integer _)
  · exact cleanPair (by decide) (clean_integer _)
  · exact cleanPair (by decide) (clean_integer _)
  · exact cleanPair (by decide) (clean_text _)
  · exact cleanPair (by decide) (clean_integer _)

/-- An event of the market depth is not one of the ticks. -/
theorem checkBookEvent_pairs (t : DepthTick) :
    checkEvent t.pairs.reverse = false ∧ checkBookEvent t.pairs.reverse = true := by
  have hevent : find t.pairs.reverse "event".toList = some t.callback.method := by
    obtain ⟨header, connectionId, logged, latest, callback⟩ := t
    obtain ⟨id, position, marketMaker, operation, side, price, size⟩ := callback
    cases marketMaker <;> rfl
  have hmethod : t.callback.method = "updateMktDepth".toList ∨
      t.callback.method = "updateMktDepthL2".toList := by
    unfold DepthCallback.method
    split
    · exact .inl rfl
    · exact .inr rfl
  constructor
  · rw [checkEvent, hevent]
    rcases hmethod with h | h <;> (rw [h]; decide)
  · rw [checkBookEvent, hevent]
    exact decide_eq_true hmethod

theorem loadToken_pairsText (symbols : AList fun _ : Int64 => Text) {t : DepthTick}
    (hmm : ∀ mm ∈ t.callback.marketMaker, Clean mm) :
    loadToken symbols (pairsText '=' ',' t.pairs) = .ok (some (t.loaded symbols)) := by
  have hpairs := cleanPair_of_mem_pairs hmm
  have hcomma : ',' ∈ pairsText '=' ',' t.pairs := by
    unfold DepthTick.pairs
    rw [List.append_assoc, List.cons_append, pairsText_cons _ _ _
      (List.append_ne_nil_of_left_ne_nil (List.cons_ne_nil _ _) _)]
    exact List.mem_append_right _ List.mem_cons_self
  have hrecord : lineToRecord '=' ',' (pairsText '=' ',' t.pairs) = .ok t.pairs.reverse :=
    lineToRecord_cleanPairs (List.cons_ne_nil _ _) hpairs
  obtain ⟨htick, hbook⟩ := checkBookEvent_pairs t
  unfold loadToken
  rw [if_pos hcomma, hrecord, ok_bind, htick, hbook, if_neg Bool.false_ne_true, if_pos rfl,
    convert_pairs]

theorem mapM_loadToken_of_no_comma (symbols : AList fun _ : Int64 => Text) {words : List Text}
    (hwords : ∀ word ∈ words, ',' ∉ word) :
    ∃ loaded, words.mapM (loadToken symbols) = .ok loaded ∧ loaded.reduceOption = [] := by
  induction words with
  | nil => exact ⟨[], rfl, rfl⟩
  | cons word words ih =>
      rw [List.forall_mem_cons] at hwords
      obtain ⟨loaded, hloaded, hnone⟩ := ih hwords.2
      have hword : loadToken symbols word = .ok none := if_neg hwords.1
      refine ⟨none :: loaded, ?_, hnone⟩
      rw [List.mapM_cons, hword, ok_bind, hloaded]
      rfl

theorem load_line (symbols : AList fun _ : Int64 => Text) {t : DepthTick}
    (hheader : ',' ∉ t.header) (hmm : ∀ mm ∈ t.callback.marketMaker, Clean mm) :
    load symbols t.line = .ok [t.loaded symbols] := by
  have hskip : ∃ loaded, (tokens t.header).mapM (loadToken symbols) = .ok loaded ∧
      loaded.reduceOption = [] :=
    mapM_loadToken_of_no_comma symbols fun token htoken hcomma =>
      hheader (mem_of_mem_tokens htoken hcomma)
  have htoken : tokens (pairsText '=' ',' t.pairs) = [pairsText '=' ',' t.pairs] := by
    refine tokens_of_not_space (fun hnil => ?_) ?_
    · have hload := loadToken_pairsText symbols hmm
      rw [hnil] at hload
      cases hload
    · exact not_space_cleanPairs (cleanPair_of_mem_pairs hmm)
  obtain ⟨loaded, hskip, hnone⟩ := hskip
  rw [load, DepthTick.line, tokens_append t.header _ (by decide), htoken, List.mapM_append,
    hskip, ok_bind, List.mapM_cons, loadToken_pairsText symbols hmm, ok_bind, List.mapM_nil]
  change Except.ok (loaded ++ [some (t.loaded symbols)]).reduceOption = _
  rw [List.reduceOption_append, hnone]
  rfl

/-! ### The two messages -/

theorem getSymbol_eq_iff {symbols : AList fun _ : Int64 => Text} {code : Int64} {topic : Text} :
    getSymbol symbols code = topic ↔
      symbols.lookup code = some topic ∨
        symbols.lookup code = none ∧
          topic = TickerCode.symbolFromTickerId code.toInt32.toInt ++ ".STK".toList := by
  unfold getSymbol
  cases symbols.lookup code with
  | none => simp [eq_comm]
  | some symbol => simp

theorem loadsAs_iff (m : TickerMap) (symbols : AList fun _ : Int64 => Text) (t : DepthTick)
    {live : Depth} (hheader : ',' ∉ t.header)
    (hlive : publishDepth m t.latest t.callback = some live) :
    LoadsAs symbols t live ↔ Recoverable m symbols t := by
  obtain ⟨topic, htopic, rfl⟩ := Option.map_eq_some_iff.mp hlive
  constructor
  · rintro ⟨d, hload, hsame⟩
    have hclean : Clean d.mm := clean_of_mem_load hload (List.mem_singleton_self d)
    have hmm : ∀ mm ∈ t.callback.marketMaker, Clean mm := by
      intro mm hmem
      have hsent : d.mm = mm :=
        hsame.mm.trans (congrArg (fun o => Option.getD o "L1".toList) (Option.mem_def.mp hmem))
      exact hsent ▸ hclean
    rw [load_line symbols hheader hmm] at hload
    obtain rfl := List.singleton_inj.mp (Except.ok.inj hload)
    refine ⟨?_, ?_, ?_⟩
    · cases hmarket : t.callback.marketMaker with
      | none =>
          -- Without a market maker the loader has none, not the "L1" of the message.
          have hsent := hsame.mm
          simp only [DepthTick.loaded, hmarket] at hsent
          exact absurd hsent (by decide)
      | some mm => exact ⟨mm, rfl, hmm mm hmarket⟩
    · rw [← toNat_strtoll]
      exact congrArg UInt64.toNat hsame.timestamp
    · exact ⟨topic, htopic, getSymbol_eq_iff.mp hsame.symbol⟩
  · rintro ⟨⟨mm, hmarket, hmm⟩, hclock, topic', htopic', hsymbol⟩
    obtain rfl := Option.some.inj (htopic.symm.trans htopic')
    refine ⟨t.loaded symbols, load_line symbols hheader ?_, ?_⟩
    · intro mm' hmem
      obtain rfl := Option.some.inj (hmarket.symm.trans hmem)
      exact hmm
    · constructor
      · exact getSymbol_eq_iff.mpr hsymbol
      · rfl
      · exact UInt64.toNat_inj.mp ((toNat_strtoll t.logged).trans hclock)
      · rfl
      · rfl
      · rfl
      · rfl
      · simp only [DepthTick.loaded, hmarket, Option.getD_some]

def googleMap : AList fun _ : Int64 => Text := (∅ : AList _).insert 4391 "GOOG.STK".toList

/-- An insertion at the top of the asks, written while the clock stood still. -/
def topOfBook (marketMaker : Option Text) : DepthTick :=
  ⟨"I0716".toList, 1, 1374000000000000, 1374000000000000, ⟨4391, 0, marketMaker, 0, 0, ⟨0⟩, 200⟩⟩

def topMessage (mm : Text) : Depth :=
  ⟨1374000000000000, "GOOG.STK".toList, 4391, some .ask, some .insert, 0, ⟨0⟩, 200, mm⟩

theorem loadsAs_iff_level2 :
    LoadsAs googleMap (topOfBook (some "NSDQ".toList)) (topMessage "NSDQ".toList) ↔
      Recoverable ⟨googleMap, ∅, ∅⟩ googleMap (topOfBook (some "NSDQ".toList)) :=
  loadsAs_iff ⟨googleMap, ∅, ∅⟩ googleMap _ (by decide) rfl

/-- The market maker of `updateMktDepth` is published as "L1" and loaded as empty. -/
theorem not_loadsAs_updateMktDepth :
    publishDepth ⟨googleMap, ∅, ∅⟩ 1374000000000000 (topOfBook none).callback =
        some (topMessage "L1".toList) ∧
      ¬ LoadsAs googleMap (topOfBook none) (topMessage "L1".toList) := by
  refine ⟨rfl, ?_⟩
  rintro ⟨d, hload, hsame⟩
  rw [load_line googleMap (by decide) (fun mm hmem => by cases hmem)] at hload
  obtain rfl := List.singleton_inj.mp (Except.ok.inj hload)
  exact absurd hsame.mm (by decide)

end Atp.HistorianLoader

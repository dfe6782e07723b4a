import Atp.GatewayLog
import Atp.LoaderRun
import Atp.Rounding

/-!
What the loader makes of the lines of a gateway's log: of every message that was
published, the call for what its line has of it.
-/

namespace Atp.LoadedRecords

open EventLog GatewayLog HistorianLoader HistorianStore LogRecord LoggedActions LoaderRun Replay

/-! ### What is loaded of a message -/

/-- The time of a log line as the loader reads it. -/
def loadedTime (logged : UInt64) : UInt64 := (strtoll (decimal logged.toNat)).toUInt64

/-- The value that the loader reads of a callback.  Strings are not loaded. -/
def loadedValue : Payload → Option Value
  | .tickPrice price _ => some (.ofDouble (atof price.text))
  | .tickSize size => some (.ofInt size)
  | .tickGeneric _ => some (.ofString [])
  | .tickString _ => none

def timeOf : Live → UInt64
  | .data t _ => loadedTime t.logged
  | .depth t _ => loadedTime t.logged

/-- The message as its log line has it. -/
def loaded : Live → Option Message
  | .data t v => (loadedValue t.callback.payload).map fun value =>
      .marketData { v with timestamp := loadedTime t.logged, value := value }
  | .depth t v =>
      (Recording.initialized { v with
        timestamp := loadedTime t.logged
        price := atof t.callback.price.text
        mm := t.callback.marketMaker.getD [] }).map .marketDepth

/-- The call that is made for a message. -/
def loadedCall (flags : Flags) (p : Live) : Option WriteCall :=
  if inHours flags (timeOf p) then
    (loaded p).map fun message => ⟨some message, !flags.checkDuplicate, {}⟩
  else none

/-! ### Sizes -/

theorem toLower_of_isDigit {c : Char} (hc : c.isDigit = true) : c.toLower = c := by
  rw [Char.isDigit, Bool.and_eq_true, decide_eq_true_eq, decide_eq_true_eq] at hc
  rw [Char.toLower, dif_neg]
  rintro ⟨hupper, -⟩
  exact absurd (UInt32.le_trans hupper hc.2) (by decide)

/-- Digits do not begin as the texts of infinity and of what is not a number. -/
theorem take_digits_ne {s word : Text} (hs : ∀ c ∈ s, c.isDigit = true)
    (hword : ∃ c ∈ word, c.isDigit = false) (n : Nat) : (s.take n).map Char.toLower ≠ word := by
  rintro rfl
  obtain ⟨c, hc, hdigit⟩ := hword
  obtain ⟨d, hd, rfl⟩ := List.mem_map.mp hc
  have hd : d.isDigit = true := hs d (List.mem_of_mem_take hd)
  rw [toLower_of_isDigit hd, hd] at hdigit
  cases hdigit

theorem atof_digits {s digits : Text} {negative : Bool}
    (hs : LexicalCast.takeSign (s.dropWhile isSpace) = (negative, digits))
    (hdigits : ∀ c ∈ digits, c.isDigit = true) (hne : digits ≠ []) {x : Double}
    (hx : Double.ofRatio negative (Nat.ofDigitChars 10 digits 0) 1 = some x) : atof s = x := by
  have hspan : digits.span Char.isDigit = (digits, []) := by
    have h : (digits ++ []).span Char.isDigit = (digits, []) :=
      DoubleText.span_digits hdigits fun c hc => by cases hc
    rwa [List.append_nil] at h
  have hfraction : LexicalCast.takeFraction [] = ([], []) := rfl
  have hread : LexicalCast.ofDecimal negative (Nat.ofDigitChars 10 (digits ++ []) 0)
      (exponentPrefix [] - ([] : Text).length) = .ok x := by
    have hone : Nat.ofDigitChars 10 digits 0 * 10 ^ (0 : Int).toNat =
        Nat.ofDigitChars 10 digits 0 := Nat.mul_one _
    have hexponent : exponentPrefix [] - (([] : Text).length : Int) = 0 := rfl
    unfold LexicalCast.ofDecimal
    rw [hexponent, List.append_nil, if_pos (le_refl 0), hone, hx, Option.elim_some]
  have hinfinity : (digits.take 3).map Char.toLower ≠ ['i', 'n', 'f'] :=
    take_digits_ne hdigits ⟨'i', by decide, by decide⟩ 3
  have hnan : (digits.take 3).map Char.toLower ≠ ['n', 'a', 'n'] :=
    take_digits_ne hdigits ⟨'n', by decide, by decide⟩ 3
  have hne' : digits ++ [] ≠ [] := List.append_ne_nil_of_left_ne_nil hne []
  simp only [atof, hs, hinfinity, hnan, hspan, hfraction, hne', hread, if_false]

/-- A whole number that is represented exactly is converted to that integer. -/
theorem toInt64_of_numerator {x : Double} {n : Nat} (hn : n < 2 ^ 63)
    (hx : x.numerator = n * Double.denominator) :
    x.toInt64 = Int64.ofInt (LexicalCast.signed x.negative n) := by
  have hdiv : x.numerator / Double.denominator = n := by
    rw [hx, Nat.mul_div_cancel _ DoubleText.denominator_pos]
  have hfinite : x.isFinite = true := by
    by_contra hinfinite
    rw [Double.isFinite, decide_eq_true_eq, Nat.not_lt] at hinfinite
    have hne : x.exponent ≠ 0 := by omega
    have hpow : ∀ a b e : Nat, a + b ≤ e → 2 ^ a * 2 ^ b ≤ 2 ^ e := by
      intro a b e h
      rw [← Nat.pow_add]
      exact Nat.pow_le_pow_right Nat.two_pos h
    have hfactor : 2 ^ x.exponent ≤ (2 ^ 52 + x.fraction) * 2 ^ x.exponent :=
      Nat.le_mul_of_pos_left _ (Nat.add_pos_left (Nat.two_pow_pos 52) _)
    have hle : 2 ^ 63 * Double.denominator ≤ x.numerator := by
      rw [Double.numerator, if_neg hne, Double.denominator]
      exact Nat.le_trans (hpow 63 1075 x.exponent (by omega)) hfactor
    rw [hx] at hle
    exact absurd (Nat.le_of_mul_le_mul_right hle DoubleText.denominator_pos) (Nat.not_le.mpr hn)
  simp only [Double.toInt64, hdiv, hfinite, hn, and_self, if_true]

/-- A size comes back from its text. -/
theorem toInt64_atof_integer (size : Int32) :
    (atof (integer size.toInt)).toInt64 = size.toInt64 := by
  have hlow := size.le_toInt
  have hhigh := size.toInt_lt
  have hspace : (integer size.toInt).dropWhile isSpace = integer size.toInt := by
    rw [List.dropWhile_eq_self_iff]
    intro hpos hfirst
    rw [(clean_integer _).2 _ (List.getElem_mem hpos)] at hfirst
    cases hfirst
  have hatof : ∀ x, Double.ofRatio (decide (size.toInt < 0)) size.toInt.natAbs 1 = some x →
      atof (integer size.toInt) = x := by
    intro x hx
    apply atof_digits (by rw [hspace, LexicalCast.takeSign_integer])
      (fun _ => Text.isDigit_of_mem_decimal) (Text.decimal_ne_nil _)
    rw [decimal, Nat.ofDigitChars_ten_toDigits, hx]
  have hvalue : ∀ x : Double, x.negative = decide (size.toInt < 0) →
      x.numerator = size.toInt.natAbs * Double.denominator → x.toInt64 = size.toInt64 := by
    intro x hnegative hnumerator
    rw [toInt64_of_numerator (by omega) hnumerator, hnegative, LexicalCast.signed_natAbs,
      Int64.ofInt_int32ToInt]
  rcases Nat.eq_zero_or_pos size.toInt.natAbs with hzero | hpos
  · rw [Int.natAbs_eq_zero] at hzero
    have hx : Double.ofRatio (decide (size.toInt < 0)) size.toInt.natAbs 1 = some ⟨0⟩ := by
      rw [hzero]
      decide +kernel
    rw [hatof _ hx]
    apply hvalue
    · rw [hzero]
      decide
    · rw [hzero]
      decide +kernel
  · obtain ⟨x, hx, hnegative, hnumerator⟩ :=
      Double.exists_ofRatio (decide (size.toInt < 0)) hpos (by omega : size.toInt.natAbs < 2 ^ 53)
    rw [hatof x hx]
    exact hvalue x hnegative hnumerator

/-! ### What the loader makes of a line -/

/-- The records are read one after the other until one of them ends the program. -/
def readUnlessAborted (flags : Flags) (source : Text) (s : LoaderRun.State)
    (record : Except FieldSplit.Failure LogRecord) : LoaderRun.State :=
  if s.aborted then s else readSplit flags source s record

section

variable (flags : Flags) (source : Text)

theorem foldl_tokens (s : LoaderRun.State) (text : Text) :
    (tokens text).foldl (readLine flags source) s =
      (records text).foldl (readUnlessAborted flags source) s := by
  unfold records
  induction tokens text generalizing s with
  | nil => rfl
  | cons word words ih =>
      rw [List.foldl_cons, ih]
      by_cases hcomma : ',' ∈ word
      · rw [List.filter_cons_of_pos (by simpa using hcomma)]
        simp [readLine, readUnlessAborted, hcomma]
      · rw [List.filter_cons_of_neg (by simpa using hcomma)]
        simp [readLine, hcomma]

/-- A record that the loader reads past: no event of the market, and an action only without
the id of a ticker. -/
def Quiet (nv : LogRecord) : Prop :=
  checkEvent nv = false ∧ checkBookEvent nv = false ∧
    (checkAction nv = true → find nv "id".toList = none)

instance : DecidablePred Quiet := fun _ => inferInstanceAs (Decidable (_ ∧ _ ∧ (_ → _)))

theorem readRecord_of_quiet (s : LoaderRun.State) {nv : LogRecord} (hnv : Quiet nv) :
    readRecord flags source s nv = s := by
  obtain ⟨hevent, hbook, haction⟩ := hnv
  simp only [readRecord, readOther, hevent, hbook, Bool.false_eq_true, if_false]
  split_ifs with h
  · simp only [readAction, mapActions, getField, haction h, Option.map_none]
  · rfl

/-- A word that can be split, into a record that the loader reads past. -/
def ReadPast (record : Except FieldSplit.Failure LogRecord) : Prop :=
  ∃ nv, record = .ok nv ∧ Quiet nv

theorem foldl_of_readPast (s : LoaderRun.State)
    {records : List (Except FieldSplit.Failure LogRecord)}
    (hrecords : ∀ record ∈ records, ReadPast record) :
    records.foldl (readUnlessAborted flags source) s = s := by
  induction records with
  | nil => rfl
  | cons record records ih =>
      rw [List.forall_mem_cons] at hrecords
      obtain ⟨⟨nv, rfl, hnv⟩, hrecords⟩ := hrecords
      have hread : readUnlessAborted flags source s (.ok nv) = s := by
        unfold readUnlessAborted
        split_ifs
        · rfl
        · exact readRecord_of_quiet flags source s hnv
      rw [List.foldl_cons, hread]
      exact ih hrecords

variable {s : LoaderRun.State} {symbol : Text}

theorem registerSymbol_of_lookup {symbolMap : LogReader.SymbolMap} {code : Int64}
    (hsymbol : symbolMap.lookup code = some symbol) :
    registerSymbol symbolMap code = symbolMap := by
  rw [registerSymbol, hsymbol]

theorem getSymbol_of_lookup {symbolMap : LogReader.SymbolMap} {code : Int64}
    (hsymbol : symbolMap.lookup code = some symbol) : getSymbol symbolMap code = symbol := by
  rw [getSymbol, hsymbol]

/-- A record with the time and the id of a ticker that is known registers no symbol. -/
theorem converted_of_lookup {symbolMap : LogReader.SymbolMap} {nv : LogRecord} {name : Text}
    {tickerId : Int64} (hid : find nv name = some (integer tickerId.toInt))
    (hsymbol : symbolMap.lookup tickerId = some symbol) :
    converted symbolMap nv name = symbolMap := by
  unfold converted
  split
  · rename_i ts code hts hcode
    rw [getField, hid, Option.map_some, atol, strtoll_toInt] at hcode
    rw [← Option.some.inj hcode]
    exact registerSymbol_of_lookup hsymbol
  · rfl

theorem checkEvent_pairs (t : Tick) :
    checkEvent t.pairs.reverse = (loadedValue t.callback.payload).isSome := by
  rw [checkEvent, (find_pairs t).1]
  obtain ⟨header, connectionId, logged, latest, tickerId, field, payload⟩ := t
  cases payload <;> rfl

theorem convertMarketData_pairs {symbolMap : LogReader.SymbolMap} {t : Tick}
    (hsymbol : symbolMap.lookup t.callback.tickerId = some symbol) {value : Value}
    (hvalue : loadedValue t.callback.payload = some value) :
    convertMarketData symbolMap t.pairs.reverse = some {
      timestamp := loadedTime t.logged
      symbol := symbol
      event := t.callback.fieldName
      value := value
      contractId := t.callback.tickerId.toUInt64 } := by
  obtain ⟨hevent, htime, hid, hfield, -, -⟩ := find_pairs t
  obtain ⟨header, connectionId, logged, latest, tickerId, field, payload⟩ := t
  have hread : ∀ (method name text : Text) (type : ValueType),
      find (Tick.pairs ⟨header, connectionId, logged, latest, tickerId, field, payload⟩).reverse
        "event".toList = some method →
      events.lookup method = some (name, type) →
      find (Tick.pairs ⟨header, connectionId, logged, latest, tickerId, field, payload⟩).reverse
        name = some text →
      convertMarketData symbolMap
          (Tick.pairs ⟨header, connectionId, logged, latest, tickerId, field, payload⟩).reverse =
        some {
          timestamp := loadedTime logged
          symbol := symbol
          event := (tickTypeName field).toList
          value := typedValue type (atof text)
          contractId := tickerId.toUInt64 } := by
    intro method name text type hmethod hlookup htext
    simp only [convertMarketData, getField, htime, hid, hfield, hmethod, htext, hlookup,
      Option.map_some, Option.bind_eq_bind, Option.bind_some, id_eq, atol, strtoll_toInt,
      getSymbol_of_lookup hsymbol]
    rfl
  cases payload with
  | tickPrice price canAutoExecute =>
      obtain rfl := Option.some.inj hvalue
      exact hread _ "price".toList price.text .double hevent rfl rfl
  | tickSize size =>
      obtain rfl := Option.some.inj hvalue
      rw [hread _ "size".toList (integer size.toInt) .int hevent rfl rfl, typedValue,
        toInt64_atof_integer]
      rfl
  | tickGeneric value =>
      obtain rfl := Option.some.inj hvalue
      exact hread _ "value".toList value.text .string hevent rfl rfl
  | tickString value => cases hvalue

theorem readRecord_tick {t : Tick}
    (hsymbol : s.tickerIdSymbolMap.lookup t.callback.tickerId = some symbol) :
    readRecord flags source s t.pairs.reverse =
      match loadedValue t.callback.payload with
      | none => s
      | some value => readEvent flags source s {
          timestamp := loadedTime t.logged
          symbol := symbol
          event := t.callback.fieldName
          value := value
          contractId := t.callback.tickerId.toUInt64 } := by
  obtain ⟨hevent, -, hid, -, -, haction⟩ := find_pairs t
  cases hvalue : loadedValue t.callback.payload with
  | none =>
      have hquiet : Quiet t.pairs.reverse := by
        refine ⟨?_, ?_, ?_⟩
        · rw [checkEvent_pairs, hvalue]
          rfl
        · rw [checkBookEvent, hevent]
          obtain ⟨header, connectionId, logged, latest, tickerId, field, payload⟩ := t
          cases payload <;> rfl
        · intro h
          rw [checkAction, haction] at h
          cases h
      exact readRecord_of_quiet flags source s hquiet
  | some value =>
      have htick : checkEvent t.pairs.reverse = true := by
        rw [checkEvent_pairs, hvalue]
        rfl
      simp only [readRecord, htick, if_true, convertMarketData_pairs hsymbol hvalue,
        converted_of_lookup hid hsymbol]

theorem readRecord_depth {t : DepthTick}
    (hsymbol : s.tickerIdSymbolMap.lookup t.callback.id = some symbol) :
    readRecord flags source s t.pairs.reverse =
      readBookEvent flags source s (t.loaded s.tickerIdSymbolMap) := by
  have hid : find t.pairs.reverse "id".toList = some (integer t.callback.id.toInt) := by
    obtain ⟨header, connectionId, logged, latest, callback⟩ := t
    obtain ⟨id, position, marketMaker, operation, side, price, size⟩ := callback
    cases marketMaker <;> rfl
  obtain ⟨htick, hbook⟩ := checkBookEvent_pairs t
  simp only [readRecord, readOther, readBook, htick, hbook, Bool.false_eq_true, if_false, if_true,
    convert_pairs, converted_of_lookup hid hsymbol]

theorem readPast_returned (r : Returned) : ∀ record ∈ records r.line, ReadPast record := by
  rw [records_returned, List.forall_mem_singleton]
  exact ⟨_, rfl, rfl, rfl, fun _ => rfl⟩

/-- A call with an id, whose line is read as what was requested and nothing else. -/
structure CallReady (c : LoggedActions.Call) : Prop where
  id : c.id ≠ 0
  contract : PlainContract c.contract
  noSpace : c.NoSpace
  splits : Splits c
  ownFields : ∀ nv, lineToRecord '=' ',' (firstWord (restText c)) = .ok nv →
    find nv "action".toList = none ∧ find nv "id".toList = none ∧
      find nv "event".toList = none ∧ find nv "contract".toList = some (contractRead c)
  keepsKey : KeepsKey c
  laterWords : ∀ record ∈ records (laterText c), ReadPast record

/-- From the line of a call the symbol of its id is learnt, if the id has no other. -/
theorem foldl_call {c : LoggedActions.Call} (hc : CallReady c) (hs : s.aborted = false)
    (hknown : ∀ known, s.tickerIdSymbolMap.lookup c.id = some known →
      known = TickerMap.symbolFromContract c.contract) :
    ∃ symbolMap, (records c.line).foldl (readUnlessAborted flags source) s =
        { s with tickerIdSymbolMap := symbolMap } ∧
      symbolMap.lookup c.id = some (TickerMap.symbolFromContract c.contract) ∧
      ∀ id, id ≠ c.id → symbolMap.lookup id = s.tickerIdSymbolMap.lookup id := by
  obtain ⟨⟨rest, hrest⟩, -, contract, hcontractRead⟩ := (splits_iff c).mp hc.splits
  obtain ⟨hrestAction, hrestId, hrestEvent, hrestContract⟩ := hc.ownFields rest hrest
  have hsymbol := symbolFromContract_contractRead hc.contract hc.keepsKey hcontractRead
  have hfirst : lineToRecord '=' ',' (pairsText '=' ',' c.front ++ ',' :: firstWord (restText c)) =
      .ok (rest ++ c.front.reverse) := by
    rw [lineToRecord_front, hrest, ok_bind]
  have haction : find (rest ++ c.front.reverse) "action".toList = some c.action.name := by
    rw [find_append, hrestAction, (find_front c).1, Option.none_or]
  have hid : find (rest ++ c.front.reverse) "id".toList = some (integer c.id.toInt) := by
    rw [find_append, hrestId, (find_front c).2.1, Option.none_or]
  have hcontract : find (rest ++ c.front.reverse) "contract".toList = some (contractRead c) := by
    rw [find_append, hrestContract]
    rfl
  have hevent : find (rest ++ c.front.reverse) "event".toList = none := by
    rw [find_append, hrestEvent]
    rfl
  have hisAction : checkAction (rest ++ c.front.reverse) = true := by
    rw [checkAction, haction]
    exact List.elem_eq_true_of_mem (clean_name c.action).2
  have htick : checkEvent (rest ++ c.front.reverse) = false := by rw [checkEvent, hevent]
  have hbook : checkBookEvent (rest ++ c.front.reverse) = false := by rw [checkBookEvent, hevent]
  have hread : readUnlessAborted flags source s (.ok (rest ++ c.front.reverse)) =
      readAction s (rest ++ c.front.reverse) := by
    simp only [readUnlessAborted, hs, readSplit, readRecord, readOther, htick, hbook, hisAction,
      Bool.false_eq_true, if_false, if_true]
  rw [records_call, hfirst, List.foldl_cons, foldl_of_readPast flags source _ hc.laterWords, hread,
    readAction]
  cases hlookup : s.tickerIdSymbolMap.lookup c.id with
  | none =>
      have hmap : mapActions s.tickerIdSymbolMap (rest ++ c.front.reverse) =
          some (s.tickerIdSymbolMap.insert c.id (TickerMap.symbolFromContract c.contract)) := by
        simp only [mapActions, getField, hid, hcontract, Option.map_some, id_eq, hcontractRead,
          hsymbol, atol, strtoll_toInt, hlookup]
      rw [hmap]
      exact ⟨_, rfl, AList.lookup_insert _, fun id hne => AList.lookup_insert_ne hne⟩
  | some known =>
      obtain rfl := hknown known hlookup
      have hmap : mapActions s.tickerIdSymbolMap (rest ++ c.front.reverse) =
          some s.tickerIdSymbolMap := by
        simp only [mapActions, getField, hid, hcontract, Option.map_some, id_eq, hcontractRead,
          hsymbol, atol, strtoll_toInt, hlookup, if_true]
      rw [hmap]
      exact ⟨_, rfl, hlookup, fun id hne => rfl⟩

end

end Atp.LoadedRecords

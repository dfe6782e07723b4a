import Atp.LoggedRequests

/-!
The lines that the client socket logs for requests, read back to learn the symbols
of ids.  The string parameters of a request come before its contract, and nothing
keeps them within one token of the line.
-/

namespace Atp.LoggedActions

open LogRecord EventLog LogReader Replay

/-- The requests whose lines are read, with their parameters after the contract. -/
inductive Action where
  | reqMktData (genericTicks : Text) (snapshot : Bool)
  | reqMktDepth (numRows : Int32)
  | reqRealTimeBars (barSize : Int32) (whatToShow : Text) (useRTH : Bool)
  | reqHistoricalData (endDateTime durationStr barSizeSetting whatToShow : Text)
      (useRTH formatDate : Int32)

def boolText (b : Bool) : Text := if b then ['1'] else ['0']

namespace Action

/-- `__func__`. -/
def name : Action → Text
  | reqMktData _ _ => "reqMktData".toList
  | reqMktDepth _ => "reqMktDepth".toList
  | reqRealTimeBars _ _ _ => "reqRealTimeBars".toList
  | reqHistoricalData _ _ _ _ _ _ => "reqHistoricalData".toList

def parameters : Action → List (Text × Text)
  | reqMktData genericTicks snapshot =>
      [("genericTicks".toList, genericTicks), ("snapshot".toList, boolText snapshot)]
  | reqMktDepth numRows => [("numRows".toList, integer numRows.toInt)]
  | reqRealTimeBars barSize whatToShow useRTH =>
      [("barSize".toList, integer barSize.toInt), ("whatToShow".toList, whatToShow),
        ("useRTH".toList, boolText useRTH)]
  | reqHistoricalData endDateTime durationStr barSizeSetting whatToShow useRTH formatDate =>
      [("endDateTime".toList, endDateTime), ("durationStr".toList, durationStr),
        ("barSizeSetting".toList, barSizeSetting), ("whatToShow".toList, whatToShow),
        ("useRTH".toList, integer useRTH.toInt), ("formatDate".toList, integer formatDate.toInt)]

end Action

/-- A request, with the start of its log line, the times written there and the
address of the contract as it is printed. -/
structure Call where
  header : { header : Text // ',' ∉ header }
  connectionId : UInt32
  callStart : UInt64
  utcMicros : Int64
  id : Int64
  address : { address : Text // Clean address }
  contract : IbContract
  action : Action

namespace Call

/-- `LOG_START` and the first two fields. -/
def front (c : Call) : List (Text × Text) :=
  [("cid".toList, decimal c.connectionId.toNat), ("ts".toList, decimal c.callStart.toNat),
    ("ts_utc".toList, integer c.utcMicros.toInt), ("action".toList, c.action.name),
    ("id".toList, integer c.id.toInt), ("&contract".toList, c.address)]

def pairs (c : Call) : List (Text × Text) :=
  c.front ++ (c.action.parameters ++ [("contract".toList, contractText c.contract)])

def line (c : Call) : Text := c.header ++ ' ' :: pairsText '=' ',' c.pairs

/-- What is printed of the local symbol, to the end of the line. -/
def localText (c : Call) : Text := c.contract.localSymbol ++ ['}']

def NoSpace (c : Call) : Prop :=
  ∀ p ∈ c.action.parameters, ∀ ch ∈ p.2, isSpace ch = false

end Call

/-- Reading the line gives the id the symbol of the contract. -/
def Binds (o : Options) (s : State) (c : Call) : Prop :=
  ∃ s', (tokens c.line).foldlM (readLine o) s = .ok s' ∧
    s'.symbolMap.lookup c.id = some (TickerMap.symbolFromContract c.contract)

/-- What is printed of a contract before the local symbol. -/
def contractFront (c : IbContract) : Text := pairsText ':' ';' (contractFields c [])

/-- The text of the last field before the local symbol. -/
def lastText (c : Call) : Text := "contract".toList ++ '=' :: contractFront c.contract

def parametersText (c : Call) : Text := pairsText '=' ',' c.action.parameters

/-- The line from the parameters on. -/
def restText (c : Call) : Text := parametersText c ++ ',' :: (lastText c ++ c.localText)

/-- What is read of the local symbol with the contract. -/
def localPart (c : Call) : Text := (firstWord c.localText).takeWhile (· ≠ ',')

/-- The contract as it is read. -/
def contractRead (c : Call) : Text := contractFront c.contract ++ localPart c

/-- The later words of the line. -/
def laterText (c : Call) : Text := (restText c).dropWhile fun ch => !isSpace ch

/-- A part of the local symbol that is read as a field of the key has that field's value. -/
def KeepsKey (c : Call) : Prop :=
  ∀ nv, laterFields ':' ';' (localPart c) = .ok nv →
    ∀ name ∈ keyFields c.contract, ∀ value, find nv name = some value →
      find (contractPairs c.contract).reverse name = some value

/-- If a record has fields of a request, they are those of the call. -/
structure OwnFields (c : Call) (nv : LogRecord) : Prop where
  action : ∀ action, find nv "action".toList = some action → action ∈ actionMap
  id : ∀ id, find nv "id".toList = some id → LexicalCast.long id = .ok c.id
  contract : ∀ contract, find nv "contract".toList = some contract →
    c.NoSpace ∧ contract = contractRead c

/-- A record that is read past: no request with an id, and no event within hours. -/
structure PassedOver (o : Options) (nv : LogRecord) : Prop where
  request : isAction nv = true → find nv "id".toList = none
  event : isSupported nv = true → checkTime o nv = .ok false

/-- The free texts of a request are read neither as other fields of it nor as lines of
their own. -/
structure Unforged (o : Options) (c : Call) : Prop where
  firstWord : ∀ nv, lineToRecord '=' ',' (firstWord (restText c)) = .ok nv → OwnFields c nv
  contractFields : KeepsKey c
  laterWords : ∀ word ∈ tokens (laterText c), ',' ∈ word →
    ∀ nv, lineToRecord '=' ',' word = .ok nv → PassedOver o nv

/-- The words that are read, and the contract, can be split into fields. -/
structure Splits (c : Call) : Prop where
  words : ∀ word ∈ tokens c.line, ',' ∈ word → ∃ nv, lineToRecord '=' ',' word = .ok nv
  contract : ∃ nv, lineToRecord ':' ';' (contractRead c) = .ok nv

/-! ### The text of a call -/

theorem contractFields_text (c : IbContract) (last : Text) :
    pairsText ':' ';' (contractFields c last) = contractFront c ++ last := by
  have hpairs : contractPairs c ≠ [] := List.cons_ne_nil _ _
  rw [contractFront, contractFields, contractFields,
    pairsText_append ':' ';' hpairs (List.cons_ne_nil _ _),
    pairsText_append ':' ';' hpairs (List.cons_ne_nil _ _), pairsText_singleton,
    pairsText_singleton]
  simp only [List.append_assoc, List.cons_append, List.nil_append]

theorem parameters_ne_nil (action : Action) : action.parameters ≠ [] := by
  cases action <;> exact List.cons_ne_nil _ _

theorem front_ne_nil (c : Call) : c.front ≠ [] := by
  rw [Call.front]
  exact List.cons_ne_nil _ _

theorem lastText_eq (c : Call) :
    lastText c = "contract".toList ++ '=' :: contractFront c.contract := rfl

theorem pairsText_call (c : Call) :
    pairsText '=' ',' c.pairs =
      pairsText '=' ',' c.front ++
        ',' :: (parametersText c ++ ',' :: (lastText c ++ c.localText)) := by
  have hfront := front_ne_nil c
  have hparameters := parameters_ne_nil c.action
  have hcontract : contractText c.contract = contractFront c.contract ++ c.localText :=
    contractFields_text c.contract c.localText
  rw [Call.pairs, pairsText_append '=' ',' hfront
      (List.append_ne_nil_of_left_ne_nil hparameters _),
    pairsText_append '=' ',' hparameters (List.cons_ne_nil _ _), pairsText_singleton, hcontract,
    lastText_eq, parametersText]
  simp only [List.append_assoc, List.cons_append]

theorem clean_name (action : Action) : Clean action.name ∧ action.name ∈ actionMap := by
  have hnames : ∀ name ∈ actionMap, Clean name := by decide
  have hmem : action.name ∈ actionMap := by
    cases action with
    | reqMktData _ _ => exact List.mem_cons_self
    | reqMktDepth _ => exact List.mem_cons_of_mem _ List.mem_cons_self
    | reqRealTimeBars _ _ _ =>
        exact List.mem_cons_of_mem _ (List.mem_cons_of_mem _ List.mem_cons_self)
    | reqHistoricalData _ _ _ _ _ _ =>
        exact List.mem_cons_of_mem _
          (List.mem_cons_of_mem _ (List.mem_cons_of_mem _ List.mem_cons_self))
  exact ⟨hnames _ hmem, hmem⟩

theorem clean_front (c : Call) : ∀ p ∈ c.front, CleanPair p := by
  simp only [Call.front, List.forall_mem_cons, List.not_mem_nil, IsEmpty.forall_iff,
    implies_true, and_true]
  exact ⟨cleanPair (by decide) (clean_decimal _), cleanPair (by decide) (clean_decimal _),
    cleanPair (by decide) (clean_integer _), cleanPair (by decide) (clean_name c.action).1,
    cleanPair (by decide) (clean_integer _), cleanPair (by decide) c.address.2⟩

theorem clean_lastText {c : Call} (hc : PlainContract c.contract) : Clean (lastText c) := by
  have hname : Clean "contract".toList := by decide
  have hfront : Clean (contractFront c.contract) := clean_contractFields hc (by decide)
  constructor
  · rw [lastText_eq, List.mem_append, List.mem_cons, not_or, not_or]
    exact ⟨hname.1, by decide, hfront.1⟩
  · rw [lastText_eq, List.forall_mem_append, List.forall_mem_cons]
    exact ⟨hname.2, by decide, hfront.2⟩

theorem not_space_front (c : Call) :
    ∀ ch ∈ pairsText '=' ',' c.front, isSpace ch = false :=
  not_space_cleanPairs (clean_front c)

theorem clean_parameterNames (action : Action) : ∀ p ∈ action.parameters, Clean p.1 := by
  cases action with
  | reqMktData _ _ =>
      simp only [Action.parameters, List.forall_mem_cons, List.not_mem_nil, IsEmpty.forall_iff,
        implies_true, and_true]
      exact ⟨by decide, by decide⟩
  | reqMktDepth _ =>
      simp only [Action.parameters, List.forall_mem_cons, List.not_mem_nil, IsEmpty.forall_iff,
        implies_true, and_true]
      decide
  | reqRealTimeBars _ _ _ =>
      simp only [Action.parameters, List.forall_mem_cons, List.not_mem_nil, IsEmpty.forall_iff,
        implies_true, and_true]
      exact ⟨by decide, by decide, by decide⟩
  | reqHistoricalData _ _ _ _ _ _ =>
      simp only [Action.parameters, List.forall_mem_cons, List.not_mem_nil, IsEmpty.forall_iff,
        implies_true, and_true]
      exact ⟨by decide, by decide, by decide, by decide, by decide, by decide⟩

theorem mem_pairsText {assign sep : Char} {pairs : List (Text × Text)} {p : Text × Text}
    (hp : p ∈ pairs) {ch : Char} (hch : ch ∈ p.2) : ch ∈ pairsText assign sep pairs := by
  induction pairs with
  | nil => cases hp
  | cons q pairs ih =>
      have hq : ∀ ch ∈ q.2, ch ∈ q.1 ++ assign :: q.2 := fun ch hch =>
        List.mem_append_right _ (List.mem_cons_of_mem _ hch)
      rcases eq_or_ne pairs [] with rfl | hne
      · obtain rfl := List.mem_singleton.mp hp
        rw [pairsText_singleton]
        exact hq ch hch
      · rw [pairsText_cons assign sep q hne]
        rcases List.mem_cons.mp hp with rfl | hp
        · exact List.mem_append_left _ (hq ch hch)
        · exact List.mem_append_right _ (List.mem_cons_of_mem _ (ih hp))

theorem not_space_parametersText_iff (c : Call) :
    (∀ ch ∈ parametersText c, isSpace ch = false) ↔ c.NoSpace := by
  have hnames := clean_parameterNames c.action
  constructor
  · intro h p hp ch hch
    exact h ch (mem_pairsText hp hch)
  · intro h
    exact forall_mem_pairsText (by decide) (by decide) fun p hp => ⟨(hnames p hp).2, h p hp⟩

/-- The words of a line: the first that is read goes on from the front of the call to the
first white space. -/
theorem tokens_call (c : Call) :
    tokens c.line = tokens c.header ++
      (pairsText '=' ',' c.front ++ ',' :: firstWord (restText c)) :: tokens (laterText c) := by
  have hfront : ∀ ch ∈ pairsText '=' ',' c.front ++ [','], isSpace ch = false :=
    List.forall_mem_append.mpr ⟨not_space_front c, List.forall_mem_singleton.mpr (by decide)⟩
  have htokens := tokens_first
    (List.append_ne_nil_of_right_ne_nil (pairsText '=' ',' c.front) (List.cons_ne_nil _ _))
    hfront (restText c)
  rw [← List.append_cons, ← List.append_cons] at htokens
  rw [Call.line, pairsText_call, tokens_append _ _ (by decide)]
  exact congrArg (tokens c.header ++ ·) htokens

/-- Without white space in the parameters, the first word goes on into the local symbol. -/
theorem firstWord_restText {c : Call} (hc : PlainContract c.contract) (hspace : c.NoSpace) :
    firstWord (restText c) = parametersText c ++ ',' :: (lastText c ++ firstWord c.localText) := by
  have hfront : ∀ ch ∈ parametersText c ++ ',' :: lastText c, isSpace ch = false := by
    rw [List.forall_mem_append, List.forall_mem_cons]
    exact ⟨(not_space_parametersText_iff c).mpr hspace, by decide, (clean_lastText hc).2⟩
  have hrest : restText c = parametersText c ++ ',' :: lastText c ++ c.localText := by
    rw [restText, List.append_assoc, List.cons_append]
  rw [hrest, firstWord, List.takeWhile_append_of_pos (by simpa using hfront), List.append_assoc,
    List.cons_append]
  rfl

/-! ### The fields of a call -/

/-- The front is read as it was written. -/
theorem lineToRecord_front (c : Call) (middle : Text) :
    lineToRecord '=' ',' (pairsText '=' ',' c.front ++ ',' :: middle) =
      lineToRecord '=' ',' middle >>= fun nv => .ok (nv ++ c.front.reverse) := by
  rw [lineToRecord_append, lineToRecord_cleanPairs (front_ne_nil c) (clean_front c), ok_bind]

/-- So is the name of the last field. -/
theorem lineToRecord_last {c : Call} (hc : PlainContract c.contract) (word : Text) :
    lineToRecord '=' ',' (lastText c ++ word) =
      laterFields '=' ',' word >>= fun nv => .ok (nv ++
        [("contract".toList, contractFront c.contract ++ word.takeWhile (· ≠ ','))]) := by
  have hcontract : ',' ∉ contractFront c.contract := (clean_contractFields hc (by decide)).1
  rw [lastText_eq, List.append_assoc, List.cons_append,
    lineToRecord_field (by decide) (by decide) (by decide) (by decide),
    laterFields_append_left hcontract, List.takeWhile_append_of_pos]
  exact fun ch hch => decide_eq_true fun hcomma => hcontract (hcomma ▸ hch)

/-- The record of the first word, without white space in the parameters. -/
theorem lineToRecord_firstWord {c : Call} (hc : PlainContract c.contract) (hspace : c.NoSpace) :
    lineToRecord '=' ',' (firstWord (restText c)) =
      lineToRecord '=' ',' (parametersText c) >>= fun parameters =>
        laterFields '=' ',' (firstWord c.localText) >>= fun later =>
          .ok (later ++ [("contract".toList, contractRead c)] ++ parameters) := by
  rw [firstWord_restText hc hspace, lineToRecord_append, lineToRecord_last hc]
  cases lineToRecord '=' ',' (parametersText c) with
  | error e => rfl
  | ok parameters => cases laterFields '=' ',' (firstWord c.localText) <;> rfl

/-- The first word then has a contract. -/
theorem exists_contract {c : Call} (hc : PlainContract c.contract) (hspace : c.NoSpace)
    {nv : LogRecord} (hread : lineToRecord '=' ',' (firstWord (restText c)) = .ok nv) :
    ∃ contract, find nv "contract".toList = some contract := by
  rw [lineToRecord_firstWord hc hspace] at hread
  obtain ⟨parameters, -, hread⟩ := ok_of_bind hread
  obtain ⟨later, -, hread⟩ := ok_of_bind hread
  rw [← Except.ok.inj hread, find_append, find_append]
  cases find later "contract".toList with
  | none => exact ⟨_, rfl⟩
  | some contract => exact ⟨contract, rfl⟩

/-- The key that is read from the contract, if the local symbol does not change its
fields. -/
theorem symbolFromContract_contractRead {c : Call} (hc : PlainContract c.contract)
    (hlater : KeepsKey c) {fields : LogRecord}
    (hread : lineToRecord ':' ';' (contractRead c) = .ok fields) :
    LogReader.symbolFromContract fields = some (TickerMap.symbolFromContract c.contract) := by
  have hpairs := clean_contractPairs hc
  have hne : contractPairs c.contract ≠ [] := List.cons_ne_nil _ _
  have hfront : lineToRecord ':' ';' (pairsText ':' ';' (contractPairs c.contract)) =
      .ok (contractPairs c.contract).reverse :=
    lineToRecord_pairsText (by decide) hne
      (fun p hp => ⟨(hpairs p hp).1.1, (hpairs p hp).1.2.1⟩) (fun p hp => (hpairs p hp).2.1)
      (short_contractPairs c.contract)
  have hname : ':' ∉ "localSymbol".toList ∧ ';' ∉ "localSymbol".toList ∧
      "localSymbol".toList.length < 2147483647 := by decide
  have hlast := lineToRecord_field (by decide : ':' ≠ ';') hname.1 hname.2.1 hname.2.2 (localPart c)
  rw [contractRead, ← contractFields_text, contractFields,
    pairsText_append ':' ';' hne (List.cons_ne_nil _ _), pairsText_singleton, lineToRecord_append,
    hfront, ok_bind, hlast] at hread
  obtain ⟨localFields, hlocal, hread⟩ := ok_of_bind hread
  obtain ⟨later, hlaterFields, hlocal⟩ := ok_of_bind hlocal
  obtain rfl := Except.ok.inj hlocal
  obtain rfl := Except.ok.inj hread
  apply symbolFromContract_of_find
  intro name hname
  have hother : find [("localSymbol".toList, (localPart c).takeWhile (· ≠ ';'))] name = none := by
    refine List.lookup_eq_none_iff.mpr ?_
    rw [List.forall_mem_singleton, bne_iff_ne]
    rintro rfl
    exact localSymbol_not_mem_keyFields c.contract hname
  rw [find_append, find_append, hother, Option.or_none]
  cases hvalue : find later name with
  | none => exact Option.none_or
  | some value =>
      rw [hlater later hlaterFields name hname value hvalue]
      rfl

/-! ### Reading the line -/

/-- The first word is read as the call, and then the later words. -/
theorem foldlM_call (o : Options) {s : State} (hdone : s.done = false) (c : Call) :
    (tokens c.line).foldlM (readLine o) s =
      recordOf '=' ',' (firstWord (restText c)) >>= fun nv =>
        readRecord o s (nv ++ c.front.reverse) >>= fun s' =>
          (tokens (laterText c)).foldlM (readLine o) s' := by
  have hskip : (tokens c.header).foldlM (readLine o) s = .ok s :=
    foldlM_of_no_comma o s fun token htoken hmem => c.header.2 (mem_of_mem_tokens htoken hmem)
  have hgoing : ¬ (s.done = true ∨
      ',' ∉ pairsText '=' ',' c.front ++ ',' :: firstWord (restText c)) := by
    rw [hdone, not_or, not_not]
    exact ⟨Bool.false_ne_true, List.mem_append_right _ List.mem_cons_self⟩
  rw [tokens_call, List.foldlM_append, hskip, ok_bind, List.foldlM_cons, readLine, if_neg hgoing,
    recordOf, lineToRecord_front, recordOf]
  cases lineToRecord '=' ',' (firstWord (restText c)) with
  | error e => rfl
  | ok nv => rfl

theorem readRecord_of_passedOver {o : Options} (s : State) {nv : LogRecord}
    (hnv : PassedOver o nv) : readRecord o s nv = .ok s := by
  have hmap : (if isAction nv = true then mapIdToSymbols s.symbolMap nv
      else Except.ok (false, s.symbolMap)) = .ok (false, s.symbolMap) := by
    split_ifs with haction
    · rw [mapIdToSymbols, hnv.request haction]
    · rfl
  rw [readRecord_eq, hmap, ok_bind]
  cases hsupported : isSupported nv with
  | false => exact if_pos (.inr rfl)
  | true =>
      refine (if_neg (by simp)).trans ?_
      rw [readEvent, hnv.event hsupported]
      rfl

/-- Words that are read past need only be split. -/
theorem foldlM_of_passedOver {o : Options} {s s' : State} (hdone : s.done = false)
    {words : List Text} (hwords : ∀ word ∈ words, ',' ∈ word →
      ∀ nv, lineToRecord '=' ',' word = .ok nv → PassedOver o nv) :
    words.foldlM (readLine o) s = .ok s' ↔
      (∀ word ∈ words, ',' ∈ word → ∃ nv, lineToRecord '=' ',' word = .ok nv) ∧ s' = s := by
  induction words with
  | nil =>
      constructor
      · intro h
        exact ⟨List.forall_mem_nil _, (Except.ok.inj h).symm⟩
      · rintro ⟨-, rfl⟩
        rfl
  | cons word words ih =>
      rw [List.forall_mem_cons] at hwords
      rw [List.foldlM_cons, List.forall_mem_cons]
      by_cases hcomma : ',' ∈ word
      · have hgoing : ¬ (s.done = true ∨ ',' ∉ word) := by simp [hdone, hcomma]
        rw [readLine, if_neg hgoing, recordOf]
        cases hread : lineToRecord '=' ',' word with
        | error e =>
            constructor
            · intro h
              cases h
            · rintro ⟨⟨h, -⟩, -⟩
              obtain ⟨nv, hnv⟩ := h hcomma
              cases hnv
        | ok nv =>
            change (readRecord o s nv >>= fun s => words.foldlM (readLine o) s) = _ ↔ _
            rw [readRecord_of_passedOver s (hwords.1 hcomma nv hread), ok_bind, ih hwords.2]
            exact ⟨fun h => ⟨⟨fun _ => ⟨nv, rfl⟩, h.1⟩, h.2⟩, fun h => ⟨h.1.2, h.2⟩⟩
      · rw [readLine, if_pos (.inr hcomma), ok_bind, ih hwords.2]
        exact ⟨fun h => ⟨⟨fun h' => absurd h' hcomma, h.1⟩, h.2⟩, fun h => ⟨h.1.2, h.2⟩⟩

/-! ### Lines that bind nothing -/

theorem symbolMap_of_deliver {s s' : State} {nv : LogRecord} (h : deliver s nv = .ok s') :
    s'.symbolMap = s.symbolMap := by
  obtain ⟨data, -, h⟩ := ok_of_bind h
  cases data with
  | some m =>
      cases h
      rfl
  | none =>
      obtain ⟨depth, -, h⟩ := ok_of_bind h
      cases depth with
      | some m =>
          cases h
          rfl
      | none =>
          cases h
          rfl

theorem symbolMap_of_scan {o : Options} {s s' : State} {nv : LogRecord}
    (h : scan o s nv = .ok s') : s'.symbolMap = s.symbolMap := by
  unfold scan at h
  dsimp only at h
  split_ifs at h
  · cases h
    rfl
  · exact (symbolMap_of_deliver h).trans rfl
  · cases h
    rfl
  · exact (symbolMap_of_deliver h).trans rfl

theorem symbolMap_of_readEvent {o : Options} {s s' : State} {nv : LogRecord}
    (h : readEvent o s nv = .ok s') : s'.symbolMap = s.symbolMap := by
  obtain ⟨inTime, -, h⟩ := ok_of_bind h
  split_ifs at h
  · obtain ⟨time, -, h⟩ := ok_of_bind h
    cases time with
    | some t =>
        dsimp only at h
        split_ifs at h
        · cases h
          rfl
        · exact (symbolMap_of_scan h).trans rfl
    | none => exact symbolMap_of_scan h
  · cases h
    rfl

theorem symbolMap_of_mapIdToSymbols {m m' : SymbolMap} {nv : LogRecord} {mapped : Bool}
    (hnv : find nv "id".toList = none ∨ find nv "contract".toList = none)
    (h : mapIdToSymbols m nv = .ok (mapped, m')) : m' = m := by
  unfold mapIdToSymbols at h
  split at h
  · cases h
    rfl
  · rename_i id hid
    obtain ⟨tickerId, -, h⟩ := ok_of_bind h
    rcases hnv with hnone | hnone
    · rw [hid] at hnone
      cases hnone
    · rw [hnone] at h
      cases h
      rfl

theorem symbolMap_of_mapped {o : Options} {s s' : State} {nv : LogRecord} {mapped : Bool}
    {m : SymbolMap}
    (h : (if mapped = true ∨ isSupported nv = false then .ok { s with symbolMap := m }
      else readEvent o { s with symbolMap := m } nv) = Except.ok s') : s'.symbolMap = m := by
  split_ifs at h
  · cases h
    rfl
  · exact (symbolMap_of_readEvent h).trans rfl

/-- A record without an action, an id or a contract gives no id a symbol. -/
theorem symbolMap_of_readRecord {o : Options} {s s' : State} {nv : LogRecord}
    (hnv : isAction nv = true → find nv "id".toList = none ∨ find nv "contract".toList = none)
    (h : readRecord o s nv = .ok s') : s'.symbolMap = s.symbolMap := by
  unfold readRecord at h
  dsimp only at h
  split_ifs at h with haction
  · obtain ⟨⟨mapped, m⟩, hmap, h⟩ := ok_of_bind h
    exact (symbolMap_of_mapped h).trans (symbolMap_of_mapIdToSymbols (hnv haction) hmap)
  · obtain ⟨⟨mapped, m⟩, hmap, h⟩ := ok_of_bind h
    cases hmap
    exact symbolMap_of_mapped h

theorem symbolMap_of_readLine {o : Options} {s s' : State} {word : Text}
    (hword : ',' ∈ word → ∀ nv, lineToRecord '=' ',' word = .ok nv → PassedOver o nv)
    (h : readLine o s word = .ok s') : s'.symbolMap = s.symbolMap := by
  unfold readLine at h
  split_ifs at h with hskip
  · cases h
    rfl
  · rw [not_or, not_not] at hskip
    cases hread : lineToRecord '=' ',' word with
    | error e =>
        rw [recordOf, hread] at h
        cases h
    | ok nv =>
        rw [recordOf_of_ok hread] at h
        exact symbolMap_of_readRecord (fun haction =>
          .inl ((hword hskip.2 nv hread).request haction)) h

theorem symbolMap_of_foldlM {o : Options} {s s' : State} {words : List Text}
    (hwords : ∀ word ∈ words, ',' ∈ word →
      ∀ nv, lineToRecord '=' ',' word = .ok nv → PassedOver o nv)
    (h : words.foldlM (readLine o) s = .ok s') : s'.symbolMap = s.symbolMap := by
  induction words generalizing s with
  | nil =>
      cases h
      rfl
  | cons word words ih =>
      rw [List.forall_mem_cons] at hwords
      rw [List.foldlM_cons] at h
      obtain ⟨s'', hread, h⟩ := ok_of_bind h
      exact (ih hwords.2 h).trans (symbolMap_of_readLine hwords.1 hread)

/-! ### Which lines bind -/

/-- The fields that the front of a call has and those that it has not. -/
theorem find_front (c : Call) :
    find c.front.reverse "action".toList = some c.action.name ∧
      find c.front.reverse "id".toList = some (integer c.id.toInt) ∧
      find c.front.reverse "contract".toList = none :=
  ⟨rfl, rfl, rfl⟩

theorem isAction_first {c : Call} {nv : LogRecord} (hown : OwnFields c nv) :
    isAction (nv ++ c.front.reverse) = true := by
  rw [isAction, find_append, (find_front c).1]
  cases haction : find nv "action".toList with
  | none => exact List.elem_eq_true_of_mem (clean_name c.action).2
  | some action => exact List.elem_eq_true_of_mem (hown.action action haction)

theorem exists_id_first {c : Call} {nv : LogRecord} (hown : OwnFields c nv) :
    ∃ id, find (nv ++ c.front.reverse) "id".toList = some id ∧ LexicalCast.long id = .ok c.id := by
  rw [find_append, (find_front c).2.1]
  cases hid : find nv "id".toList with
  | none => exact ⟨_, rfl, LexicalCast.long_integer c.id⟩
  | some id => exact ⟨id, rfl, hown.id id hid⟩

/-- The reader with the id of a call bound. -/
def bound (s : State) (c : Call) : State :=
  { s with symbolMap := s.symbolMap.insert c.id (TickerMap.symbolFromContract c.contract) }

/-- A request for an id that is new is read as far as its contract can be split. -/
theorem readRecord_of_fresh (o : Options) {s : State} {c : Call} {nv : LogRecord}
    (hfresh : s.symbolMap.lookup c.id = none) (hc : PlainContract c.contract)
    (hunforged : Unforged o c) (hown : OwnFields c nv)
    (hcontract : find nv "contract".toList = some (contractRead c)) :
    readRecord o s (nv ++ c.front.reverse) =
      recordOf ':' ';' (contractRead c) >>= fun _ => .ok (bound s c) := by
  obtain ⟨id, hid, hlong⟩ := exists_id_first hown
  have hfound : find (nv ++ c.front.reverse) "contract".toList = some (contractRead c) := by
    rw [find_append, hcontract]
    rfl
  have hmap : mapIdToSymbols s.symbolMap (nv ++ c.front.reverse) =
      recordOf ':' ';' (contractRead c) >>= fun _ =>
        .ok (true, s.symbolMap.insert c.id (TickerMap.symbolFromContract c.contract)) := by
    unfold mapIdToSymbols
    rw [hid]
    dsimp only
    rw [hlong, hfound]
    simp only [LogReader.cast, ok_bind]
    cases hread : lineToRecord ':' ';' (contractRead c) with
    | error e =>
        rw [recordOf, hread]
        rfl
    | ok fields =>
        have hsymbol := symbolFromContract_contractRead hc hunforged.contractFields hread
        simp only [recordOf_of_ok hread, ok_bind, hsymbol, hfresh]
  rw [readRecord, if_pos (isAction_first hown), hmap]
  cases recordOf ':' ';' (contractRead c) <;> rfl

/-- The words that are read are the first and the later ones. -/
theorem splits_iff (c : Call) :
    Splits c ↔
      (∃ nv, lineToRecord '=' ',' (firstWord (restText c)) = .ok nv) ∧
        (∀ word ∈ tokens (laterText c), ',' ∈ word →
          ∃ nv, lineToRecord '=' ',' word = .ok nv) ∧
        ∃ nv, lineToRecord ':' ';' (contractRead c) = .ok nv := by
  constructor
  · rintro ⟨hwords, hcontract⟩
    rw [tokens_call, List.forall_mem_append, List.forall_mem_cons] at hwords
    obtain ⟨-, hfirst, hlater⟩ := hwords
    obtain ⟨nv, hnv⟩ := hfirst (List.mem_append_right _ List.mem_cons_self)
    rw [lineToRecord_front] at hnv
    obtain ⟨rest, hrest, -⟩ := ok_of_bind hnv
    exact ⟨⟨rest, hrest⟩, hlater, hcontract⟩
  · rintro ⟨⟨nv, hnv⟩, hlater, hcontract⟩
    refine ⟨?_, hcontract⟩
    rw [tokens_call, List.forall_mem_append, List.forall_mem_cons]
    refine ⟨fun word hword hcomma => absurd (mem_of_mem_tokens hword hcomma) c.header.2,
      fun _ => ⟨nv ++ c.front.reverse, ?_⟩, hlater⟩
    rw [lineToRecord_front, hnv, ok_bind]

section

variable {o : Options} {s s' : State} {c : Call} (hdone : s.done = false)
  (hunforged : Unforged o c)

include hdone hunforged

/-- Without white space in the parameters, the line is read if and only if it is split. -/
theorem foldlM_of_noSpace (hfresh : s.symbolMap.lookup c.id = none)
    (hc : PlainContract c.contract) (hspace : c.NoSpace) :
    (tokens c.line).foldlM (readLine o) s = .ok s' ↔
      Splits c ∧ s' = bound s c := by
  rw [splits_iff, foldlM_call o hdone c]
  cases hread : lineToRecord '=' ',' (firstWord (restText c)) with
  | error e =>
      rw [recordOf, hread]
      constructor
      · intro h
        cases h
      · rintro ⟨⟨⟨nv, h⟩, -⟩, -⟩
        cases h
  | ok nv =>
      have hown := hunforged.firstWord nv hread
      obtain ⟨contract, hcontract⟩ := exists_contract hc hspace hread
      obtain ⟨-, rfl⟩ := hown.contract contract hcontract
      rw [recordOf_of_ok hread, ok_bind, readRecord_of_fresh o hfresh hc hunforged hown hcontract]
      cases hfields : lineToRecord ':' ';' (contractRead c) with
      | error e =>
          rw [recordOf, hfields]
          constructor
          · intro h
            cases h
          · rintro ⟨⟨-, -, nv, h⟩, -⟩
            cases h
      | ok fields =>
          rw [recordOf_of_ok hfields, ok_bind, ok_bind]
          have hgoing : (bound s c).done = false := hdone
          refine (foldlM_of_passedOver hgoing hunforged.laterWords).trans ?_
          exact ⟨fun h => ⟨⟨⟨nv, rfl⟩, h.1, fields, rfl⟩, h.2⟩, fun h => ⟨h.1.2.1, h.2⟩⟩

/-- White space in a parameter cuts the contract off. -/
theorem symbolMap_of_space (hspace : ¬ c.NoSpace)
    (hread : (tokens c.line).foldlM (readLine o) s = .ok s') : s'.symbolMap = s.symbolMap := by
  rw [foldlM_call o hdone c] at hread
  obtain ⟨nv, hnv, hread⟩ := ok_of_bind hread
  obtain ⟨s₁, hfirst, hlater⟩ := ok_of_bind hread
  have hcontract : find (nv ++ c.front.reverse) "contract".toList = none := by
    rw [find_append, (find_front c).2.2, Option.or_none]
    by_contra hsome
    obtain ⟨contract, hfound⟩ := Option.ne_none_iff_exists'.mp hsome
    exact hspace ((hunforged.firstWord nv (ok_of_recordOf hnv)).contract contract hfound).1
  exact (symbolMap_of_foldlM hunforged.laterWords hlater).trans
    (symbolMap_of_readRecord (fun _ => .inr hcontract) hfirst)

end

/-- A request whose free texts forge no field is read back if and only if its
parameters have no white space, and the words of its line can be split. -/
theorem binds_iff_noSpace (o : Options) (s : State) (c : Call) (hdone : s.done = false)
    (hfresh : s.symbolMap.lookup c.id = none) (hc : PlainContract c.contract)
    (hunforged : Unforged o c) : Binds o s c ↔ c.NoSpace ∧ Splits c := by
  by_cases hspace : c.NoSpace
  · constructor
    · rintro ⟨s', hread, -⟩
      exact ⟨hspace, ((foldlM_of_noSpace hdone hunforged hfresh hc hspace).mp hread).1⟩
    · rintro ⟨-, hsplits⟩
      exact ⟨_, (foldlM_of_noSpace hdone hunforged hfresh hc hspace).mpr ⟨hsplits, rfl⟩,
        AList.lookup_insert _⟩
  · constructor
    · rintro ⟨s', hread, hbound⟩
      rw [symbolMap_of_space hdone hunforged hspace hread, hfresh] at hbound
      cases hbound
    · exact fun h => absurd h.1 hspace

def aapl (localSymbol : Text) : IbContract where
  conId := 265598
  symbol := "AAPL".toList
  secType := "STK".toList
  localSymbol := localSymbol

def aaplCall (localSymbol : Text) (action : Action) : Call where
  header := ⟨"I0604".toList, by decide⟩
  connectionId := 1
  callStart := 0
  utcMicros := 0
  id := 1
  address := ⟨"0x1".toList, by decide⟩
  contract := aapl localSymbol
  action := action

theorem plainContract_aapl (localSymbol : Text) : PlainContract (aapl localSymbol) := by
  change ∀ s ∈ ["AAPL".toList, "STK".toList, [], [], [], []], Clean s ∧ ';' ∉ s
  decide

/-- Generic ticks that look like a contract, and a local symbol of several words. -/
def ticksCall : Call := aaplCall "A event B".toList (.reqMktData "100,contract=x".toList false)

def anyTime : Options := { eastern := fun _ => 0 }

theorem noSpace_ticksCall : ticksCall.NoSpace := by
  have hall : ∀ p ∈ ticksCall.action.parameters,
      (p.2.all fun ch => !isSpace ch) = true := by decide
  intro p hp ch hch
  rw [← Bool.not_eq_true']
  exact List.all_eq_true.mp (hall p hp) ch hch

theorem unforged_ticksCall : Unforged anyTime ticksCall where
  firstWord := by
    intro nv hread
    have hshort : Short '=' ',' (firstWord (restText ticksCall)) := by decide +kernel
    obtain rfl := Except.ok.inj ((lineToRecord_of_short hshort).symm.trans hread)
    have hfound : find (fields '=' ',' (firstWord (restText ticksCall))) "action".toList =
          none ∧
        find (fields '=' ',' (firstWord (restText ticksCall))) "id".toList = none ∧
        find (fields '=' ',' (firstWord (restText ticksCall))) "contract".toList =
          some (contractRead ticksCall) := by decide +kernel
    constructor
    · intro action haction
      rw [hfound.1] at haction
      cases haction
    · intro id hid
      rw [hfound.2.1] at hid
      cases hid
    · intro contract hcontract
      exact ⟨noSpace_ticksCall, Option.some.inj (hcontract.symm.trans hfound.2.2)⟩
  contractFields := by
    intro nv hread name hname value hvalue
    obtain rfl : [] = nv := Except.ok.inj hread
    cases hvalue
  laterWords := by
    have hwords : ∀ word ∈ tokens (laterText ticksCall), ',' ∉ word := by decide +kernel
    exact fun word hword hcomma => absurd hcomma (hwords word hword)

theorem binds_iff_noSpace_ticksCall :
    Binds anyTime {} ticksCall ↔ ticksCall.NoSpace ∧ Splits ticksCall :=
  binds_iff_noSpace anyTime {} ticksCall rfl rfl (plainContract_aapl _) unforged_ticksCall

/-- A request for bars up to a date and a time, which are written with a space. -/
def historicalCall : Call :=
  aaplCall ['A'] (.reqHistoricalData "20120604 10:00:00".toList ['1'] ['1'] [] 1 1)

theorem not_all_bind :
    ¬ ∀ o s c, s.done = false → s.symbolMap.lookup c.id = none → PlainContract c.contract →
      Binds o s c := by
  intro hall
  obtain ⟨s', hread, hbound⟩ := hall anyTime {} historicalCall rfl rfl (plainContract_aapl _)
  have hlookup : ((tokens historicalCall.line).foldlM (readLine anyTime) {}).toOption.map
      (fun s => s.symbolMap.lookup 1) = some none := by decide +kernel
  rw [hread] at hlookup
  exact absurd (hbound.symm.trans (Option.some.inj hlookup)) (Option.some_ne_none _)

end Atp.LoggedActions

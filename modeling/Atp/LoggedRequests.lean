import Atp.LoggedTicks

/-!
How the log reader reads the lines of the requests for market data, from which it
learns the symbols of ticker ids.
-/

namespace Atp.Replay

open LogRecord EventLog LogReader

/-! ### The text of a request -/

/-- The texts of a request stay within their fields. -/
structure RequestReady (q : Request) : Prop where
  conId : q.contract.conId ≠ 0
  header : ',' ∉ q.header ∧ ',' ∉ q.endHeader
  address : Clean q.address
  genericTicks : ∀ c ∈ q.genericTicks, c.isDigit = true ∨ c = ','
  contract : ∀ s ∈ [q.contract.symbol, q.contract.secType, q.contract.right,
    q.contract.currency, q.contract.multiplier, q.contract.expiry], Clean s ∧ ';' ∉ s
  localSymbol : ',' ∉ q.contract.localSymbol ∧ ';' ∉ q.contract.localSymbol

/-- The fields of a contract, with some text for the last. -/
def contractFields (c : IbContract) (last : Text) : List (Text × Text) :=
  contractPairs c ++ [("localSymbol".toList, last)]

/-- The texts of a contract before the last stay within their fields. -/
def PlainContract (c : IbContract) : Prop :=
  ∀ s ∈ [c.symbol, c.secType, c.right, c.currency, c.multiplier, c.expiry], Clean s ∧ ';' ∉ s

theorem clean_contractPairs {c : IbContract} (hcontract : PlainContract c) :
    ∀ p ∈ contractPairs c, (':' ∉ p.1 ∧ ';' ∉ p.1 ∧ Clean p.1) ∧ ';' ∉ p.2 ∧ Clean p.2 := by
  have hnumeral : ∀ s : Text, (∀ c ∈ s, DoubleText.IsNumeral c) → ';' ∉ s ∧ Clean s := by
    refine fun s hs => ⟨fun hmem => ?_, clean_of_isNumeral hs⟩
    exact (hs _ hmem).elim (by decide) (by decide)
  simp only [PlainContract, List.forall_mem_cons, List.not_mem_nil, IsEmpty.forall_iff,
    implies_true, and_true] at hcontract
  obtain ⟨hsymbol, hsecType, hright, hcurrency, hmultiplier, hexpiry⟩ := hcontract
  simp only [contractPairs, List.forall_mem_cons, List.not_mem_nil, IsEmpty.forall_iff,
    implies_true, and_true]
  exact ⟨⟨by decide, hnumeral _ (isNumeral_integer _)⟩, ⟨by decide, hsymbol.symm⟩,
    ⟨by decide, hsecType.symm⟩, ⟨by decide, hright.symm⟩,
    ⟨by decide, hnumeral _ (DoubleText.isNumeral_text _)⟩, ⟨by decide, hcurrency.symm⟩,
    ⟨by decide, hmultiplier.symm⟩, by decide, hexpiry.symm⟩

/-- The fields of which the key of a contract is made. -/
def keyFields (c : IbContract) : List Text :=
  if c.secType = "OPT".toList then
    ["symbol".toList, "secType".toList, "expiry".toList, "strike".toList, "right".toList]
  else ["symbol".toList, "secType".toList]

/-- A record that has the fields of the key as the contract has them gives its key. -/
theorem symbolFromContract_of_find (c : IbContract) {nv : LogRecord}
    (hnv : ∀ name ∈ keyFields c, find nv name = find (contractPairs c).reverse name) :
    LogReader.symbolFromContract nv = some (TickerMap.symbolFromContract c) := by
  unfold keyFields at hnv
  unfold LogReader.symbolFromContract TickerMap.symbolFromContract
  split_ifs at hnv ⊢ with hoption
  · simp only [List.forall_mem_cons, List.not_mem_nil, IsEmpty.forall_iff, implies_true,
      and_true] at hnv
    obtain ⟨hsymbol, hsecType, hexpiry, hstrike, hright⟩ := hnv
    simp only [hsymbol, hsecType, hexpiry, hstrike, hright]
    change (if c.secType = "OPT".toList then some (c.symbol ++ '.' :: c.secType ++
      '.' :: c.expiry ++ '.' :: c.strike.text ++ '.' :: c.right) else _) = _
    rw [if_pos hoption]
    simp only [List.append_assoc, List.cons_append]
  · simp only [List.forall_mem_cons, List.not_mem_nil, IsEmpty.forall_iff, implies_true,
      and_true] at hnv
    simp only [hnv.1, hnv.2]
    change (if c.secType = "OPT".toList then _ else some (c.symbol ++ '.' :: c.secType)) = _
    rw [if_neg hoption, List.append_nil]

/-- Names after the contract's own that are no fields of the key. -/
theorem symbolFromContract_append (c : IbContract) {nv : LogRecord}
    (hnv : ∀ name ∈ keyFields c, find nv name = none) :
    LogReader.symbolFromContract (nv ++ (contractPairs c).reverse) =
      some (TickerMap.symbolFromContract c) := by
  apply symbolFromContract_of_find
  intro name hname
  rw [find_append, hnv name hname, Option.none_or]

theorem localSymbol_not_mem_keyFields (c : IbContract) : "localSymbol".toList ∉ keyFields c := by
  unfold keyFields
  split_ifs
  · decide
  · decide

theorem symbolFromContract_contractFields (c : IbContract) (last : Text) :
    LogReader.symbolFromContract (contractFields c last).reverse =
      some (TickerMap.symbolFromContract c) := by
  rw [contractFields, List.reverse_append]
  apply symbolFromContract_append
  intro name hname
  refine List.lookup_eq_none_iff.mpr ?_
  rw [List.reverse_singleton, List.forall_mem_singleton, bne_iff_ne]
  rintro rfl
  exact localSymbol_not_mem_keyFields c hname

theorem short_contractPairs (c : IbContract) :
    ∀ p ∈ contractPairs c, p.1.length < 2147483647 := by
  simp only [contractPairs, List.forall_mem_cons, List.not_mem_nil, IsEmpty.forall_iff,
    implies_true, and_true]
  decide

theorem lineToRecord_contractFields {c : IbContract} (hcontract : PlainContract c) {last : Text}
    (hlast : ';' ∉ last) :
    lineToRecord ':' ';' (pairsText ':' ';' (contractFields c last)) =
      .ok (contractFields c last).reverse := by
  have hpairs := clean_contractPairs hcontract
  have hname : ':' ∉ "localSymbol".toList ∧ ';' ∉ "localSymbol".toList := by decide
  rw [contractFields, lineToRecord_pairsText (by decide)
    (List.append_ne_nil_of_right_ne_nil _ (List.cons_ne_nil _ _))]
  · rw [List.forall_mem_append, List.forall_mem_singleton]
    exact ⟨fun p hp => ⟨(hpairs p hp).1.1, (hpairs p hp).1.2.1⟩, hname⟩
  · rw [List.forall_mem_append, List.forall_mem_singleton]
    exact ⟨fun p hp => (hpairs p hp).2.1, hlast⟩
  · rw [List.forall_mem_append, List.forall_mem_singleton]
    exact ⟨short_contractPairs c, (by decide : "localSymbol".toList.length < 2147483647)⟩

def contractEnd (q : Request) (last : Text) : List (Text × Text) :=
  [("snapshot".toList, if q.snapshot then ['1'] else ['0']),
    ("contract".toList, pairsText ':' ';' (contractFields q.contract last))]

/-- The pairs of a request as text, with some text for the last part. -/
def requestText (q : Request) (last : Text) : Text :=
  pairsText '=' ',' (q.pairs.take 6) ++ ',' ::
    ("genericTicks=".toList ++ q.genericTicks ++ ',' :: pairsText '=' ',' (contractEnd q last))

theorem pairsText_request (q : Request) :
    pairsText '=' ',' q.pairs = requestText q (q.contract.localSymbol ++ ['}']) := by
  have hsplit : q.pairs = q.pairs.take 6 ++ (("genericTicks".toList, q.genericTicks) ::
      contractEnd q (q.contract.localSymbol ++ ['}'])) := rfl
  have hfront : q.pairs.take 6 ≠ [] := List.cons_ne_nil _ _
  rw [hsplit, pairsText_append '=' ',' hfront (List.cons_ne_nil _ _),
    pairsText_cons '=' ',' _ (by exact List.cons_ne_nil _ _)]
  rfl

theorem requestText_append (q : Request) (last : Text) :
    requestText q last = requestText q [] ++ last := by
  have hend : ∀ last, pairsText '=' ',' (contractEnd q last) =
      "snapshot=".toList ++ (if q.snapshot then ['1'] else ['0']) ++ ",contract=".toList ++
        pairsText ':' ';' (contractPairs q.contract) ++ ";localSymbol:".toList ++ last := by
    intro last
    have hpairs : contractPairs q.contract ≠ [] := List.cons_ne_nil _ _
    rw [contractEnd, pairsText_cons '=' ',' _ (List.cons_ne_nil _ _), pairsText_singleton,
      contractFields, pairsText_append ':' ';' hpairs (List.cons_ne_nil _ _),
      pairsText_singleton]
    simp only [List.append_assoc]
    rfl
  rw [requestText, requestText, hend, hend]
  simp only [List.append_assoc, List.cons_append, List.append_nil]

theorem clean_requestFront {q : Request} (hq : RequestReady q) :
    ∀ p ∈ q.pairs.take 6, CleanPair p := by
  simp only [Request.pairs, List.take, List.forall_mem_cons, List.not_mem_nil,
    IsEmpty.forall_iff, implies_true, and_true]
  exact ⟨cleanPair (by decide) (clean_decimal _), cleanPair (by decide) (clean_decimal _),
    cleanPair (by decide) (clean_integer _), cleanPair (by decide) (by decide),
    cleanPair (by decide) (clean_integer _), cleanPair (by decide) hq.address⟩

theorem clean_contractFields {c : IbContract} (hcontract : PlainContract c) {last : Text}
    (hlast : Clean last) : Clean (pairsText ':' ';' (contractFields c last)) := by
  have hpairs : ∀ p ∈ contractFields c last, Clean p.1 ∧ Clean p.2 := by
    rw [contractFields, List.forall_mem_append, List.forall_mem_singleton]
    exact ⟨fun p hp => ⟨(clean_contractPairs hcontract p hp).1.2.2,
      (clean_contractPairs hcontract p hp).2.2⟩,
      (by decide : Clean "localSymbol".toList), hlast⟩
  constructor
  · refine fun hmem => forall_mem_pairsText (P := (· ≠ ',')) (by decide) (by decide) ?_ _ hmem rfl
    intro p hp
    exact ⟨fun c hc hcomma => (hpairs p hp).1.1 (hcomma ▸ hc),
      fun c hc hcomma => (hpairs p hp).2.1 (hcomma ▸ hc)⟩
  · exact forall_mem_pairsText (by decide) (by decide) fun p hp =>
      ⟨(hpairs p hp).1.2, (hpairs p hp).2.2⟩

theorem clean_contractEnd {q : Request} (hq : RequestReady q) {last : Text}
    (hlast : Clean last) : ∀ p ∈ contractEnd q last, CleanPair p := by
  rw [contractEnd, List.forall_mem_cons, List.forall_mem_singleton]
  refine ⟨cleanPair (by decide) ?_,
    cleanPair (by decide) (clean_contractFields hq.contract hlast)⟩
  split_ifs <;> decide

theorem requestText_not_space {q : Request} (hq : RequestReady q) :
    ∀ c ∈ requestText q [], isSpace c = false := by
  have hgeneric : ∀ c ∈ q.genericTicks, isSpace c = false := by
    intro c hc
    rcases hq.genericTicks c hc with hdigit | rfl
    · have hclean : Clean [c] := clean_of_isNumeral
        (List.forall_mem_singleton.mpr (.inl hdigit : DoubleText.IsNumeral c))
      exact hclean.2 c List.mem_cons_self
    · decide
  have hname : ∀ c ∈ "genericTicks=".toList, isSpace c = false :=
    (by decide : Clean "genericTicks=".toList).2
  rw [requestText, List.forall_mem_append, List.forall_mem_cons, List.forall_mem_append,
    List.forall_mem_append, List.forall_mem_cons]
  exact ⟨not_space_cleanPairs (clean_requestFront hq), by decide, ⟨hname, hgeneric⟩, by decide,
    not_space_cleanPairs (clean_contractEnd hq (by decide))⟩

/-- The generic ticks are numbers, which are no names of other fields. -/
theorem lineToRecord_genericTicks {q : Request} (hq : RequestReady q) :
    ∃ nv, lineToRecord '=' ',' ("genericTicks".toList ++ '=' :: q.genericTicks) = .ok nv ∧
      ∀ name : Text, name ≠ "genericTicks".toList →
        (∃ c ∈ name, c.isDigit = false ∧ c ≠ ',') → find nv name = none := by
  have hassign : '=' ∉ q.genericTicks := fun hmem =>
    (hq.genericTicks '=' hmem).elim (by decide) (by decide)
  obtain ⟨nv, hlater, hnames⟩ := exists_laterFields ',' hassign
  refine ⟨_, by rw [lineToRecord_field (by decide) (by decide) (by decide) (by decide), hlater,
    ok_bind], ?_⟩
  rintro name hne ⟨c, hname, hdigit, hcomma⟩
  refine List.lookup_eq_none_iff.mpr fun p hp => ?_
  rw [bne_iff_ne]
  rintro rfl
  rcases List.mem_append.mp hp with hp | hp
  · rcases hq.genericTicks c (hnames p hp c hname) with h | h
    · rw [hdigit] at h
      cases h
    · exact hcomma h
  · rw [List.mem_singleton.mp hp] at hne
    exact hne rfl

theorem lineToRecord_requestText {q : Request} (hq : RequestReady q) {last : Text}
    (hlast : Clean last) {nv : LogRecord}
    (hgeneric : lineToRecord '=' ',' ("genericTicks".toList ++ '=' :: q.genericTicks) = .ok nv) :
    lineToRecord '=' ',' (requestText q last) =
      .ok ((contractEnd q last).reverse ++ nv ++ (q.pairs.take 6).reverse) := by
  have hfront : lineToRecord '=' ',' (pairsText '=' ',' (q.pairs.take 6)) =
      .ok (q.pairs.take 6).reverse :=
    lineToRecord_cleanPairs (List.cons_ne_nil _ _) (clean_requestFront hq)
  have hend : lineToRecord '=' ',' (pairsText '=' ',' (contractEnd q last)) =
      .ok (contractEnd q last).reverse :=
    lineToRecord_cleanPairs (List.cons_ne_nil _ _) (clean_contractEnd hq hlast)
  have hname : "genericTicks=".toList ++ q.genericTicks =
      "genericTicks".toList ++ '=' :: q.genericTicks := rfl
  rw [requestText, hname, lineToRecord_append, lineToRecord_append, hgeneric, hfront, hend]
  rfl

/-! ### What the reader learns -/

theorem exists_requestText {q : Request} (hq : RequestReady q) {last : Text}
    (hlast : Clean last) :
    ∃ nv, lineToRecord '=' ',' (requestText q last) = .ok nv ∧
      find nv "action".toList = some "reqMktData".toList ∧
      find nv "id".toList = some (integer q.contract.conId.toInt) ∧
      find nv "contract".toList = some (pairsText ':' ';' (contractFields q.contract last)) ∧
      find nv "event".toList = none := by
  obtain ⟨nv, hgeneric, hnone⟩ := lineToRecord_genericTicks hq
  refine ⟨_, lineToRecord_requestText hq hlast hgeneric, ?_⟩
  simp only [find_append]
  rw [hnone "action".toList (by decide) ⟨'o', by decide⟩,
    hnone "id".toList (by decide) ⟨'d', by decide⟩,
    hnone "contract".toList (by decide) ⟨'o', by decide⟩,
    hnone "event".toList (by decide) ⟨'v', by decide⟩]
  exact ⟨rfl, rfl, rfl, rfl⟩

theorem readRecord_of_action (o : Options) {r : State} {nv : LogRecord} {mapped : Bool}
    {symbolMap : SymbolMap} (haction : find nv "action".toList = some "reqMktData".toList)
    (hevent : find nv "event".toList = none)
    (hmap : mapIdToSymbols r.symbolMap nv = .ok (mapped, symbolMap)) :
    readRecord o r nv = .ok { r with symbolMap := symbolMap } := by
  have hisAction : isAction nv = true := by
    rw [isAction, haction]
    decide
  have hsupported : isSupported nv = false := by
    rw [isSupported, hevent]
  rw [readRecord, if_pos hisAction, hmap]
  exact if_pos (.inr hsupported)

/-- A record of a request teaches the symbol of its id, if the id has no other. -/
theorem mapIdToSymbols_request {m : SymbolMap} {nv : LogRecord} {tickerId : Int64}
    {contract symbol : Text} {fields : LogRecord}
    (hid : find nv "id".toList = some (integer tickerId.toInt))
    (hcontract : find nv "contract".toList = some contract)
    (hfields : lineToRecord ':' ';' contract = .ok fields)
    (hsymbol : LogReader.symbolFromContract fields = some symbol)
    (hknown : ∀ known, m.lookup tickerId = some known → known = symbol) :
    ∃ mapped symbolMap, mapIdToSymbols m nv = .ok (mapped, symbolMap) ∧
      symbolMap.lookup tickerId = some symbol ∧
      ∀ id, id ≠ tickerId → symbolMap.lookup id = m.lookup id := by
  unfold mapIdToSymbols
  rw [hid]
  dsimp only
  rw [LexicalCast.long_integer, hcontract]
  simp only [LogReader.cast, ok_bind, recordOf_of_ok hfields, hsymbol]
  cases hlookup : m.lookup tickerId with
  | none =>
      exact ⟨true, m.insert tickerId symbol, rfl, AList.lookup_insert _,
        fun id hne => AList.lookup_insert_ne hne⟩
  | some known =>
      obtain rfl := hknown known hlookup
      exact ⟨false, m, if_neg fun hne => hne rfl, hlookup, fun id hne => rfl⟩

theorem clean_firstWord {s : Text} (hs : ',' ∉ s) : Clean (firstWord s) := by
  refine ⟨fun hmem => hs (mem_of_mem_firstWord hmem), fun c hc => ?_⟩
  have hspace := List.mem_takeWhile_imp hc
  rwa [Bool.not_eq_true'] at hspace

theorem foldlM_request_line (o : Options) {r : State} (hr : r.done = false) {q : Request}
    (hq : RequestReady q)
    (hknown : ∀ known, r.symbolMap.lookup q.contract.conId = some known →
      known = TickerMap.symbolFromContract q.contract) :
    ∃ symbolMap, (tokens q.line).foldlM (readLine o) r = .ok { r with symbolMap := symbolMap } ∧
      symbolMap.lookup q.contract.conId = some (TickerMap.symbolFromContract q.contract) ∧
      ∀ id, id ≠ q.contract.conId → symbolMap.lookup id = r.symbolMap.lookup id := by
  have hlast : ',' ∉ q.contract.localSymbol ++ ['}'] ∧ ';' ∉ q.contract.localSymbol ++ ['}'] := by
    rw [List.mem_append, List.mem_append, not_or, not_or]
    exact ⟨⟨hq.localSymbol.1, by decide⟩, hq.localSymbol.2, by decide⟩
  have hcomma : ',' ∈ requestText q [] := List.mem_append_right _ List.mem_cons_self
  obtain ⟨nv, hread, haction, hid, hcontract, hevent⟩ :=
    exists_requestText hq (clean_firstWord hlast.1)
  have hfields := lineToRecord_contractFields hq.contract
    (fun hmem => hlast.2 (mem_of_mem_firstWord hmem))
  rw [requestText_append] at hread
  rw [Request.line, pairsText_request, requestText_append,
    foldlM_line o hr hq.header.1 hcomma (requestText_not_space hq) hlast.1 hread]
  obtain ⟨mapped, symbolMap, hmap, hlearnt⟩ :=
    mapIdToSymbols_request hid hcontract hfields (symbolFromContract_contractFields _ _) hknown
  exact ⟨symbolMap, readRecord_of_action o haction hevent hmap, hlearnt⟩

theorem foldlM_request_endLine (o : Options) {r : State} (hr : r.done = false) {q : Request}
    (hq : RequestReady q) : (tokens q.endLine).foldlM (readLine o) r = .ok r := by
  have hfront : ∀ p ∈ q.endPairs.take 3, CleanPair p := by
    simp only [Request.endPairs, List.take, List.forall_mem_cons, List.not_mem_nil,
      IsEmpty.forall_iff, implies_true, and_true]
    exact ⟨cleanPair (by decide) (clean_decimal _), cleanPair (by decide) (clean_decimal _),
      cleanPair (by decide) (by decide)⟩
  refine (foldlM_pairs o hr hq.header.2 (List.cons_ne_nil _ _) hfront "elapsed".toList
    (by decide) (clean_decimal q.elapsed.toNat).1).trans ?_
  exact readRecord_of_action o rfl rfl rfl

end Atp.Replay

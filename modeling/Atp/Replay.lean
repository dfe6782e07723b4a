import Atp.LoggedRequests
import Atp.Runs
import Mathlib.Data.List.Forall2

/-!
The market data that the log reader delivers from the log of the event wrapper,
against those that the wrapper has published.
-/

namespace Atp.Replay

open LogRecord EventLog LogReader

/-- The wrapper never refuses a request or a callback. -/
def step (s : Api) (e : EventLog.Event) : Option Api := some (s.next e)

/-- A callback comes for an id that has been requested, and within the hours that
are read. -/
def Ready (o : Options) (s : Api) : EventLog.Event → Prop
  | .request q => RequestReady q
  | .tick t => t.callback.tickerId ∈ s.requested ∧ inHours o t.logged = true ∧
      ',' ∉ t.header ∧ ArgumentReady t.callback

def replayedType : ValueType → ValueType
  | .string => .timestamp
  | type => type

/-- A delivered message against the one that was published with a callback.  Their
times are two readings of the clock. -/
structure Agrees (m : MarketData) (live : Tick × MarketData) : Prop where
  symbol : m.symbol = live.2.symbol
  contractId : m.contractId = live.2.contractId
  event : m.event = live.2.event
  type : m.value.type = replayedType live.2.value.type
  timestamp : live.1.logged = live.1.latest → m.timestamp = live.2.timestamp

def listed (s : Api) : List (Tick × MarketData) :=
  s.published.filter fun live => Listed live.1.callback

/-- What the reader `r` of the log has, compared with the wrapper. -/
structure Inv (o : Options) (s : Api) (r : State) : Prop where
  read : process o {} (fileText s.log) = .ok r
  notDone : r.done = false
  known : ∀ id symbol, r.symbolMap.lookup id = some symbol →
    s.tickerMap.getSubscriptionKeyFromId id = some symbol
  requested : ∀ id ∈ s.requested, ∃ symbol, r.symbolMap.lookup id = some symbol
  marketDepth : r.marketDepth = []
  marketData : List.Forall₂ Agrees r.marketData (listed s)

theorem process_append (o : Options) {r : State} {lines : List Text}
    (hread : process o {} (fileText lines) = .ok r) (more : List Text) :
    process o {} (fileText (lines ++ more)) = (more.flatMap tokens).foldlM (readLine o) r := by
  rw [process, tokens_fileText] at hread ⊢
  rw [List.flatMap_append, List.foldlM_append, hread]
  rfl

theorem inv_init (o : Options) : Inv o Api.init {} where
  read := rfl
  notDone := rfl
  known := fun id symbol h => by cases h
  requested := fun id h => absurd h List.not_mem_nil
  marketDepth := rfl
  marketData := .nil

theorem inv_of_request {o : Options} {s : Api} {r : State} (hinv : Inv o s r) {q : Request}
    (hq : RequestReady q) : ∃ r', Inv o (s.next (.request q)) r' := by
  have hkept := fun id symbol hlookup =>
    TickerMap.getSubscriptionKeyFromId_registerContract (hinv.known id symbol hlookup) q.contract
  unfold Api.next
  dsimp only
  split_ifs with haccepted
  · have hregistered := TickerMap.getSubscriptionKeyFromId_of_accepted hq.conId haccepted
    obtain ⟨symbolMap, hline, hlearnt, hothers⟩ := foldlM_request_line o hinv.notDone hq
      fun known hknown => Option.some.inj ((hkept _ known hknown).symm.trans hregistered)
    refine ⟨{ r with symbolMap := symbolMap }, ?_, hinv.notDone, ?_, ?_, hinv.marketDepth,
      hinv.marketData⟩
    · rw [process_append o hinv.read, List.flatMap_cons, List.flatMap_singleton,
        List.foldlM_append, hline]
      exact foldlM_request_endLine o (r := { r with symbolMap := symbolMap }) hinv.notDone hq
    · intro id symbol hlookup
      by_cases hid : id = q.contract.conId
      · rw [hid, hlearnt] at hlookup
        rw [hid, ← Option.some.inj hlookup]
        exact hregistered
      · exact hkept id symbol ((hothers id hid).symm.trans hlookup)
    · intro id hmem
      by_cases hid : id = q.contract.conId
      · exact ⟨_, hid ▸ hlearnt⟩
      · obtain ⟨symbol, hsymbol⟩ :=
          hinv.requested id ((List.mem_cons.mp hmem).resolve_left hid)
        exact ⟨symbol, (hothers id hid).trans hsymbol⟩
  · exact ⟨r, hinv.read, hinv.notDone, hkept, hinv.requested, hinv.marketDepth,
      hinv.marketData⟩

def liveMessage (t : Tick) (symbol : Text) : MarketData :=
  { timestamp := t.latest
    symbol := symbol
    event := t.callback.fieldName
    value := t.callback.value
    contractId := t.callback.tickerId.toUInt64 }

theorem listed_readTick (t : Tick) : Listed (readTick t).callback = Listed t.callback := by
  obtain ⟨header, connectionId, logged, latest, tickerId, field, payload⟩ := t
  cases payload <;> rfl

theorem agrees_readMessage {t : Tick} {symbol : Text} {value : Value}
    (hlisted : Listed t.callback = true)
    (htype : value.type = (valueField (readTick t).callback.payload).2) :
    Agrees (readMessage (readTick t) symbol value) (t, liveMessage t symbol) := by
  refine ⟨rfl, rfl, rfl, htype.trans ?_, id⟩
  obtain ⟨header, connectionId, logged, latest, tickerId, field, payload⟩ := t
  cases payload with
  | tickGeneric value => cases hlisted
  | tickPrice price canAutoExecute => rfl
  | tickSize size => rfl
  | tickString value => rfl

theorem inv_of_tick {o : Options} (ho : Unlimited o) {s : Api} {r : State} (hinv : Inv o s r)
    {t : Tick} (ht : Ready o s (.tick t)) : ∃ r', Inv o (s.next (.tick t)) r' := by
  obtain ⟨hrequested, hhours, hheader, hargument⟩ := ht
  obtain ⟨symbol, hsymbol⟩ := hinv.requested _ hrequested
  obtain ⟨r', messages, hread, hsymbolMap, hdone, hdepth, hdata, hmessages⟩ :=
    readRecord_pairs (t := readTick t) ho hsymbol hhours (argumentReady_readTick hargument)
  have hpublished : (s.next (.tick t)).published = s.published ++ [(t, liveMessage t symbol)] := by
    unfold Api.next publish
    dsimp only
    rw [hinv.known _ symbol hsymbol]
    rfl
  refine ⟨r', ?_, hdone.trans hinv.notDone, ?_, ?_, hdepth.trans hinv.marketDepth, ?_⟩
  · change process o {} (fileText (s.log ++ [t.line])) = _
    rw [process_append o hinv.read, List.flatMap_singleton,
      foldlM_tick_line o hinv.notDone hheader hargument, hread]
  · rw [hsymbolMap]
    exact hinv.known
  · rw [hsymbolMap]
    exact hinv.requested
  · rw [hdata, listed, hpublished, List.filter_append]
    refine List.rel_append hinv.marketData ?_
    rw [listed_readTick] at hmessages
    cases hlisted : Listed t.callback with
    | true =>
        rw [hlisted] at hmessages
        obtain ⟨value, htype, rfl⟩ := hmessages
        simp only [List.filter_cons, List.filter_nil, hlisted, ↓reduceIte]
        exact .cons (agrees_readMessage hlisted htype) .nil
    | false =>
        rw [hlisted] at hmessages
        obtain rfl : messages = [] := hmessages
        simp only [List.filter_cons, List.filter_nil, hlisted, ↓reduceIte, Bool.false_eq_true]
        exact .nil

theorem inv_of_run {o : Options} (ho : Unlimited o) {events : List EventLog.Event} {s : Api}
    (hready : Runs.Throughout step (Ready o) Api.init events)
    (hrun : Runs.run step Api.init events = some s) : ∃ r, Inv o s r := by
  refine Runs.inv_of_throughout step (P := fun s => ∃ r, Inv o s r) ?_ ⟨{}, inv_init o⟩ hready hrun
  rintro s e s' ⟨r, hinv⟩ he hstep
  obtain rfl := Option.some.inj hstep
  cases e with
  | request q => exact inv_of_request hinv he
  | tick t => exact inv_of_tick ho hinv he

/-- From the log of any requests and callbacks, the reader delivers the messages of
the listed callbacks, in the order in which they were published. -/
theorem replay_agrees {o : Options} (ho : Unlimited o) {events : List EventLog.Event} {s : Api}
    (hready : Runs.Throughout step (Ready o) Api.init events)
    (hrun : Runs.run step Api.init events = some s) :
    ∃ r, process o {} (fileText s.log) = .ok r ∧ r.marketDepth = [] ∧
      List.Forall₂ Agrees r.marketData (listed s) := by
  obtain ⟨r, hinv⟩ := inv_of_run ho hready hrun
  exact ⟨r, hinv.read, hinv.marketDepth, hinv.marketData⟩

/-- What a delivered message would share with the published one. -/
structure Same (m live : MarketData) : Prop where
  timestamp : m.timestamp = live.timestamp
  symbol : m.symbol = live.symbol
  contractId : m.contractId = live.contractId
  event : m.event = live.event
  type : m.value.type = live.value.type

def Replays (o : Options) (s : Api) : Prop :=
  ∃ r, process o {} (fileText s.log) = .ok r ∧
    List.Forall₂ Same r.marketData (s.published.map Prod.snd)

/-! ### One session -/

def sessionRequest : Request where
  header := "I0604 10:00:00.000000 4201 ApiImpl.cpp:431]".toList
  endHeader := "I0604 10:00:00.000100 4201 ApiImpl.cpp:439]".toList
  connectionId := 1
  callStart := 1370354400000000
  utcMicros := 1370354400000000
  elapsed := 100
  address := "0x7fff5fbfe000".toList
  contract := {
    conId := 265598
    symbol := "AAPL".toList
    secType := "STK".toList
    currency := "USD".toList
    localSymbol := "AAPL".toList }
  genericTicks := []
  snapshot := false

def sessionTick (field : TickType) (payload : Payload) : Tick where
  header := "I0604 10:00:01.000000 4202 ApiImpl.cpp:67]".toList
  connectionId := 1
  logged := 1370354401000000
  latest := 1370354401000000
  callback := ⟨265598, field, payload⟩

/-- Eastern daylight time, in which the session takes place. -/
def sessionOptions : Options where
  eastern := fun t => (t.toNat + 20 * 60 * 60 * 1000000) % (24 * 60 * 60 * 1000000)

theorem requestReady_sessionRequest : RequestReady sessionRequest where
  conId := by decide
  header := by decide
  address := by decide
  genericTicks := fun c hc => absurd hc List.not_mem_nil
  contract := by decide
  localSymbol := by decide

theorem ready_session {field : TickType} {payload : Payload}
    (hargument : ArgumentReady ⟨265598, field, payload⟩) :
    Runs.Throughout step (Ready sessionOptions) Api.init
      [.request sessionRequest, .tick (sessionTick field payload)] := by
  rw [Runs.throughout_cons]
  rintro s hs
  obtain rfl := Option.some.inj hs
  refine ⟨requestReady_sessionRequest, ?_⟩
  rw [Runs.throughout_cons]
  rintro s hs
  refine ⟨⟨?_, ?_, ?_, hargument⟩, Runs.throughout_nil step _ s⟩
  · exact List.mem_cons_self
  · exact (by decide +kernel : inHours sessionOptions 1370354401000000 = true)
  · exact (by decide : ',' ∉ "I0604 10:00:01.000000 4202 ApiImpl.cpp:67]".toList)

theorem replay_agrees_lastSize :
    ∃ r s, Runs.run step Api.init
        [.request sessionRequest, .tick (sessionTick .lastSize (.tickSize 100))] = some s ∧
      process sessionOptions {} (fileText s.log) = .ok r ∧ r.marketDepth = [] ∧
      List.Forall₂ Agrees r.marketData (listed s) := by
  have hargument : ArgumentReady ⟨265598, .lastSize, .tickSize 100⟩ := trivial
  obtain ⟨r, hr⟩ := replay_agrees ⟨rfl, rfl⟩ (ready_session hargument) rfl
  exact ⟨r, _, rfl, hr⟩

/-- A generic tick is published, and is not delivered. -/
theorem not_replays_tickGeneric :
    ¬ ∀ o events s, Unlimited o → Runs.Throughout step (Ready o) Api.init events →
      Runs.run step Api.init events = some s → Replays o s := by
  intro hall
  have hargument : ArgumentReady ⟨265598, .halted, .tickGeneric ⟨0⟩⟩ := trivial
  obtain ⟨r, hread, hsame⟩ := hall sessionOptions _ _ ⟨rfl, rfl⟩ (ready_session hargument) rfl
  obtain ⟨r', hinv⟩ := inv_of_run ⟨rfl, rfl⟩ (ready_session hargument) rfl
  obtain rfl : r' = r := Except.ok.inj (hinv.read.symm.trans hread)
  have hnone : r'.marketData = [] := List.forall₂_nil_right_iff.mp hinv.marketData
  rw [hnone] at hsame
  cases hsame

end Atp.Replay

import Atp.AdminMessages
import Atp.HistorianLoader
import Atp.LiveHistorian

/-!
The recording of market data, from the callbacks of the event wrapper to the database.
The firehose publishes what its wrapper is called with under the key of a registered
contract; a socket delivers some of these messages; the subscriber of the historian
reads them frame by frame and writes them.
-/

namespace Atp.Recording

open AdminMessages EventLog HistorianLoader HistorianQuery HistorianStore MarketDataSubscriber
  SeriesStore

/-! ### The firehose -/

/-- The message, if its required fields are set. -/
def initialized (d : Depth) : Option MarketDepth := do
  let side ← d.side
  let operation ← d.operation
  some {
    timestamp := d.timestamp
    symbol := d.symbol
    side := side
    price := d.price
    size := d.size
    operation := operation
    level := d.level
    mm := some d.mm
    contractId := d.contractId }

/-- The protobuf library.  A message without one of its required fields is serialized,
but not parsed. -/
structure Wires extends Parsers where
  serializeMarketData : MarketData → Text
  serializeMarketDepth : Depth → Text
  parse_serializeMarketData : ∀ v, parseMarketData (serializeMarketData v) = some v
  parse_serializeMarketDepth : ∀ d, parseMarketDepth (serializeMarketDepth d) = initialized d
  serializeMarketDepth_ne_nil : ∀ d, serializeMarketDepth d ≠ []

/-- What arrives at the subscriber: a message that the firehose has published, or an
admin message. -/
inductive Arrival where
  | marketData (v : MarketData)
  | marketDepth (d : Depth)
  | admin (verb : Text) (data : Option Text)
deriving DecidableEq

/-! ### The subscriber -/

/-- The handlers that the constructor of `MarketDataSubscriber` registers.  What they do
to the subscriptions decides what is delivered.  A call on the socket that zmq refuses
throws, and the handlers let that through. -/
def subscriber (id : Text) (refused : Bool) : Agent Unit where
  id := id
  adminHandlers verb :=
    if verb = "stop".toList then some fun _ _ s => (some false, s)
    else if ["connect".toList, "subscribe".toList, "unsubscribe".toList].contains verb then
      some fun _ _ s => (if refused then none else some true, s)
    else none

/-- The message that a turn of the loop passes to `process`. -/
def processed (parsers : Parsers) (t : Turn) : Option Message :=
  if isDepth (bytesOf t.frame1) then
    (parsers.parseMarketDepth (bytesOf t.frame2)).map .marketDepth
  else if isAdmin (bytesOf t.frame1) then none
  else (parsers.parseMarketData (bytesOf t.frame2)).map .marketData

/-- What `process` or the handler returns; `process` always returns true. -/
def continueProcess (id : Text) (refused : Bool) (t : Turn) : Option Bool :=
  if isDepth (bytesOf t.frame1) then some true
  else if isAdmin (bytesOf t.frame1) then
    ((subscriber id refused).handleAdminMessage (bytesOf t.frame2) (bytesOf t.frame3) ()).1
  else some true

/-- The loop is left by its own `break`, or by an exception. -/
inductive Ending where
  | stopped
  | thrown
deriving DecidableEq

def endingOf : Option Bool → Option Ending
  | some true => none
  | some false => some .stopped
  | none => some .thrown

/-! ### The system -/

/-- The ticker map of the firehose, the frames at the subscriber's socket, how its loop
has ended, if it has, and its database.  What has arrived, the calls of `Db::Write` and
whether zmq has refused a call on the socket in the last turn are noted. -/
structure State where
  tickerMap : TickerMap
  unread : List Part
  ending : Option Ending
  levelDb : LevelDb
  arrived : List Arrival
  calls : List WriteCall
  refused : Bool

def init : State := ⟨.empty, [], none, OrderedMap.empty, [], [], false⟩

/-- A registration of a contract or a callback in the firehose, whose message may be
dropped by the sockets, an admin message, or a turn of the subscriber's loop, in which
leveldb may fail and zmq refuse a call on the socket. -/
inductive Action where
  | register (contract : IbContract)
  | tick (micros : UInt64) (callback : Callback) (delivered : Bool)
  | depth (micros : UInt64) (callback : DepthCallback) (delivered : Bool)
  | admin (verb : Text) (data : Option Text)
  | turn (faults : Faults) (refused : Bool)

section

variable (wires : Wires) (records : Codec Record) (id : Text) (overwrite : Bool)

def frames : Arrival → List Text
  | .marketData v => [v.symbol, wires.serializeMarketData v]
  | .marketDepth d =>
      [HistorianKeys.entityIbMarketDepth ++ ':' :: d.symbol, wires.serializeMarketDepth d]
  | .admin verb data => adminMessage (subscriber id false) verb data

/-- All the frames of a message arrive together. -/
def arrive (s : State) (a : Arrival) : State :=
  { s with
    unread := s.unread ++ messageParts s.arrived.length (frames wires id a)
    arrived := s.arrived ++ [a] }

def deliver (s : State) (delivered : Bool) (a : Option Arrival) : State :=
  if delivered then (a.map (arrive wires id s)).getD s else s

def step (s : State) : Action → Option State
  | .register contract => some { s with tickerMap := (s.tickerMap.registerContract contract).2 }
  | .tick micros c delivered =>
      some (deliver wires id s delivered ((publish s.tickerMap micros c).map .marketData))
  | .depth micros c delivered =>
      some (deliver wires id s delivered ((publishDepth s.tickerMap micros c).map .marketDepth))
  | .admin verb data => some (arrive wires id s (.admin verb data))
  | .turn faults refused =>
      if s.ending.isSome then none
      else (turn wires.toParsers (quiet true) s.unread).map fun (t, unread) =>
        let calls := (processed wires.toParsers t).toList.map fun message =>
          ⟨some message, overwrite, faults⟩
        { s with
          unread := unread
          ending := endingOf (continueProcess id refused t)
          levelDb := calls.foldl (fun levelDb call => (write records levelDb call).2) s.levelDb
          calls := s.calls ++ calls
          refused := refused }

end

/-- The message that `process` gets of an arrival. -/
def message : Arrival → Option Message
  | .marketData v => some (.marketData v)
  | .marketDepth d => (initialized d).map .marketDepth
  | .admin _ _ => none

/-! ### Keys of contracts -/

/-- A key that the loop does not take for the topic of other messages. -/
def Routable (key : Text) : Prop := key ≠ [] ∧ isDepth key = false ∧ ':' ∉ key

def RegularContract (c : IbContract) : Prop :=
  isDepth c.symbol = false ∧ ':' ∉ c.symbol ∧ ':' ∉ c.secType ∧ ':' ∉ c.expiry ∧ ':' ∉ c.right

instance (c : IbContract) : Decidable (RegularContract c) :=
  inferInstanceAs (Decidable (_ ∧ _ ∧ _ ∧ _ ∧ _))

/-- A key has the prefix of market depth only if the symbol has it. -/
theorem isDepth_append_dot (symbol rest : Text) :
    isDepth (symbol ++ '.' :: rest) = isDepth symbol := by
  rw [Bool.eq_iff_iff, isDepth, isDepth, List.isPrefixOf_iff_prefix, List.isPrefixOf_iff_prefix]
  constructor
  · intro h
    rcases List.prefix_or_prefix_of_prefix h (List.prefix_append symbol _) with h' | ⟨r, hr⟩
    · exact h'
    · have hdot : '.' ∉ symbol ++ r := by
        rw [hr]
        decide
      rw [← hr, List.prefix_append_right_inj] at h
      cases r with
      | nil => exact hr ▸ (List.append_nil symbol).symm ▸ List.prefix_refl _
      | cons c r =>
          obtain ⟨rfl, -⟩ := List.cons_prefix_cons.mp h
          exact absurd (List.mem_append_right _ List.mem_cons_self) hdot
  · intro h
    exact h.trans (List.prefix_append symbol _)

theorem colon_not_mem_text (x : Double) : ':' ∉ x.text := by
  intro h
  rcases DoubleText.isNumeral_text x _ h with hdigit | hsign
  · exact absurd hdigit (by decide)
  · exact absurd hsign (by decide)

theorem routable_symbolFromContract {c : IbContract} (hc : RegularContract c) :
    Routable (TickerMap.symbolFromContract c) := by
  obtain ⟨hdepth, hsymbol, hsecType, hexpiry, hright⟩ := hc
  have hstrike := colon_not_mem_text c.strike
  refine ⟨?_, ?_, ?_⟩
  · simp [TickerMap.symbolFromContract]
  · rw [TickerMap.symbolFromContract, List.append_assoc, List.cons_append, isDepth_append_dot,
      hdepth]
  · rw [TickerMap.symbolFromContract]
    split_ifs <;> simp [*]

theorem colon_not_mem_toList {s : String} {chars : Text} (hs : s = String.ofList chars)
    (hchars : chars.elem ':' = false) : ':' ∉ s.toList := by
  rw [hs, String.toList_ofList]
  intro h
  rw [List.elem_iff.mpr h] at hchars
  cases hchars

theorem colon_not_mem_tickTypeName (field : TickType) : ':' ∉ (tickTypeName field).toList := by
  cases field <;> exact colon_not_mem_toList rfl rfl

theorem isAdmin_of_colon {key : Text} (hkey : ':' ∉ key) : isAdmin key = false := by
  refine eq_false_of_ne_true fun hadmin => ?_
  obtain ⟨rest, rfl⟩ := List.isPrefixOf_iff_prefix.mp hadmin
  exact hkey (List.mem_append_left rest (by decide))

/-! ### Turns at the messages that arrive -/

/-- What an arrival has to be for the loop to tell its frames apart, and for the database
to tell its record apart. -/
def RegularArrival (id : Text) (digits : Nat) : Arrival → Prop
  | .marketData v => Routable v.symbol ∧ RegularMessage digits (.marketData v)
  | .marketDepth d => ':' ∉ d.symbol ∧ (decimal d.timestamp.toNat).length = digits
  | .admin verb data => isAdmin id = true ∧ verb ≠ [] ∧ data ≠ some []

theorem regularMessage_of_arrival {id : Text} {digits : Nat} {a : Arrival}
    (ha : RegularArrival id digits a) : ∀ m ∈ message a, RegularMessage digits m := by
  intro m hm
  cases a with
  | marketData v =>
      obtain rfl := Option.some.inj hm
      exact ha.2
  | marketDepth d =>
      obtain ⟨v, hv, rfl⟩ := Option.map_eq_some_iff.mp hm
      simp only [initialized, Option.bind_eq_bind, Option.bind_eq_some_iff] at hv
      obtain ⟨side, -, operation, -, hv⟩ := hv
      obtain rfl := Option.some.inj hv
      exact ⟨ha, ha⟩
  | admin verb data => cases hm

section

variable (wires : Wires) (id : Text)

theorem tryReceive_cons {p : Part} (hp : p.bytes ≠ []) (unread : List Part) :
    tryReceive true false (p :: unread) = some (some p, unread) := by
  rw [tryReceive, receive, if_pos (List.length_pos_iff.mpr hp)]
  rfl

theorem tryReceive_done (throws : Bool) (unread : List Part) :
    tryReceive false throws unread = some (none, unread) := rfl

/-- A turn at two frames that are not empty, without the admin prefix. -/
theorem turn_of_data (parsers : Parsers) {topic payload : Text} (htopic : topic ≠ [])
    (hpayload : payload ≠ []) (hadmin : isAdmin topic = false) (n : Nat) (later : List Part) :
    ∃ t, turn parsers (quiet true) (messageParts n [topic, payload] ++ later) = some (t, later) ∧
      bytesOf t.frame1 = topic ∧ bytesOf t.frame2 = payload := by
  have hparts : messageParts n [topic, payload] ++ later =
      ⟨topic, true, n, 0⟩ :: ⟨payload, false, n, 1⟩ :: later := rfl
  have hsecond : tryReceive true false (⟨payload, false, n, 1⟩ :: later) =
      some (some ⟨payload, false, n, 1⟩, later) := tryReceive_cons hpayload later
  have hfirst := tryReceive_cons (p := ⟨topic, true, n, 0⟩) htopic (⟨payload, false, n, 1⟩ :: later)
  rw [hparts, turn, quiet, hfirst]
  dsimp only [bind, Option.bind]
  by_cases hdepth : isDepth topic = true
  · rw [if_pos (show isDepth (bytesOf (some ⟨topic, true, n, 0⟩)) = true from hdepth)]
    change ∃ t, ((tryReceive true false _).bind _) = _ ∧ _
    rw [hsecond]
    exact ⟨_, rfl, rfl, rfl⟩
  · rw [if_neg (show ¬ isDepth (bytesOf (some ⟨topic, true, n, 0⟩)) = true from hdepth),
      if_neg (show ¬ isAdmin (bytesOf (some ⟨topic, true, n, 0⟩)) = true by
        change ¬ isAdmin topic = true
        rw [hadmin]
        exact Bool.false_ne_true)]
    change ∃ t, ((tryReceive true false _).bind _) = _ ∧ _
    rw [hsecond]
    exact ⟨_, rfl, rfl, rfl⟩

theorem serializeMarketData_ne_nil (v : MarketData) : wires.serializeMarketData v ≠ [] := by
  intro h
  have hparse := wires.parse_serializeMarketData v
  rw [h, wires.parseMarketData_nil] at hparse
  cases hparse

/-- The handler of an admin message to stop returns false. -/
def Stops (a : Arrival) : Prop := ∃ data, a = .admin "stop".toList data

/-- The handler of an admin message calls the socket. -/
def CallsSocket (a : Arrival) : Prop :=
  ∃ verb data, a = .admin verb data ∧
    verb ∈ ["connect".toList, "subscribe".toList, "unsubscribe".toList]

theorem not_callsSocket_of_stops {a : Arrival} (hstops : Stops a) : ¬ CallsSocket a := by
  obtain ⟨data, rfl⟩ := hstops
  rintro ⟨verb, data', heq, hmem⟩
  obtain ⟨rfl, -⟩ := Arrival.admin.inj heq
  exact absurd hmem (by decide)

/-- The ending of a turn at an admin message. -/
theorem endingOf_subscriber (refused : Bool) (verb data : Text) (data' : Option Text) :
    let ending := endingOf ((subscriber id refused).handleAdminMessage verb data ()).1
    (ending = some .stopped ↔ Stops (.admin verb data')) ∧
      (ending = some .thrown ↔ CallsSocket (.admin verb data') ∧ refused = true) := by
  unfold Agent.handleAdminMessage subscriber
  dsimp only
  by_cases hstop : verb = "stop".toList
  · have hstops : Stops (.admin verb data') := ⟨data', by rw [hstop]⟩
    rw [if_pos hstop]
    refine ⟨iff_of_true rfl hstops, iff_of_false nofun fun h => ?_⟩
    exact not_callsSocket_of_stops hstops h.1
  · have hnot : ¬ Stops (.admin verb data') := by
      rintro ⟨data, heq⟩
      exact hstop (Arrival.admin.inj heq).1
    have hcalls : CallsSocket (.admin verb data') ↔
        ["connect".toList, "subscribe".toList, "unsubscribe".toList].contains verb = true := by
      rw [List.contains_iff_mem]
      constructor
      · rintro ⟨verb', data'', heq, hmem⟩
        obtain ⟨rfl, -⟩ := Arrival.admin.inj heq
        exact hmem
      · intro hmem
        exact ⟨verb, data', rfl, hmem⟩
    rw [if_neg hstop, hcalls]
    generalize ["connect".toList, "subscribe".toList, "unsubscribe".toList].contains verb = calls
    cases calls <;> cases refused <;> simp [endingOf, hnot]

/-- A turn at a topic with the admin prefix reads two more frames, if there are. -/
theorem turn_of_isAdmin (parsers : Parsers) {topic : Part} {unread unread' rest : List Part}
    {frame2 frame3 : Option Part} (hadmin : isAdmin topic.bytes = true)
    (hsecond : tryReceive topic.more false unread = some (frame2, unread'))
    (hthird : tryReceive (moreAfter topic.more frame2) false unread' = some (frame3, rest)) :
    turn parsers (quiet true) (topic :: unread) =
      some (⟨some topic, frame2, frame3, true⟩, rest) := by
  have hne : topic.bytes ≠ [] := by
    intro h
    rw [h] at hadmin
    cases hadmin
  have hdepth : ¬ isDepth (bytesOf (some topic)) = true := by
    change ¬ isDepth topic.bytes = true
    rw [isDepth_of_isAdmin hadmin]
    exact Bool.false_ne_true
  rw [turn, quiet, tryReceive_cons hne]
  dsimp only [bind, Option.bind]
  rw [if_neg hdepth]
  change (if isAdmin topic.bytes = true then
    (tryReceive topic.more false unread).bind fun r =>
      (tryReceive (moreAfter topic.more r.1) false r.2).bind fun r' =>
        some ((⟨some topic, r.1, r'.1, true⟩ : Turn), r'.2) else _) = _
  rw [if_pos hadmin, hsecond, Option.bind_some, hthird, Option.bind_some]

theorem turn_of_admin (parsers : Parsers) {verb : Text} {data : Option Text}
    (hadmin : isAdmin id = true) (hverb : verb ≠ []) (hdata : data ≠ some []) (n : Nat)
    (later : List Part) :
    ∃ t, turn parsers (quiet true) (messageParts n (adminMessage (subscriber id false) verb data) ++
        later) = some (t, later) ∧ bytesOf t.frame1 = id ∧ bytesOf t.frame2 = verb := by
  cases data with
  | none =>
      exact ⟨_, turn_of_isAdmin parsers hadmin (tryReceive_cons hverb later)
        (tryReceive_done false later), rfl, rfl⟩
  | some data =>
      have hdata : data ≠ [] := fun h => hdata (congrArg some h)
      exact ⟨_, turn_of_isAdmin parsers hadmin (tryReceive_cons hverb _)
        (tryReceive_cons hdata later), rfl, rfl⟩

/-- A turn at an arrival takes exactly its frames and passes its message on. -/
theorem turn_of_arrival {digits : Nat} {a : Arrival} (ha : RegularArrival id digits a) (n : Nat)
    (later : List Part) (refused : Bool) :
    ∃ t, turn wires.toParsers (quiet true) (messageParts n (frames wires id a) ++ later) =
        some (t, later) ∧
      processed wires.toParsers t = message a ∧
      (endingOf (continueProcess id refused t) = some .stopped ↔ Stops a) ∧
      (endingOf (continueProcess id refused t) = some .thrown ↔
        CallsSocket a ∧ refused = true) := by
  cases a with
  | marketData v =>
      obtain ⟨⟨hne, hdepth, hcolon⟩, -⟩ := ha
      have hadmin := isAdmin_of_colon hcolon
      obtain ⟨t, hturn, hframe1, hframe2⟩ := turn_of_data wires.toParsers hne
        (serializeMarketData_ne_nil wires v) hadmin n later
      refine ⟨t, hturn, ?_, ?_⟩
      · rw [processed, hframe1, hframe2, hdepth, hadmin, wires.parse_serializeMarketData]
        rfl
      · rw [continueProcess, hframe1, hdepth, hadmin]
        simp [endingOf, Stops, CallsSocket]
  | marketDepth d =>
      have hdepth : isDepth (HistorianKeys.entityIbMarketDepth ++ ':' :: d.symbol) = true := rfl
      obtain ⟨t, hturn, hframe1, hframe2⟩ := turn_of_data wires.toParsers
        (show HistorianKeys.entityIbMarketDepth ++ ':' :: d.symbol ≠ [] from List.cons_ne_nil _ _)
        (wires.serializeMarketDepth_ne_nil d) (isAdmin_of_isDepth hdepth) n later
      refine ⟨t, hturn, ?_, ?_⟩
      · rw [processed, hframe1, hframe2, hdepth, wires.parse_serializeMarketDepth]
        rfl
      · rw [continueProcess, hframe1, hdepth]
        simp [endingOf, Stops, CallsSocket]
  | admin verb data =>
      obtain ⟨hadmin, hverb, hdata⟩ := ha
      obtain ⟨t, hturn, hframe1, hframe2⟩ :=
        turn_of_admin id wires.toParsers hadmin hverb hdata n later
      have hdepth := isDepth_of_isAdmin hadmin
      refine ⟨t, hturn, ?_, ?_⟩
      · rw [processed, hframe1, hdepth, hadmin]
        rfl
      · rw [continueProcess, hframe1, hframe2, hdepth, hadmin]
        exact endingOf_subscriber id refused verb (bytesOf t.frame3) data

end

/-! ### Runs -/

/-- What an action has to be like: a contract without colons, whose symbol does not begin as
the topics of market depth do, times with the given number of digits, and admin messages
that are addressed to an agent whose id has their prefix, without empty frames. -/
def RegularAction (id : Text) (digits : Nat) : Action → Prop
  | .register contract => RegularContract contract
  | .tick micros _ _ => (decimal micros.toNat).length = digits
  | .depth micros _ _ => (decimal micros.toNat).length = digits
  | .admin verb data => isAdmin id = true ∧ verb ≠ [] ∧ data ≠ some []
  | .turn _ _ => True

section

variable (wires : Wires) (records : Codec Record) (id : Text) (overwrite : Bool) (digits : Nat)

/-- The arrivals that have been read are those before the ones whose frames are left, and
the database is what the calls for them have made it. -/
structure Inv (s : State) (read pending : List Arrival) : Prop where
  keys : ∀ tickerId key, s.tickerMap.getSubscriptionKeyFromId tickerId = some key → Routable key
  regular : ∀ a ∈ s.arrived, RegularArrival id digits a
  arrived : s.arrived = read ++ pending
  unread : s.unread = inbound read.length (pending.map (frames wires id))
  values : s.calls.filterMap WriteCall.value = read.filterMap message
  overwrites : ∀ call ∈ s.calls, call.overwrite = overwrite
  levelDb : s.levelDb = HistorianStore.run records s.calls
  stopped : s.ending = some .stopped ↔ ∃ a ∈ read.getLast?, Stops a
  thrown : s.ending = some .thrown ↔ s.refused = true ∧ ∃ a ∈ read.getLast?, CallsSocket a

variable {wires records id overwrite digits} {s s' : State} {read pending : List Arrival}

theorem inv_init : Inv wires records id overwrite digits init [] [] where
  keys tickerId key hkey := by cases hkey
  regular a ha := by cases ha
  arrived := rfl
  unread := rfl
  values := rfl
  overwrites call hcall := by cases hcall
  levelDb := rfl
  stopped := by simp [init]
  thrown := by simp [init]

theorem Inv.arrive (hs : Inv wires records id overwrite digits s read pending) {a : Arrival}
    (ha : RegularArrival id digits a) :
    Inv wires records id overwrite digits (arrive wires id s a) read (pending ++ [a]) where
  keys := hs.keys
  regular := by
    change ∀ b ∈ s.arrived ++ [a], RegularArrival id digits b
    rw [List.forall_mem_append]
    exact ⟨hs.regular, List.forall_mem_singleton.mpr ha⟩
  arrived := by
    change s.arrived ++ [a] = _
    rw [hs.arrived, List.append_assoc]
  unread := by
    change s.unread ++ messageParts s.arrived.length (frames wires id a) = _
    rw [List.map_append, inbound_append, hs.unread, hs.arrived, List.length_append,
      List.length_map, List.map_singleton, inbound, inbound, List.append_nil]
  values := hs.values
  overwrites := hs.overwrites
  levelDb := hs.levelDb
  stopped := hs.stopped
  thrown := hs.thrown

theorem Inv.deliver (hs : Inv wires records id overwrite digits s read pending) {delivered : Bool}
    {a : Option Arrival} (ha : ∀ b ∈ a, RegularArrival id digits b) :
    ∃ pending', Inv wires records id overwrite digits (deliver wires id s delivered a) read
      pending' := by
  unfold Recording.deliver
  split_ifs
  · cases a with
    | none => exact ⟨pending, hs⟩
    | some a => exact ⟨_, hs.arrive (ha a rfl)⟩
  · exact ⟨pending, hs⟩

theorem Inv.register (hs : Inv wires records id overwrite digits s read pending)
    {contract : IbContract} (hcontract : RegularContract contract) :
    Inv wires records id overwrite digits
      { s with tickerMap := (s.tickerMap.registerContract contract).2 } read pending :=
  { hs with
    keys := by
      intro tickerId key hkey
      rcases TickerMap.key_of_registerContract hkey with hkey | ⟨-, rfl⟩
      · exact hs.keys tickerId key hkey
      · exact routable_symbolFromContract hcontract }

/-- A turn reads the next arrival, if there is one. -/
theorem Inv.turn {a : Arrival}
    (hs : Inv wires records id overwrite digits s read (a :: pending)) (faults : Faults)
    (refused : Bool) (hending : s.ending = none) :
    ∃ s', step wires records id overwrite s (.turn faults refused) = some s' ∧
      Inv wires records id overwrite digits s' (read ++ [a]) pending := by
  have ha : RegularArrival id digits a := by
    apply hs.regular
    rw [hs.arrived]
    exact List.mem_append_right read List.mem_cons_self
  obtain ⟨t, hturn, hprocessed, hstops, hthrows⟩ := turn_of_arrival wires id ha read.length
    (inbound (read.length + 1) (pending.map (frames wires id))) refused
  have hunread : MarketDataSubscriber.turn wires.toParsers (quiet true) s.unread =
      some (t, inbound (read.length + 1) (pending.map (frames wires id))) := by
    rw [hs.unread]
    exact hturn
  simp only [step, hending, Option.isSome_none, Bool.false_eq_true, if_false, hunread,
    Option.map_some, hprocessed]
  refine ⟨_, rfl, hs.keys, hs.regular, ?_, ?_, ?_, ?_, ?_, ?_, ?_⟩
  · rw [hs.arrived, List.append_assoc]
    rfl
  · rw [List.length_append]
    rfl
  · rw [List.filterMap_append, List.filterMap_append, hs.values, List.filterMap_map]
    cases hm : message a <;> simp [hm]
  · intro call hcall
    rcases List.mem_append.mp hcall with hcall | hcall
    · exact hs.overwrites call hcall
    · obtain ⟨m, -, rfl⟩ := List.mem_map.mp hcall
      rfl
  · rw [hs.levelDb, HistorianStore.run, HistorianStore.run, List.foldl_append]
  · rw [List.getLast?_concat, hstops]
    simp
  · rw [List.getLast?_concat, hthrows, and_comm]
    simp

theorem inv_of_step (hs : Inv wires records id overwrite digits s read pending) {action : Action}
    (haction : RegularAction id digits action)
    (hstep : step wires records id overwrite s action = some s') :
    ∃ read' pending', Inv wires records id overwrite digits s' read' pending' := by
  cases action with
  | register contract =>
      obtain rfl := Option.some.inj hstep
      exact ⟨read, pending, hs.register haction⟩
  | tick micros c delivered =>
      obtain rfl := Option.some.inj hstep
      refine ⟨read, hs.deliver fun b hb => ?_⟩
      obtain ⟨v, hv, rfl⟩ := Option.map_eq_some_iff.mp hb
      obtain ⟨key, hkey, rfl⟩ := Option.map_eq_some_iff.mp hv
      have hroutable := hs.keys _ _ hkey
      have hname := colon_not_mem_tickTypeName c.field
      exact ⟨hroutable, ⟨hroutable.2.2, hname, haction⟩, hroutable.2.2, haction⟩
  | depth micros c delivered =>
      obtain rfl := Option.some.inj hstep
      refine ⟨read, hs.deliver fun b hb => ?_⟩
      obtain ⟨d, hd, rfl⟩ := Option.map_eq_some_iff.mp hb
      obtain ⟨key, hkey, rfl⟩ := Option.map_eq_some_iff.mp hd
      exact ⟨(hs.keys _ _ hkey).2.2, haction⟩
  | admin verb data =>
      obtain rfl := Option.some.inj hstep
      have ha : RegularArrival id digits (.admin verb data) := haction
      exact ⟨read, pending ++ [.admin verb data], hs.arrive ha⟩
  | turn faults refused =>
      cases hending : s.ending with
      | some ending => simp [step, hending] at hstep
      | none =>
          cases pending with
          | nil =>
              have hunread : s.unread = [] := hs.unread
              simp [step, hending, hunread, MarketDataSubscriber.turn, tryReceive, receive,
                quiet] at hstep
          | cons a pending =>
              obtain ⟨t, ht, hinv⟩ := hs.turn faults refused hending
              obtain rfl := Option.some.inj (ht.symm.trans hstep)
              exact ⟨read ++ [a], pending, hinv⟩

theorem inv_of_run {schedule : List Action}
    (hschedule : ∀ action ∈ schedule, RegularAction id digits action)
    (hrun : Runs.run (step wires records id overwrite) init schedule = some s) :
    ∃ read pending, Inv wires records id overwrite digits s read pending := by
  apply Runs.inv_of_throughout (step wires records id overwrite)
    (P := fun s => ∃ read pending, Inv wires records id overwrite digits s read pending)
    (C := fun _ action => RegularAction id digits action) _ ⟨[], [], inv_init⟩ _ hrun
  · rintro s action s' ⟨read, pending, hs⟩ haction hstep
    exact inv_of_step hs haction hstep
  · intro pre action post s s' hsplit _ _
    apply hschedule
    rw [hsplit]
    exact List.mem_append_right pre List.mem_cons_self

theorem Inv.regularMessage (hs : Inv wires records id overwrite digits s read pending) :
    ∀ call ∈ s.calls, ∀ m ∈ call.value, RegularMessage digits m := by
  intro call hcall m hm
  have hmem : m ∈ s.calls.filterMap WriteCall.value := List.mem_filterMap.mpr ⟨call, hcall, hm⟩
  rw [hs.values] at hmem
  obtain ⟨a, ha, hmessage⟩ := List.mem_filterMap.mp hmem
  apply regularMessage_of_arrival (hs.regular a _) m hmessage
  rw [hs.arrived]
  exact List.mem_append_left pending ha

end

/-- However callbacks, admin messages and turns of the loop are interleaved: what has been
read is a first part of what has arrived, each message of it has been passed to `Db::Write`
once and in order, the loop goes on until all is read, an admin message has stopped it or
zmq has refused what one asked of the socket, and every query shows the records of the
series that these messages make. -/
theorem records_what_arrives (wires : Wires) (records : Codec Record) (id : Text)
    (overwrite : Bool) (digits : Nat) {schedule : List Action}
    (hschedule : ∀ action ∈ schedule, RegularAction id digits action) {s : State}
    (hrun : Runs.run (step wires records id overwrite) init schedule = some s) :
    ∃ read pending, s.arrived = read ++ pending ∧
      s.calls.filterMap WriteCall.value = read.filterMap message ∧
      (∀ call ∈ s.calls, call.overwrite = overwrite) ∧
      (s.ending = some .stopped ↔ ∃ a ∈ read.getLast?, Stops a) ∧
      (s.ending = some .thrown ↔ s.refused = true ∧ ∃ a ∈ read.getLast?, CallsSocket a) ∧
      (s.ending = none → pending ≠ [] → ∀ faults refused,
        (step wires records id overwrite s (.turn faults refused)).isSome = true) ∧
      ∀ q, LiveHistorian.RegularQuery digits q → ∃ items, IsAnswer s.calls q items ∧
        ∀ (σ : Type) (visit : Visitor σ) (seen : σ),
          (query records visit s.levelDb q seen).2 = visitUntil visit seen (items.map visited) := by
  obtain ⟨read, pending, hs⟩ := inv_of_run hschedule hrun
  refine ⟨read, pending, hs.arrived, hs.values, hs.overwrites, hs.stopped, hs.thrown, ?_, ?_⟩
  · intro hending hpending faults refused
    obtain ⟨a, rest, rfl⟩ := List.exists_cons_of_ne_nil hpending
    obtain ⟨s', hstep, -⟩ := hs.turn faults refused hending
    exact Option.isSome_iff_exists.mpr ⟨s', hstep⟩
  · intro q hq
    rw [hs.levelDb]
    exact query_shows_answer records hs.regularMessage hq.symbol hq.first hq.last

def depthWire : Wire Depth :=
  (RecordWire.uint64.pair (Wire.text.pair (RecordWire.uint64.pair
      ((Wire.optional RecordWire.depthSide).pair ((Wire.optional RecordWire.depthOperation).pair
        (RecordWire.uint32.pair (RecordWire.double.pair
          (RecordWire.uint64.pair Wire.text)))))))).iso
    (fun f => ⟨f.1, f.2.1, f.2.2.1, f.2.2.2.1, f.2.2.2.2.1, f.2.2.2.2.2.1, f.2.2.2.2.2.2.1,
      f.2.2.2.2.2.2.2.1, f.2.2.2.2.2.2.2.2⟩)
    (fun d => (d.timestamp, d.symbol, d.contractId, d.side, d.operation, d.level, d.price, d.size,
      d.mm))
    fun _ => rfl

def wires : Wires where
  parseMarketData := RecordWire.marketData.parse
  parseMarketDepth bytes := (depthWire.parse bytes).bind initialized
  parseMarketData_nil := by decide
  parseMarketDepth_nil := by decide
  serializeMarketData := RecordWire.marketData.put
  serializeMarketDepth := depthWire.put
  parse_serializeMarketData := RecordWire.marketData.parse_put
  parse_serializeMarketDepth d := by rw [Wire.parse_put, Option.bind_some]
  serializeMarketDepth_ne_nil d := by
    simp [depthWire, Wire.iso, Wire.pair, RecordWire.uint64, Wire.nat]

/-- Of two ticks the first is dropped, the second is recorded, and so is one of two depths:
the other one has an operation that is not known.  Then zmq refuses an endpoint. -/
def session : List Action :=
  [.register { conId := 7, symbol := ['A'], secType := "STK".toList },
    .tick 14 ⟨7, .bid, .tickSize 2⟩ false,
    .tick 15 ⟨7, .ask, .tickSize 1⟩ true,
    .turn {} false,
    .depth 16 ⟨7, 0, none, 3, 0, ⟨0⟩, 5⟩ true,
    .depth 17 ⟨7, 0, none, 0, 1, ⟨0⟩, 5⟩ true,
    .turn {} false,
    .admin "connect".toList (some "tcp".toList),
    .turn {} false,
    .turn {} true]

def depthOfA : QueryBySymbol :=
  { type := .ibMarketDepth, symbol := "A.STK".toList, utcFirstMicros := some 10,
    utcLastMicros := some 20 }

theorem records_what_arrives_session :
    ∃ s, Runs.run (step wires RecordWire.recordCodec "admin:hz".toList true) init session = some s ∧
      ∃ read pending, s.arrived = read ++ pending ∧
        s.calls.filterMap WriteCall.value = read.filterMap message ∧
        (s.ending = some .thrown ↔ s.refused = true ∧ ∃ a ∈ read.getLast?, CallsSocket a) ∧
        ∃ items, IsAnswer s.calls depthOfA items ∧
          (query RecordWire.recordCodec (fun seen record => (seen ++ [record], true)) s.levelDb
              depthOfA []).2 =
            visitUntil (fun seen record => (seen ++ [record], true)) [] (items.map visited) := by
  obtain ⟨s, hs⟩ := Option.isSome_iff_exists.mp (show (Runs.run
    (step wires RecordWire.recordCodec "admin:hz".toList true) init session).isSome = true by
      decide +kernel)
  obtain ⟨read, pending, harrived, hvalues, -, -, hthrown, -, hqueries⟩ :=
    records_what_arrives wires RecordWire.recordCodec "admin:hz".toList true 2
      (show ∀ action ∈ session, RegularAction "admin:hz".toList 2 action by
        simp only [session, List.forall_mem_cons, List.not_mem_nil, IsEmpty.forall_iff,
          implies_true, and_true, RegularAction]
        decide) hs
  obtain ⟨items, hanswer, hvisits⟩ := hqueries depthOfA ⟨by decide, by decide, by decide⟩
  exact ⟨s, hs, read, pending, harrived, hvalues, hthrown, items, hanswer, hvisits _ _ _⟩

end Atp.Recording

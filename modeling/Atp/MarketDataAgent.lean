import Atp.LogPlayback
import Atp.MarketDataHandler
import Atp.MarketDataSubscriber
import Atp.RecordWire
import Atp.WindowHistory

/-!
An agent that listens to market data: a message processor whose handlers are market data
handlers, one for each symbol, and one that stops it.  What a callback is given, and what
a moving window shows that is fed by it, while a log is played back.
-/

namespace Atp.MarketDataAgent

open LogPlayback MarketDataHandler MovingWindow TypedMessages WindowHistory
open ScanWindow (Message)

/-- What is registered under a key. -/
inductive Handler where
  | marketData (bindings : List Binding)
  | stop

section

variable (wires : Wires) (registered : List (Text × Handler))

/-- The handlers by key, the first one that is registered for each; the state is the
callbacks that have been invoked.  What a market data handler returns is converted to a
truth value. -/
def handlersMap : MessageProcessor.HandlersMap (List Invocation) where
  isSupported id := (registered.lookup id).isSome
  handler s id data :=
    match registered.lookup id with
    | some (.marketData bindings) =>
        let (code, invocations) :=
          processEvent wires.marketData.parseFromString (bound bindings) data
        (s ++ invocations, some (code ≠ 0))
    | _ => (s, some false)

/-- The socket is subscribed to the keys, and gets the topics that begin with one. -/
def subscribed (topic : Text) : Bool := registered.any fun r => r.1.isPrefixOf topic

/-- A key of market data. -/
def going (topic : Text) : Bool :=
  match registered.lookup topic with
  | some (.marketData _) => true
  | _ => false

/-- The loop goes on after the message. -/
def goesOn (m : Message) : Bool := going registered (wires.message m).key

/-- The loop on the messages that are delivered. -/
def listen (delivered : List TypedMessage) : MessageProcessor.Outcome :=
  MessageProcessor.run (handlersMap wires registered) [] (delivered.flatMap TypedMessage.frames)

def invoked (delivered : List TypedMessage) : List Invocation :=
  afterCalls (handlersMap wires registered) [] (listen wires registered delivered).calls

end

/-! ### Types of callbacks -/

/-- One of the types of values, with the callbacks that are bound and invoked for it. -/
structure Channel (V : Type) where
  binding? : Binding → Option (Text × Callback V)
  call? : Invocation → Option (Call V)
  type : ValueType
  value : Value → V
  calls_update : ∀ bindings (event : MarketData),
    ((bound bindings).update event.timestamp event.event event).2.filterMap call? =
      if event.value.type = type then
        ((first binding? bindings event.event).map fun cb =>
          ⟨cb, event.timestamp, value event.value⟩).toList
      else []

theorem dispatch_snd {V : Type} (d : TypedDispatcher V) (event : Text) (ts : UInt64) (v : V) :
    (d.dispatch event ts v).2 = ((d.lookup event).map fun cb => ⟨cb, ts, v⟩).toList := by
  unfold TypedDispatcher.dispatch
  cases d.lookup event <;> rfl

theorem filterMap_map_toList {V : Type} {wrap : Call V → Invocation}
    {call? : Invocation → Option (Call V)} (hcall : ∀ call, call? (wrap call) = some call)
    (call : Option (Call V)) : (call.toList.map wrap).filterMap call? = call.toList := by
  cases call with
  | none => rfl
  | some call => simp [hcall]

def Invocation.double? : Invocation → Option (Call Double)
  | .double call => some call
  | _ => none

def Invocation.int? : Invocation → Option (Call Int32)
  | .int call => some call
  | _ => none

def Invocation.string? : Invocation → Option (Call Text)
  | .string call => some call
  | _ => none

def Invocation.timestamp? : Invocation → Option (Call UInt64)
  | .timestamp call => some call
  | _ => none

theorem filterMap_map_eq_nil {V W : Type} {wrap : Call V → Invocation}
    {call? : Invocation → Option (Call W)} (hcall : ∀ call, call? (wrap call) = none)
    (calls : List (Call V)) : (calls.map wrap).filterMap call? = [] := by
  rw [List.filterMap_eq_nil_iff, List.forall_mem_map]
  exact fun call _ => hcall call

def Channel.double : Channel Double where
  binding? := Binding.double?
  call? := Invocation.double?
  type := .double
  value value := value.doubleValue.getD ⟨0⟩
  calls_update bindings event := by
    unfold ValueUpdater.update
    cases event.value.type with
    | double =>
        rw [if_pos rfl, ← lookup_double]
        change ((TypedDispatcher.dispatch _ _ _ _).2.map Invocation.double).filterMap _ = _
        rw [dispatch_snd, filterMap_map_toList fun _ => rfl]
    | int => exact filterMap_map_eq_nil (fun _ => rfl) _
    | string => exact filterMap_map_eq_nil (fun _ => rfl) _
    | timestamp => exact filterMap_map_eq_nil (fun _ => rfl) _

def Channel.int : Channel Int32 where
  binding? := Binding.int?
  call? := Invocation.int?
  type := .int
  value value := (value.intValue.getD 0).toInt32
  calls_update bindings event := by
    unfold ValueUpdater.update
    cases event.value.type with
    | int =>
        rw [if_pos rfl, ← lookup_int]
        change ((TypedDispatcher.dispatch _ _ _ _).2.map Invocation.int).filterMap _ = _
        rw [dispatch_snd, filterMap_map_toList fun _ => rfl]
    | double => exact filterMap_map_eq_nil (fun _ => rfl) _
    | string => exact filterMap_map_eq_nil (fun _ => rfl) _
    | timestamp => exact filterMap_map_eq_nil (fun _ => rfl) _

def Channel.string : Channel Text where
  binding? := Binding.string?
  call? := Invocation.string?
  type := .string
  value value := value.stringValue.getD []
  calls_update bindings event := by
    unfold ValueUpdater.update
    cases event.value.type with
    | string =>
        rw [if_pos rfl, ← lookup_string]
        change ((TypedDispatcher.dispatch _ _ _ _).2.map Invocation.string).filterMap _ = _
        rw [dispatch_snd, filterMap_map_toList fun _ => rfl]
    | double => exact filterMap_map_eq_nil (fun _ => rfl) _
    | int => exact filterMap_map_eq_nil (fun _ => rfl) _
    | timestamp => exact filterMap_map_eq_nil (fun _ => rfl) _

def Channel.timestamp : Channel UInt64 where
  binding? := Binding.timestamp?
  call? := Invocation.timestamp?
  type := .timestamp
  value value := (value.timestampValue.getD 0).toUInt64
  calls_update bindings event := by
    unfold ValueUpdater.update
    cases event.value.type with
    | timestamp =>
        rw [if_pos rfl, ← lookup_timestamp]
        change ((TypedDispatcher.dispatch _ _ _ _).2.map Invocation.timestamp).filterMap _ = _
        rw [dispatch_snd, filterMap_map_toList fun _ => rfl]
    | double => exact filterMap_map_eq_nil (fun _ => rfl) _
    | int => exact filterMap_map_eq_nil (fun _ => rfl) _
    | string => exact filterMap_map_eq_nil (fun _ => rfl) _

/-! ### What a callback is given -/

section

variable {V : Type} (c : Channel V) (i : Nat)

/-- The times and values that the callback with the number `i` is invoked with. -/
def inputs (invocations : List Invocation) : List (UInt64 × V) :=
  (invocations.filterMap c.call?).filterMap fun call =>
    if call.callback.id = i then some (call.ts, call.value) else none

/-- What a message is to the callback, if its symbol and its event lead to it. -/
def fed (registered : List (Text × Handler)) : Message → Option (UInt64 × V)
  | .marketDepth _ => none
  | .marketData m =>
      match registered.lookup m.symbol with
      | some (.marketData bindings) =>
          match first c.binding? bindings m.event with
          | some cb =>
              if m.value.type = c.type ∧ cb.id = i then some (m.timestamp, c.value m.value)
              else none
          | none => none
      | _ => none

theorem inputs_append (invocations invocations' : List Invocation) :
    inputs c i (invocations ++ invocations') =
      inputs c i invocations ++ inputs c i invocations' := by
  rw [inputs, List.filterMap_append, List.filterMap_append]
  rfl

theorem inputs_update {registered : List (Text × Handler)} {m : MarketData}
    {bindings : List Binding} (hlookup : registered.lookup m.symbol = some (.marketData bindings)) :
    inputs c i ((bound bindings).update m.timestamp m.event m).2 =
      (fed c i registered (.marketData m)).toList := by
  rw [inputs, c.calls_update, fed, hlookup]
  dsimp only
  by_cases htype : m.value.type = c.type
  · rw [if_pos htype]
    cases first c.binding? bindings m.event with
    | none => rfl
    | some cb =>
        by_cases hid : cb.id = i
        · simp [htype, hid]
        · simp [hid]
  · rw [if_neg htype]
    cases first c.binding? bindings m.event with
    | none => rfl
    | some cb => simp [htype]

end

/-! ### The loop on what is delivered -/

theorem dispatch_ne_zero {V : Type} (d : TypedDispatcher V) (event : Text) (ts : UInt64) (v : V) :
    (d.dispatch event ts v).1 ≠ 0 := by
  unfold TypedDispatcher.dispatch
  split
  · split_ifs
    · exact (by decide : ErrorCode.exception ≠ 0)
    · exact (by decide : ErrorCode.dispatched ≠ 0)
  · exact (by decide : ErrorCode.noUpdaterContinue ≠ 0)

theorem update_ne_zero (u : ValueUpdater) (ts : UInt64) (eventCode : Text) (event : MarketData) :
    (u.update ts eventCode event).1 ≠ 0 := by
  unfold ValueUpdater.update
  split
  · exact dispatch_ne_zero _ _ _ _
  · exact dispatch_ne_zero _ _ _ _
  · exact dispatch_ne_zero _ _ _ _
  · exact dispatch_ne_zero _ _ _ _

/-- Market data handlers are registered under keys that are not those of market depth or of
the stop. -/
def RegularKeys (registered : List (Text × Handler)) : Prop :=
  ∀ k bindings, registered.lookup k = some (.marketData bindings) →
    MarketDataSubscriber.isDepth k = false ∧ k ≠ dataEnd.key

section

variable (wires : Wires) {registered : List (Text × Handler)}

theorem process_of_going {m : MarketData} {bindings : List Binding}
    (hlookup : registered.lookup m.symbol = some (.marketData bindings)) (s : List Invocation) :
    MessageProcessor.processRawMessage (handlersMap wires registered) s m.symbol
        (wires.marketData.serializeToString m) =
      (s ++ ((bound bindings).update m.timestamp m.event m).2, true) := by
  have hsupported : (handlersMap wires registered).isSupported m.symbol = true := by
    change (registered.lookup m.symbol).isSome = true
    rw [hlookup]
    rfl
  have hcode := update_ne_zero (bound bindings) m.timestamp m.event m
  rw [MessageProcessor.processRawMessage, if_pos hsupported]
  simp [handlersMap, hlookup, processEvent, hcode]

theorem process_of_not_going {topic : Text} (htopic : going registered topic = false)
    (s : List Invocation) (data : Text) :
    MessageProcessor.processRawMessage (handlersMap wires registered) s topic data =
      (s, false) := by
  unfold MessageProcessor.processRawMessage
  split_ifs
  · have hhandler : (handlersMap wires registered).handler s topic data = (s, some false) := by
      unfold going at htopic
      unfold handlersMap
      dsimp only
      split at htopic
      · cases htopic
      · rfl
    rw [hhandler]
    rfl
  · rfl

/-- Only market data goes to the market data handlers. -/
theorem exists_of_going (hkeys : RegularKeys registered) {m : Message}
    (hm : goesOn wires registered m = true) :
    ∃ data bindings, m = .marketData data ∧
      registered.lookup data.symbol = some (.marketData bindings) := by
  unfold goesOn going at hm
  cases m with
  | marketData data =>
      split at hm
      · exact ⟨data, _, rfl, ‹_›⟩
      · cases hm
  | marketDepth data =>
      split at hm
      · rename_i bindings hlookup
        cases (hkeys _ bindings hlookup).1
      · cases hm

theorem processMessages_playback (hkeys : RegularKeys registered) {V : Type} (c : Channel V)
    (i : Nat) (kept : List Message) (ended : Bool) (s : List Invocation) :
    inputs c i (processMessages (handlersMap wires registered) s
        (kept.map wires.message ++ if ended then [dataEnd] else [])).1 =
        inputs c i s ++ (kept.takeWhile (goesOn wires registered)).filterMap
          (fed c i registered) ∧
      ((processMessages (handlersMap wires registered) s
          (kept.map wires.message ++ if ended then [dataEnd] else [])).2 = true ↔
        ended = true ∨ ∃ m ∈ kept, goesOn wires registered m = false) := by
  induction kept generalizing s with
  | nil =>
      cases ended with
      | false => simp [processMessages]
      | true =>
          have hend : going registered dataEnd.key = false := by
            unfold going
            split
            · exact absurd rfl (hkeys _ _ ‹_›).2
            · rfl
          have hprocess := process_of_not_going wires hend s dataEnd.bytes
          simp [processMessages, hprocess]
  | cons m kept ih =>
      rw [List.map_cons, List.cons_append, processMessages]
      cases hgoing : goesOn wires registered m with
      | true =>
          obtain ⟨data, bindings, rfl, hlookup⟩ := exists_of_going wires hkeys hgoing
          have hprocess := process_of_going wires hlookup s
          have hkey : (wires.message (.marketData data)).key = data.symbol := rfl
          have hbytes : (wires.message (.marketData data)).bytes =
            wires.marketData.serializeToString data := rfl
          obtain ⟨hinputs, hended⟩ :=
            ih (s ++ ((bound bindings).update data.timestamp data.event data).2)
          rw [hkey, hbytes, hprocess, if_pos rfl, hinputs, hended, inputs_append,
            inputs_update c i hlookup, List.takeWhile_cons_of_pos hgoing, List.filterMap_cons]
          refine ⟨?_, ?_⟩
          · cases fed c i registered (.marketData data) with
            | none => simp
            | some x => simp
          · simp [hgoing]
      | false =>
          have hprocess := process_of_not_going wires hgoing s (wires.message m).bytes
          rw [hprocess, if_neg Bool.false_ne_true,
            List.takeWhile_cons_of_neg (Bool.eq_false_iff.mp hgoing)]
          simp [hgoing]

theorem nonEmpty_message {m : Message} (hm : ∀ data, m = .marketData data → data.symbol ≠ []) :
    (wires.message m).NonEmpty := by
  cases m with
  | marketData data => exact ⟨hm data rfl, wires.marketData_ne_nil data⟩
  | marketDepth data => exact ⟨List.cons_ne_nil _ _, wires.marketDepth_ne_nil data⟩

theorem filter_published (p : TypedMessage → Bool) (ms : List Message) (returned : Bool) :
    (ms.map wires.message ++ if returned then [dataEnd] else []).filter p =
      (ms.filter fun m => p (wires.message m)).map wires.message ++
        if returned && p dataEnd then [dataEnd] else [] := by
  rw [List.filter_append, List.filter_map]
  refine congrArg (_ ++ ·) ?_
  cases returned <;> cases hend : p dataEnd <;> simp [hend]

/-- What is delivered is some of the messages of the log, and perhaps the stop; if nothing
is lost, it is all of them. -/
theorem exists_kept {ms : List Message} {returned : Bool} {p : TypedMessage → Bool}
    {delivered : List TypedMessage}
    (hdelivered : delivered.Sublist
      ((ms.map wires.message ++ if returned then [dataEnd] else []).filter p)) :
    ∃ (kept : List Message) (ended : Bool),
      delivered = kept.map wires.message ++ (if ended then [dataEnd] else []) ∧
        kept.Sublist ms ∧
        (delivered = (ms.map wires.message ++ if returned then [dataEnd] else []).filter p →
          kept = ms.filter fun m => p (wires.message m)) := by
  rw [filter_published wires] at hdelivered ⊢
  by_cases hall : delivered = (ms.filter fun m => p (wires.message m)).map wires.message ++
      if returned && p dataEnd then [dataEnd] else []
  · exact ⟨_, _, hall, List.filter_sublist, fun _ => rfl⟩
  · obtain ⟨front, back, rfl, hfront, hback⟩ := List.sublist_append_iff.mp hdelivered
    obtain ⟨kept, hkept, rfl⟩ := List.sublist_map_iff.mp hfront
    have hkept := hkept.trans List.filter_sublist
    have hend : back.Sublist [dataEnd] := by
      split_ifs at hback
      · exact hback
      · exact hback.trans (List.nil_sublist _)
    rcases List.sublist_singleton.mp hend with rfl | rfl
    · exact ⟨kept, false, rfl, hkept, fun h => absurd h hall⟩
    · exact ⟨kept, true, rfl, hkept, fun h => absurd h hall⟩

/-- A message that is not subscribed to is not for any callback. -/
theorem fed_of_not_subscribed {V : Type} (c : Channel V) (i : Nat) {m : Message}
    (hm : subscribed registered (wires.message m).key = false) :
    fed c i registered m = none := by
  cases m with
  | marketDepth data => rfl
  | marketData data =>
      have hlookup : registered.lookup data.symbol = none := by
        rw [List.lookup_eq_none_iff]
        intro r hr
        rw [bne_iff_ne]
        intro hsymbol
        have hnot := List.any_eq_false.mp hm r hr
        rw [List.isPrefixOf_iff_prefix] at hnot
        exact hnot (hsymbol ▸ List.prefix_rfl)
      rw [fed, hlookup]

/-- The window `k` intervals back, if it has events, shows their aggregate. -/
theorem at?_feed {V : Type} {S : Sampler V} {agg : List V → Option V} (R : S.Reports agg)
    {h w : Microsecond} {init : V} {given : List (Event V)} (hw : 0 < w)
    (horder : InOrder w given) {last : Event V} (hlast : last ∈ given.getLast?) {k j : Nat}
    (hk : k ≤ slots h w) (hwindow : windowOf w last.1 = j + k)
    (hevents : eventsIn w given j ≠ []) :
    ((new S h w init).feed given).2.at? (-k) = agg (eventsIn w given j) := by
  cases given with
  | nil => cases hlast
  | cons e es =>
      rw [List.getLast?_eq_some_getLast (List.cons_ne_nil e es), Option.mem_some_iff] at hlast
      have hshows := (showsWindows R h w init e es hw horder).1 k hk
      rw [hlast, hwindow] at hshows
      apply hshows.2.1 j (by omega) hevents
      intro i hlow hhigh
      omega

/-- While a log is played back, whatever is lost: what is delivered are messages of the log
in its order, perhaps with the stop after them, and the loop ends at the first of them whose
key is not one of market data, and at the stop.  Up to there each callback is given the times
and values of its symbol and its event in the order of the log, all of them if nothing is
lost and no topic only begins with a key; and a moving window that it feeds shows the
aggregate of what the log has for each interval. -/
theorem playback_shows_windows (wires : Wires) (registered : List (Text × Handler))
    (hkeys : RegularKeys registered) (o : LogReader.Options) (text : Text)
    {delivered : List TypedMessage}
    (hdelivered : delivered.Sublist
      ((dispatchEvents wires o text).filter fun m => subscribed registered m.key)) :
    ∃ (kept : List Message) (ended : Bool),
      kept.Sublist (visits o {} (LogRecord.tokens text)).1 ∧
      delivered = kept.map wires.message ++ (if ended then [dataEnd] else []) ∧
      ((listen wires registered delivered).ended = true ↔
        ended = true ∨ ∃ m ∈ kept, goesOn wires registered m = false) ∧
      ∀ {V : Type} (c : Channel V) (i : Nat),
        let given := inputs c i (invoked wires registered delivered)
        given = (kept.takeWhile (goesOn wires registered)).filterMap (fed c i registered) ∧
        (delivered = (dispatchEvents wires o text).filter (fun m => subscribed registered m.key) →
          (∀ m ∈ (visits o {} (LogRecord.tokens text)).1,
            subscribed registered (wires.message m).key = true →
              goesOn wires registered m = true) →
          given = (visits o {} (LogRecord.tokens text)).1.filterMap (fed c i registered)) ∧
        ∀ {S : Sampler V} {agg : List V → Option V}, S.Reports agg →
          ∀ (h w : Microsecond) (init : V), 0 < w → InOrder w given →
            ∀ last ∈ given.getLast?, ∀ k j : Nat, k ≤ slots h w → windowOf w last.1 = j + k →
              eventsIn w given j ≠ [] →
                ((new S h w init).feed given).2.at? (-k) = agg (eventsIn w given j) := by
  obtain ⟨kept, ended, hsplit, hkept, hall⟩ := exists_kept wires hdelivered
  obtain ⟨hsymbols, -, -⟩ := hands_visits o (s := {}) (fun _ _ h => by cases h)
    (LogRecord.tokens text)
  have hnonEmpty : ∀ m ∈ delivered, m.NonEmpty := by
    rw [hsplit, List.forall_mem_append, List.forall_mem_map]
    refine ⟨fun m hm => nonEmpty_message wires ?_, ?_⟩
    · rintro data rfl
      exact hsymbols data (List.mem_filterMap.mpr ⟨_, hkept.subset hm, rfl⟩)
    · split_ifs
      · exact List.forall_mem_singleton.mpr ⟨by decide, by decide⟩
      · exact fun _ hm => absurd hm List.not_mem_nil
  have hloop := run_messages (handlersMap wires registered) hnonEmpty []
  have hinvoked : invoked wires registered delivered =
      (processMessages (handlersMap wires registered) [] delivered).1 := congrArg Prod.fst hloop
  have hended : (listen wires registered delivered).ended =
      (processMessages (handlersMap wires registered) [] delivered).2 := congrArg Prod.snd hloop
  refine ⟨kept, ended, hkept, hsplit, ?_, ?_⟩
  · have hplayback := (processMessages_playback wires hkeys Channel.double 0 kept ended
      []).2
    rw [hended, hsplit]
    exact hplayback
  · intro V c i given
    have hgiven : given =
        (kept.takeWhile (goesOn wires registered)).filterMap (fed c i registered) := by
      have hplayback := (processMessages_playback wires hkeys c i kept ended []).1
      rw [← hsplit, ← hinvoked] at hplayback
      exact hplayback
    refine ⟨hgiven, ?_, ?_⟩
    · intro hlossless hgoing
      have hkeptAll := hall hlossless
      have hwhile : kept.takeWhile (goesOn wires registered) = kept := by
        rw [List.takeWhile_eq_self_iff, hkeptAll]
        intro m hm
        obtain ⟨hmem, hsubscribed⟩ := List.mem_filter.mp hm
        exact hgoing m hmem hsubscribed
      rw [hgiven, hwhile, hkeptAll, List.filterMap_filter]
      apply List.filterMap_congr
      intro m _
      cases hsubscribed : subscribed registered (wires.message m).key with
      | true => exact if_pos rfl
      | false => exact (fed_of_not_subscribed wires c i hsubscribed).symm
    · intro S agg R h w init hw horder last hlast k j hk hwindow hevents
      exact at?_feed R hw horder hlast hk hwindow hevents

end

def wires : Wires where
  marketData := ⟨RecordWire.marketData.put, RecordWire.marketData.parse,
    RecordWire.marketData.parse_put⟩
  marketDepth := ⟨RecordWire.marketDepth.put, RecordWire.marketDepth.parse,
    RecordWire.marketDepth.parse_put⟩
  marketData_ne_nil m := by
    simp [RecordWire.marketData, Wire.iso, Wire.pair, RecordWire.uint64, Wire.nat]
  marketDepth_ne_nil m := by
    simp [RecordWire.marketDepth, Wire.iso, Wire.pair, RecordWire.uint64, Wire.nat]

def sizesOfA : List (Text × Handler) :=
  [("A.STK".toList, .marketData [.int "BID_SIZE".toList ⟨0, fun _ _ => false⟩]),
    (dataEnd.key, .stop)]

def sizeLine (micros id size : Nat) : Text :=
  LogRecord.pairsText '=' ',' [("ts_utc".toList, decimal micros),
    ("event".toList, "tickSize".toList), ("tickerId".toList, decimal id),
    ("field".toList, "BID_SIZE".toList), ("size".toList, decimal size)]

/-- Three ticks of a size, and one of another symbol between them. -/
def logOfA : Text :=
  [' '].intercalate [LogReader.requestLine 7 ['A'], LogReader.requestLine 8 ['B'],
    sizeLine 11000000 7 4,
    sizeLine 12000000 7 8, sizeLine 13000000 8 5, sizeLine 31000000 7 9]

def morning : LogReader.Options where
  eastern _ := LogReader.timeOfDay 10 0

def deliveredOfA : List TypedMessage :=
  (dispatchEvents wires morning logOfA).filter fun m => subscribed sizesOfA m.key

theorem playback_shows_windows_sizes :
    (listen wires sizesOfA deliveredOfA).ended = true ∧
      inputs Channel.int 0 (invoked wires sizesOfA deliveredOfA) =
        [(11000000, 4), (12000000, 8), (31000000, 9)] ∧
      ((new (Sampler.latest : Sampler Int32) 40000000 10000000 0).feed
          (inputs Channel.int 0 (invoked wires sizesOfA deliveredOfA))).2.at? (-2) = some 8 := by
  have hkeys : RegularKeys sizesOfA := by
    intro k bindings hlookup
    unfold sizesOfA at hlookup
    rw [List.lookup_cons, List.lookup_cons] at hlookup
    split at hlookup
    · rename_i hk
      rw [beq_iff_eq.mp hk]
      decide
    · split at hlookup
      · cases hlookup
      · cases hlookup
  obtain ⟨kept, ended, -, -, -, hall⟩ := playback_shows_windows wires sizesOfA hkeys morning logOfA
    (List.Sublist.refl deliveredOfA)
  obtain ⟨-, -, hshows⟩ := hall Channel.int 0
  have hrun : (listen wires sizesOfA deliveredOfA).ended = true ∧
      inputs Channel.int 0 (invoked wires sizesOfA deliveredOfA) =
        [(11000000, 4), (12000000, 8), (31000000, 9)] := by
    decide +kernel
  refine ⟨hrun.1, hrun.2, ?_⟩
  rw [hrun.2] at hshows ⊢
  have horder : InOrder 10000000
      [((11000000 : Microsecond), (4 : Int32)), (12000000, 8), (31000000, 9)] := by
    refine ⟨by simp, ?_⟩
    simp only [List.isChain_cons_cons, List.isChain_singleton, and_true]
    decide
  have hlast : ((31000000 : Microsecond), (9 : Int32)) ∈
      [((11000000 : Microsecond), (4 : Int32)), (12000000, 8), (31000000, 9)].getLast? := rfl
  exact hshows Sampler.reportsLatest 40000000 10000000 0 (by decide) horder _ hlast 2 1
    (by decide) (by decide) (by decide)

end Atp.MarketDataAgent

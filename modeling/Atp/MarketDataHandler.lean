import Atp.LexicalCast
import Atp.RecordWire
import Mathlib.Data.List.AList

/-!
Market data dispatched by the type of its value and by its event code, to the
callback that was bound first.
-/

namespace Atp.MarketDataHandler

namespace ErrorCode

def dispatched : Int32 := 1

def noUpdaterContinue : Int32 := 2

def exception : Int32 := -200

/-- What `process_event` returns for a text that is no message. -/
def notDeserialized : Int32 := -1

end ErrorCode

/-- `update_event<V>::func`, with the arguments that it throws on. -/
structure Callback (V : Type) where
  id : Nat
  throws : UInt64 → V → Bool

structure Call (V : Type) where
  callback : Callback V
  ts : UInt64
  value : V

/-! ### The dispatchers -/

abbrev TypedDispatcher (V : Type) := AList fun _ : Text => Callback V

namespace TypedDispatcher

variable {V : Type}

/-- `insert` into a map leaves an entry that is there. -/
def bind (d : TypedDispatcher V) (eventCode : Text) (cb : Callback V) : TypedDispatcher V :=
  if eventCode ∈ d then d else d.insert eventCode cb

def dispatch (d : TypedDispatcher V) (event : Text) (ts : UInt64) (v : V) :
    Int32 × List (Call V) :=
  match d.lookup event with
  | some cb =>
      (if cb.throws ts v then ErrorCode.exception else ErrorCode.dispatched, [⟨cb, ts, v⟩])
  | none => (ErrorCode.noUpdaterContinue, [])

end TypedDispatcher

inductive Binding where
  | double (event : Text) (updater : Callback Double)
  | int (event : Text) (updater : Callback Int32)
  | string (event : Text) (updater : Callback Text)
  | timestamp (event : Text) (updater : Callback UInt64)

inductive Invocation where
  | double (call : Call Double)
  | int (call : Call Int32)
  | string (call : Call Text)
  | timestamp (call : Call UInt64)

structure ValueUpdater where
  intDispatcher : TypedDispatcher Int32 := ∅
  doubleDispatcher : TypedDispatcher Double := ∅
  stringDispatcher : TypedDispatcher Text := ∅
  timestampDispatcher : TypedDispatcher UInt64 := ∅

namespace ValueUpdater

def bind (u : ValueUpdater) : Binding → ValueUpdater
  | .double event updater =>
      { u with doubleDispatcher := u.doubleDispatcher.bind event updater }
  | .int event updater => { u with intDispatcher := u.intDispatcher.bind event updater }
  | .string event updater =>
      { u with stringDispatcher := u.stringDispatcher.bind event updater }
  | .timestamp event updater =>
      { u with timestampDispatcher := u.timestampDispatcher.bind event updater }

/-- `operator()`.  A message has one of the four types, and the conversion of an
`int64` to the `int` of a callback keeps the low bits. -/
def update (u : ValueUpdater) (ts : UInt64) (eventCode : Text) (event : MarketData) :
    Int32 × List Invocation :=
  match event.value.type with
  | .double =>
      (u.doubleDispatcher.dispatch eventCode ts (event.value.doubleValue.getD ⟨0⟩)).map
        id (List.map .double)
  | .int =>
      (u.intDispatcher.dispatch eventCode ts (event.value.intValue.getD 0).toInt32).map
        id (List.map .int)
  | .string =>
      (u.stringDispatcher.dispatch eventCode ts (event.value.stringValue.getD [])).map
        id (List.map .string)
  | .timestamp =>
      (u.timestampDispatcher.dispatch eventCode ts
        (event.value.timestampValue.getD 0).toUInt64).map id (List.map .timestamp)

end ValueUpdater

def processEvent (deserialize : Text → Option MarketData) (updaters : ValueUpdater) (msg : Text) :
    Int32 × List Invocation :=
  match deserialize msg with
  | some event => updaters.update event.timestamp event.event event
  | none => (ErrorCode.notDeserialized, [])

def bound (bindings : List Binding) : ValueUpdater := bindings.foldl ValueUpdater.bind {}

/-! ### What is bound first -/

namespace Binding

def double? : Binding → Option (Text × Callback Double)
  | double event updater => some (event, updater)
  | _ => none

def int? : Binding → Option (Text × Callback Int32)
  | int event updater => some (event, updater)
  | _ => none

def string? : Binding → Option (Text × Callback Text)
  | string event updater => some (event, updater)
  | _ => none

def timestamp? : Binding → Option (Text × Callback UInt64)
  | timestamp event updater => some (event, updater)
  | _ => none

end Binding

/-- The callback of one type that is bound first for an event code. -/
def first {V : Type} (type : Binding → Option (Text × Callback V)) (bindings : List Binding)
    (event : Text) : Option (Callback V) :=
  (bindings.filterMap type).lookup event

theorem TypedDispatcher.lookup_bind {V : Type} (d : TypedDispatcher V) (eventCode event : Text)
    (cb : Callback V) :
    (d.bind eventCode cb).lookup event =
      (d.lookup event).or (if event = eventCode then some cb else none) := by
  unfold bind
  split_ifs with hmem heq heq
  · obtain ⟨found, hfound⟩ := Option.isSome_iff_exists.mp (AList.lookup_isSome.mpr hmem)
    rw [heq, hfound]
    rfl
  · rw [Option.or_none]
  · rw [heq, AList.lookup_insert, AList.lookup_eq_none.mpr hmem]
    rfl
  · rw [AList.lookup_insert_ne heq, Option.or_none]

/-- A dispatcher that takes the bindings of one type holds the first of each. -/
theorem lookup_foldl {V : Type} {type : Binding → Option (Text × Callback V)}
    {dispatcher : ValueUpdater → TypedDispatcher V}
    (hbind : ∀ u b, dispatcher (u.bind b) =
      (type b).elim (dispatcher u) fun p => (dispatcher u).bind p.1 p.2)
    (bindings : List Binding) (u : ValueUpdater) (event : Text) :
    (dispatcher (bindings.foldl ValueUpdater.bind u)).lookup event =
      ((dispatcher u).lookup event).or (first type bindings event) := by
  induction bindings generalizing u with
  | nil => exact (Option.or_none).symm
  | cons b bindings ih =>
      rw [List.foldl_cons, ih, hbind, first, first]
      cases htype : type b with
      | none =>
          rw [List.filterMap_cons_none htype]
          rfl
      | some p =>
          rw [List.filterMap_cons_some htype, List.lookup_cons, Option.elim_some,
            TypedDispatcher.lookup_bind, Option.or_assoc]
          refine congrArg (Option.or _) ?_
          by_cases hevent : event = p.1
          · rw [if_pos hevent, beq_iff_eq.mpr hevent]
            rfl
          · rw [if_neg hevent, beq_eq_false_iff_ne.mpr hevent]
            rfl

theorem lookup_bound {V : Type} {type : Binding → Option (Text × Callback V)}
    {dispatcher : ValueUpdater → TypedDispatcher V}
    (hbind : ∀ u b, dispatcher (u.bind b) =
      (type b).elim (dispatcher u) fun p => (dispatcher u).bind p.1 p.2)
    (hempty : dispatcher {} = ∅) (bindings : List Binding) (event : Text) :
    (dispatcher (bound bindings)).lookup event = first type bindings event := by
  rw [bound, lookup_foldl hbind, hempty, AList.lookup_empty]
  rfl

/-! ### What is invoked -/

namespace Invocation

/-- Its callback is the first of its type for the event code. -/
def IsFirst (bindings : List Binding) (event : Text) : Invocation → Prop
  | double call => first Binding.double? bindings event = some call.callback
  | int call => first Binding.int? bindings event = some call.callback
  | string call => first Binding.string? bindings event = some call.callback
  | timestamp call => first Binding.timestamp? bindings event = some call.callback

def ts : Invocation → UInt64
  | double call => call.ts
  | int call => call.ts
  | string call => call.ts
  | timestamp call => call.ts

/-- It has the type of the message and the value in it, as a number or as a text. -/
def Carries (value : Value) : Invocation → Prop
  | double call => value.type = .double ∧ call.value = value.doubleValue.getD ⟨0⟩
  | int call => value.type = .int ∧ call.value.toInt = (value.intValue.getD 0).toInt
  | string call => value.type = .string ∧ call.value = value.stringValue.getD []
  | timestamp call =>
      value.type = .timestamp ∧ (call.value.toNat : Int) = (value.timestampValue.getD 0).toInt

def Throws : Invocation → Prop
  | double call => call.callback.throws call.ts call.value = true
  | int call => call.callback.throws call.ts call.value = true
  | string call => call.callback.throws call.ts call.value = true
  | timestamp call => call.callback.throws call.ts call.value = true

end Invocation

/-- A callback of the type of the message is bound for its event code. -/
def IsBound (bindings : List Binding) (event : MarketData) : Prop :=
  match event.value.type with
  | .double => first Binding.double? bindings event.event ≠ none
  | .int => first Binding.int? bindings event.event ≠ none
  | .string => first Binding.string? bindings event.event ≠ none
  | .timestamp => first Binding.timestamp? bindings event.event ≠ none

structure Right (bindings : List Binding) (event : MarketData)
    (result : Int32 × List Invocation) : Prop where
  at_most_one : result.2.length ≤ 1
  invokes : IsBound bindings event → result.2 ≠ []
  first : ∀ i ∈ result.2, i.IsFirst bindings event.event
  exact : ∀ i ∈ result.2, i.ts = event.timestamp ∧ i.Carries event.value
  dispatched : result.1 = ErrorCode.dispatched ↔ ∃ i ∈ result.2, ¬ i.Throws

/-- The value has a place in the type of the callbacks. -/
def Fits (value : Value) : Prop :=
  match value.type with
  | .int => -2147483648 ≤ (value.intValue.getD 0).toInt ∧
      (value.intValue.getD 0).toInt < 2147483648
  | .timestamp => 0 ≤ (value.timestampValue.getD 0).toInt
  | .double | .string => True

theorem toInt_toInt32_iff (v : Int64) :
    v.toInt32.toInt = v.toInt ↔ -2147483648 ≤ v.toInt ∧ v.toInt < 2147483648 := by
  constructor
  · intro heq
    exact heq ▸ ⟨v.toInt32.le_toInt, v.toInt32.toInt_lt⟩
  · rintro ⟨hlow, hhigh⟩
    rw [Int64.toInt_toInt32]
    exact Int.bmod_eq_of_le (by omega) (by omega)

theorem toNat_toUInt64_iff (v : Int64) : (v.toUInt64.toNat : Int) = v.toInt ↔ 0 ≤ v.toInt := by
  constructor
  · intro heq
    exact heq ▸ Int.natCast_nonneg _
  · exact LexicalCast.toNat_toUInt64

section

variable {V : Type} {d : TypedDispatcher V} {wrap : Call V → Invocation}
  {bindings : List Binding} {event : MarketData}

/-- A dispatcher does right by a message if what it delivers is the value in it. -/
theorem right_dispatch_iff {v : V} {P : Prop}
    (hfirst : ∀ call, (wrap call).IsFirst bindings event.event ↔
      d.lookup event.event = some call.callback)
    (hts : ∀ call, (wrap call).ts = call.ts)
    (hthrows : ∀ call, (wrap call).Throws ↔ call.callback.throws call.ts call.value = true)
    (hbound : IsBound bindings event ↔ d.lookup event.event ≠ none)
    (hcarries : ∀ cb, (wrap ⟨cb, event.timestamp, v⟩).Carries event.value ↔ P) :
    Right bindings event
        ((d.dispatch event.event event.timestamp v).map id (List.map wrap)) ↔
      (IsBound bindings event → P) := by
  unfold TypedDispatcher.dispatch
  cases hlookup : d.lookup event.event with
  | none =>
      have hunbound : ¬ IsBound bindings event := fun h => hbound.mp h hlookup
      refine iff_of_true ⟨?_, ?_, ?_, ?_, ?_⟩ fun h => absurd h hunbound
      · exact Nat.zero_le 1
      · exact fun h => absurd h hunbound
      · exact fun i hi => absurd hi List.not_mem_nil
      · exact fun i hi => absurd hi List.not_mem_nil
      · refine iff_of_false (by decide : ErrorCode.noUpdaterContinue ≠ ErrorCode.dispatched) ?_
        rintro ⟨i, hi, -⟩
        exact List.not_mem_nil hi
  | some cb =>
      have hisBound : IsBound bindings event := hbound.mpr (hlookup ▸ Option.some_ne_none cb)
      constructor
      · intro hright _
        exact (hcarries cb).mp (hright.exact _ List.mem_cons_self).2
      · intro h
        refine ⟨le_rfl, fun _ => List.cons_ne_nil _ _, ?_, ?_, ?_⟩
        · exact List.forall_mem_singleton.mpr ((hfirst _).mpr hlookup)
        · exact List.forall_mem_singleton.mpr ⟨hts _, (hcarries cb).mpr (h hisBound)⟩
        · change (if cb.throws event.timestamp v = true then ErrorCode.exception
            else ErrorCode.dispatched) = ErrorCode.dispatched ↔
              ∃ i ∈ [wrap ⟨cb, event.timestamp, v⟩], ¬ i.Throws
          simp only [List.mem_singleton, exists_eq_left, hthrows]
          split_ifs with hthrow
          · exact iff_of_false (by decide) (not_not.mpr hthrow)
          · exact iff_of_true rfl hthrow

end

theorem lookup_double (bindings : List Binding) (event : Text) :
    (bound bindings).doubleDispatcher.lookup event = first Binding.double? bindings event :=
  lookup_bound (fun _ b => by cases b <;> rfl) rfl bindings event

theorem lookup_int (bindings : List Binding) (event : Text) :
    (bound bindings).intDispatcher.lookup event = first Binding.int? bindings event :=
  lookup_bound (fun _ b => by cases b <;> rfl) rfl bindings event

theorem lookup_string (bindings : List Binding) (event : Text) :
    (bound bindings).stringDispatcher.lookup event = first Binding.string? bindings event :=
  lookup_bound (fun _ b => by cases b <;> rfl) rfl bindings event

theorem lookup_timestamp (bindings : List Binding) (event : Text) :
    (bound bindings).timestampDispatcher.lookup event =
      first Binding.timestamp? bindings event :=
  lookup_bound (fun _ b => by cases b <;> rfl) rfl bindings event

theorem right_update_iff (bindings : List Binding) (event : MarketData) :
    Right bindings event ((bound bindings).update event.timestamp event.event event) ↔
      (IsBound bindings event → Fits event.value) := by
  cases htype : event.value.type with
  | double =>
      rw [ValueUpdater.update, htype]
      refine right_dispatch_iff (fun call => ?_) (fun _ => rfl) (fun _ => Iff.rfl) ?_ fun cb => ?_
      · rw [lookup_double]
        rfl
      · rw [lookup_double, IsBound, htype]
      · rw [Fits, htype]
        exact iff_of_true ⟨htype, rfl⟩ trivial
  | int =>
      rw [ValueUpdater.update, htype]
      refine right_dispatch_iff (fun call => ?_) (fun _ => rfl) (fun _ => Iff.rfl) ?_ fun cb => ?_
      · rw [lookup_int]
        rfl
      · rw [lookup_int, IsBound, htype]
      · rw [Fits, htype, ← toInt_toInt32_iff]
        exact and_iff_right htype
  | string =>
      rw [ValueUpdater.update, htype]
      refine right_dispatch_iff (fun call => ?_) (fun _ => rfl) (fun _ => Iff.rfl) ?_ fun cb => ?_
      · rw [lookup_string]
        rfl
      · rw [lookup_string, IsBound, htype]
      · rw [Fits, htype]
        exact iff_of_true ⟨htype, rfl⟩ trivial
  | timestamp =>
      rw [ValueUpdater.update, htype]
      refine right_dispatch_iff (fun call => ?_) (fun _ => rfl) (fun _ => Iff.rfl) ?_ fun cb => ?_
      · rw [lookup_timestamp]
        rfl
      · rw [lookup_timestamp, IsBound, htype]
      · rw [Fits, htype, ← toNat_toUInt64_iff]
        exact and_iff_right htype

theorem marketdata_handler_right_iff (deserialize : Text → Option MarketData)
    (bindings : List Binding) {msg : Text} {event : MarketData}
    (hmsg : deserialize msg = some event) :
    Right bindings event (processEvent deserialize (bound bindings) msg) ↔
      (IsBound bindings event → Fits event.value) := by
  rw [processEvent, hmsg]
  exact right_update_iff bindings event

/-- Two callbacks for the bid size, the first of which throws on sizes above 1000. -/
def sizeBindings : List Binding :=
  [.int "BID_SIZE".toList ⟨0, fun _ v => 1000 < v⟩, .int "BID_SIZE".toList ⟨1, fun _ _ => false⟩]

def sizeMessage (v : Int64) : MarketData where
  timestamp := 1356998400000000
  symbol := "AAPL.STK".toList
  event := "BID_SIZE".toList
  value := { type := .int, intValue := some v }
  contractId := 4391

theorem marketdata_handler_right_size :
    Right sizeBindings (sizeMessage 300)
      (processEvent RecordWire.marketData.parse (bound sizeBindings)
        (RecordWire.marketData.put (sizeMessage 300))) :=
  (marketdata_handler_right_iff RecordWire.marketData.parse sizeBindings
    (Wire.parse_put RecordWire.marketData (sizeMessage 300))).mpr
      fun _ => ⟨by decide, by decide⟩

/-- A size of `2 ^ 32 + 5` is delivered as 5. -/
theorem marketdata_handler_narrows :
    processEvent RecordWire.marketData.parse (bound sizeBindings)
        (RecordWire.marketData.put (sizeMessage 4294967301)) =
      (ErrorCode.dispatched, [.int ⟨⟨0, fun _ v => 1000 < v⟩, 1356998400000000, 5⟩]) ∧
    ¬ Right sizeBindings (sizeMessage 4294967301)
      (processEvent RecordWire.marketData.parse (bound sizeBindings)
        (RecordWire.marketData.put (sizeMessage 4294967301))) := by
  have hresult : processEvent RecordWire.marketData.parse (bound sizeBindings)
        (RecordWire.marketData.put (sizeMessage 4294967301)) =
      (ErrorCode.dispatched, [.int ⟨⟨0, fun _ v => 1000 < v⟩, 1356998400000000, 5⟩]) := by
    rw [processEvent, Wire.parse_put]
    rfl
  refine ⟨hresult, fun hright => ?_⟩
  rw [hresult] at hright
  exact absurd (hright.exact _ List.mem_cons_self).2.2 (by decide)

end Atp.MarketDataHandler

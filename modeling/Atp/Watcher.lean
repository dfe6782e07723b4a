import Atp.Runs
import Mathlib.Algebra.Order.Field.Rat
import Mathlib.Data.List.Induction
import Mathlib.Data.List.Infix
import Mathlib.Data.UInt
import Mathlib.Tactic.Linarith

/-!
The watcher: a record of the latest market data of one symbol, with what is derived
from it.  Prices are exact.
-/

namespace Atp.Watcher

/-- A `ptime` of the calendar, in microseconds since the epoch. -/
structure Ptime where
  micros : Nat
  in_calendar : micros < 253402300800000000

/-- `state_t::event`; only a timestamp is bound with `TIME_CHECK`. -/
inductive StateEvent : Type → Type 1 where
  | other {V : Type} : StateEvent V
  | last {V : Type} : StateEvent V
  | timeCheck : StateEvent UInt64

/-- `state_t`.  A time that is not set is no date. -/
structure State where
  bid : ℚ := 0
  ask : ℚ := 0
  last : ℚ := 0
  prevLast : ℚ := 0
  mid : ℚ := 0
  spread : ℚ := 0
  bidSize : Int32 := 0
  askSize : Int32 := 0
  lastSize : Int32 := 0
  balance : ℚ := 0
  ct : Option Ptime := none
  lastTimestamp : UInt64 := 0
  countTimestampDrift : Nat := 0
  countTimeLapse : Nat := 0

structure Flags where
  maxTimeLapseMillis : Int32 := 10000
  driftMillis : Int32 := 1500

/-! ### One update -/

/-- The result of a sum or a difference of two `int`s; an overflow has no value. -/
def checked (v : Int) : Option Int :=
  if -2147483648 ≤ v ∧ v < 2147483648 then some v else none

def balanceOf (bidSize askSize : Int32) : Option ℚ := do
  let totalTop ← checked (bidSize.toInt + askSize.toInt)
  if totalTop ≠ 0 then
    let difference ← checked (bidSize.toInt - askSize.toInt)
    some (100 * difference / totalTop)
  else some 0

/-- A comparison with a time that is no date is false. -/
def lapsed (flags : Flags) (t : Ptime) : Option Ptime → Bool
  | none => false
  | some ct => flags.maxTimeLapseMillis.toInt * 1000 < (t.micros : Int) - ct.micros

def drifted (flags : Flags) (t : Ptime) (v : UInt64) : Bool :=
  flags.driftMillis.toInt * 1000 ≤ (t.micros : Int) - (v * 1000000).toNat

def rememberLast {V : Type} (state : State) : StateEvent V → State
  | .last => { state with prevLast := state.last }
  | _ => state

def countLapse (flags : Flags) (t : Ptime) (state : State) : State :=
  if lapsed flags t state.ct then { state with countTimeLapse := state.countTimeLapse + 1 }
  else state

/-- What `update` does before it computes what is derived. -/
def store {V : Type} (flags : Flags) (t : Ptime) (v : V) (stateVar : State → V → State)
    (state : State) (e : StateEvent V) : State :=
  let state := countLapse flags t (rememberLast state e)
  stateVar { state with ct := some t } v

def checkTime {V : Type} (flags : Flags) (t : Ptime) (v : V) (state : State) :
    StateEvent V → State
  | .timeCheck =>
      if drifted flags t v then { state with countTimestampDrift := state.countTimestampDrift + 1 }
      else state
  | _ => state

def update {V : Type} [Zero V] [DecidableEq V] (flags : Flags) (t : Ptime) (v : V)
    (stateVar : State → V → State) (state : State) (e : StateEvent V) : Option State :=
  if v = 0 then some state
  else do
    let state := store flags t v stateVar state e
    let balance ← balanceOf state.bidSize state.askSize
    let state := { state with
      spread := state.ask - state.bid
      mid := (state.bid + state.ask) / 2
      balance }
    some (checkTime flags t v state e)

/-! ### The bindings -/

/-- A value under the event code that its callback is bound to. -/
inductive Update where
  | bid (v : ℚ)
  | ask (v : ℚ)
  | last (v : ℚ)
  | bidSize (v : Int32)
  | askSize (v : Int32)
  | lastSize (v : Int32)
  | lastTimestamp (v : UInt64)

def on (flags : Flags) (state : State) (t : Ptime) : Update → Option State
  | .bid v => update flags t v (fun s v => { s with bid := v }) state .other
  | .ask v => update flags t v (fun s v => { s with ask := v }) state .other
  | .last v => update flags t v (fun s v => { s with last := v }) state .last
  | .bidSize v => update flags t v (fun s v => { s with bidSize := v }) state .other
  | .askSize v => update flags t v (fun s v => { s with askSize := v }) state .other
  | .lastSize v => update flags t v (fun s v => { s with lastSize := v }) state .other
  | .lastTimestamp v =>
      update flags t v (fun s v => { s with lastTimestamp := v }) state .timeCheck

abbrev Event := Ptime × Update

def step (flags : Flags) (state : State) (event : Event) : Option State :=
  on flags state event.1 event.2

/-! ### Raw fields -/

/-- The fields that the callbacks are bound to. -/
@[ext]
structure Raw where
  bid : ℚ
  ask : ℚ
  last : ℚ
  bidSize : Int32
  askSize : Int32
  lastSize : Int32
  lastTimestamp : UInt64

def State.raw (state : State) : Raw where
  bid := state.bid
  ask := state.ask
  last := state.last
  bidSize := state.bidSize
  askSize := state.askSize
  lastSize := state.lastSize
  lastTimestamp := state.lastTimestamp

def Raw.set (r : Raw) : Update → Raw
  | .bid v => { r with bid := v }
  | .ask v => { r with ask := v }
  | .last v => { r with last := v }
  | .bidSize v => { r with bidSize := v }
  | .askSize v => { r with askSize := v }
  | .lastSize v => { r with lastSize := v }
  | .lastTimestamp v => { r with lastTimestamp := v }

namespace Update

def bid? : Update → Option ℚ
  | bid v => some v
  | _ => none

def ask? : Update → Option ℚ
  | ask v => some v
  | _ => none

def last? : Update → Option ℚ
  | last v => some v
  | _ => none

def bidSize? : Update → Option Int32
  | bidSize v => some v
  | _ => none

def askSize? : Update → Option Int32
  | askSize v => some v
  | _ => none

def lastSize? : Update → Option Int32
  | lastSize v => some v
  | _ => none

def lastTimestamp? : Update → Option UInt64
  | lastTimestamp v => some v
  | _ => none

def Nonzero : Update → Prop
  | bid v | ask v | last v => v ≠ 0
  | bidSize v | askSize v | lastSize v => v ≠ 0
  | lastTimestamp v => v ≠ 0

instance : DecidablePred Nonzero
  | bid v | ask v | last v => inferInstanceAs (Decidable (v ≠ 0))
  | bidSize v | askSize v | lastSize v => inferInstanceAs (Decidable (v ≠ 0))
  | lastTimestamp v => inferInstanceAs (Decidable (v ≠ 0))

end Update

/-- The value of the latest event of a kind, or that of a new record. -/
def latest {V : Type} [Zero V] (kind : Update → Option V) (events : List Event) : V :=
  ((events.filterMap fun e => kind e.2).getLast?).getD 0

def latestRaw (events : List Event) : Raw where
  bid := latest Update.bid? events
  ask := latest Update.ask? events
  last := latest Update.last? events
  bidSize := latest Update.bidSize? events
  askSize := latest Update.askSize? events
  lastSize := latest Update.lastSize? events
  lastTimestamp := latest Update.lastTimestamp? events

/-- The events that are not ignored. -/
def kept (events : List Event) : List Event := events.filter fun e => e.2.Nonzero

theorem latest_concat {V : Type} [Zero V] (kind : Update → Option V) (events : List Event)
    (e : Event) :
    latest kind (events ++ [e]) = (kind e.2).getD (latest kind events) := by
  rw [latest, List.filterMap_append]
  cases hkind : kind e.2 with
  | none =>
      rw [List.filterMap_cons_none (f := fun e : Event => kind e.2) hkind, List.filterMap_nil,
        List.append_nil]
      rfl
  | some v =>
      rw [List.filterMap_cons_some (f := fun e : Event => kind e.2) hkind, List.filterMap_nil,
        List.getLast?_concat]
      rfl

theorem latestRaw_concat (events : List Event) (e : Event) :
    latestRaw (events ++ [e]) = (latestRaw events).set e.2 := by
  unfold latestRaw
  simp only [latest_concat]
  cases e.2 <;> rfl

theorem kept_concat_of_nonzero (events : List Event) {e : Event} (he : e.2.Nonzero) :
    kept (events ++ [e]) = kept events ++ [e] := by
  rw [kept, List.filter_append, List.filter_cons_of_pos (by simpa using he)]
  rfl

theorem kept_concat_of_zero (events : List Event) {e : Event} (he : ¬ e.2.Nonzero) :
    kept (events ++ [e]) = kept events := by
  rw [kept, List.filter_append, List.filter_cons_of_neg (by simpa using he), List.filter_nil,
    List.append_nil]
  rfl

/-! ### The balance -/

def InInt (v : Int) : Prop := -2147483648 ≤ v ∧ v < 2147483648

/-- The sum of the two sizes is an `int`, and unless it is zero so is their
difference. -/
structure Fits (r : Raw) : Prop where
  total : InInt (r.bidSize.toInt + r.askSize.toInt)
  difference : r.bidSize.toInt + r.askSize.toInt ≠ 0 → InInt (r.bidSize.toInt - r.askSize.toInt)

instance (v : Int) : Decidable (InInt v) := inferInstanceAs (Decidable (_ ∧ _))

instance (r : Raw) : Decidable (Fits r) :=
  decidable_of_iff (InInt (r.bidSize.toInt + r.askSize.toInt) ∧
      (r.bidSize.toInt + r.askSize.toInt ≠ 0 → InInt (r.bidSize.toInt - r.askSize.toInt)))
    ⟨fun h => ⟨h.1, h.2⟩, fun h => ⟨h.total, h.difference⟩⟩

def exactBalance (bidSize askSize : ℚ) : ℚ :=
  if bidSize + askSize = 0 then 0 else 100 * (bidSize - askSize) / (bidSize + askSize)

theorem checked_of_inInt {v : Int} (hv : InInt v) : checked v = some v := if_pos hv

theorem balanceOf_of_fits {r : Raw} (hr : Fits r) :
    balanceOf r.bidSize r.askSize = some (exactBalance r.bidSize.toInt r.askSize.toInt) := by
  have hcast : (r.bidSize.toInt : ℚ) + r.askSize.toInt =
      ((r.bidSize.toInt + r.askSize.toInt : Int) : ℚ) := by push_cast; rfl
  rw [balanceOf, checked_of_inInt hr.total, exactBalance, hcast]
  simp only [Option.bind_eq_bind, Option.bind_some]
  by_cases htotal : r.bidSize.toInt + r.askSize.toInt = 0
  · rw [if_neg (not_not.mpr htotal), if_pos (by exact_mod_cast htotal)]
  · rw [if_pos htotal, if_neg (by exact_mod_cast htotal), checked_of_inInt (hr.difference htotal)]
    refine congrArg some ?_
    push_cast
    rfl

theorem exactBalance_bounded {bidSize askSize : ℚ} (hbid : 0 ≤ bidSize) (hask : 0 ≤ askSize) :
    -100 ≤ exactBalance bidSize askSize ∧ exactBalance bidSize askSize ≤ 100 := by
  unfold exactBalance
  split_ifs with htotal
  · norm_num
  · have hpos : 0 < bidSize + askSize := lt_of_le_of_ne (add_nonneg hbid hask) (Ne.symm htotal)
    rw [le_div_iff₀ hpos, div_le_iff₀ hpos]
    constructor <;> linarith

/-! ### Runs -/

structure Derived (s : State) : Prop where
  spread : s.spread = s.ask - s.bid
  mid : s.mid = (s.bid + s.ask) / 2
  balance : s.balance = exactBalance s.bidSize.toInt s.askSize.toInt

structure Agrees (events : List Event) (s : State) : Prop where
  raw : s.raw = latestRaw (kept events)
  derived : Derived s
  bounded : 0 ≤ s.bidSize.toInt → 0 ≤ s.askSize.toInt → -100 ≤ s.balance ∧ s.balance ≤ 100

theorem raw_checkTime {V : Type} (flags : Flags) (t : Ptime) (v : V) (s : State)
    (e : StateEvent V) : (checkTime flags t v s e).raw = s.raw := by
  cases e with
  | timeCheck =>
      rw [checkTime]
      split_ifs <;> rfl
  | other => rfl
  | last => rfl

theorem derived_checkTime {V : Type} (flags : Flags) (t : Ptime) (v : V) {s : State}
    (hs : Derived s) (e : StateEvent V) : Derived (checkTime flags t v s e) := by
  cases e with
  | timeCheck =>
      rw [checkTime]
      split_ifs
      · exact ⟨hs.spread, hs.mid, hs.balance⟩
      · exact hs
  | other => exact hs
  | last => exact hs

theorem raw_rememberLast {V : Type} (s : State) (e : StateEvent V) :
    (rememberLast s e).raw = s.raw := by
  cases e <;> rfl

theorem raw_countLapse (flags : Flags) (t : Ptime) (s : State) :
    (countLapse flags t s).raw = s.raw := by
  unfold countLapse
  split_ifs <;> rfl

/-- An update that is not ignored sets its field, and then everything derived. -/
theorem update_of_fits {V : Type} [Zero V] [DecidableEq V] (flags : Flags) (t : Ptime) {v : V}
    (hv : v ≠ 0) {stateVar : State → V → State} {s : State} (e : StateEvent V) {u : Update}
    (hvar : ∀ s, (stateVar s v).raw = s.raw.set u) (hfits : Fits (s.raw.set u)) :
    ∃ s', update flags t v stateVar s e = some s' ∧ s'.raw = s.raw.set u ∧ Derived s' := by
  have hstore : (store flags t v stateVar s e).raw = s.raw.set u := by
    rw [store, hvar]
    change (countLapse flags t (rememberLast s e)).raw.set u = _
    rw [raw_countLapse, raw_rememberLast]
  have hbalance := balanceOf_of_fits (hstore ▸ hfits)
  change balanceOf (store flags t v stateVar s e).bidSize (store flags t v stateVar s e).askSize =
    some _ at hbalance
  rw [update, if_neg hv]
  simp only [hbalance, Option.bind_eq_bind, Option.bind_some]
  refine ⟨_, rfl, ?_, derived_checkTime flags t v ⟨rfl, rfl, rfl⟩ e⟩
  rw [raw_checkTime, ← hstore]
  rfl

theorem step_of_fits (flags : Flags) (s : State) {e : Event} (he : e.2.Nonzero)
    (hfits : Fits (s.raw.set e.2)) :
    ∃ s', step flags s e = some s' ∧ s'.raw = s.raw.set e.2 ∧ Derived s' := by
  obtain ⟨t, u⟩ := e
  cases u <;> exact update_of_fits flags t he _ (fun _ => rfl) hfits

theorem step_of_zero (flags : Flags) (s : State) {e : Event} (he : ¬ e.2.Nonzero) :
    step flags s e = some s := by
  obtain ⟨t, u⟩ := e
  cases u <;> exact if_pos (not_not.mp he)

/-- The sizes fit after each of the events. -/
def AllFit (events : List Event) : Prop :=
  ∀ pre, pre <+: events → Fits (latestRaw (kept pre))

instance (events : List Event) : Decidable (AllFit events) :=
  decidable_of_iff (∀ pre ∈ events.inits, Fits (latestRaw (kept pre))) <|
    forall_congr' fun pre => imp_congr_left (List.mem_inits pre events)

theorem run_of_allFit (flags : Flags) {events : List Event} (hfits : AllFit events) :
    ∃ s, Runs.run (step flags) {} events = some s ∧ s.raw = latestRaw (kept events) ∧
      Derived s := by
  induction events using List.reverseRecOn with
  | nil => exact ⟨{}, rfl, rfl, by norm_num, by norm_num, by norm_num [exactBalance]⟩
  | append_singleton events e ih =>
      obtain ⟨s, hrun, hraw, hderived⟩ :=
        ih fun pre hpre => hfits pre (hpre.trans (List.prefix_append _ _))
      rw [Runs.run_concat, hrun, Option.bind_some]
      by_cases he : e.2.Nonzero
      · have hlatest : latestRaw (kept (events ++ [e])) = s.raw.set e.2 := by
          rw [kept_concat_of_nonzero events he, latestRaw_concat, hraw]
        obtain ⟨s', hstep, hraw', hderived'⟩ :=
          step_of_fits flags s he (hlatest ▸ hfits _ List.prefix_rfl)
        exact ⟨s', hstep, hraw'.trans hlatest.symm, hderived'⟩
      · have hlatest : latestRaw (kept (events ++ [e])) = s.raw := by
          rw [kept_concat_of_zero events he, hraw]
        exact ⟨s, step_of_zero flags s he, hlatest.symm, hderived⟩

theorem watcher_agrees (flags : Flags) {events : List Event} (hfits : AllFit events) :
    ∃ s, Runs.run (step flags) {} events = some s ∧ Agrees events s := by
  obtain ⟨s, hrun, hraw, hderived⟩ := run_of_allFit flags hfits
  refine ⟨s, hrun, hraw, hderived, fun hbid hask => ?_⟩
  rw [hderived.balance]
  exact exactBalance_bounded (by exact_mod_cast hbid) (by exact_mod_cast hask)

/-- The start of the year 2013. -/
def newYear : Ptime := ⟨1356998400000000, by decide⟩

theorem watcher_agrees_sizes :
    ∃ s, Runs.run (step {}) {} [(newYear, .bidSize 300), (newYear, .bidSize 0),
        (newYear, .askSize 100)] = some s ∧
      Agrees [(newYear, .bidSize 300), (newYear, .bidSize 0), (newYear, .askSize 100)] s :=
  watcher_agrees {} (by decide)

/-- A bid of zero leaves the bid before it. -/
theorem watcher_keeps_bid :
    ∃ s, Runs.run (step {}) {} [(newYear, .bid 5), (newYear, .bid 0), (newYear, .ask 7)] =
        some s ∧
      s.bid = 5 ∧
      (latestRaw [(newYear, .bid 5), (newYear, .bid 0), (newYear, .ask 7)]).bid = 0 := by
  have hfits : AllFit [(newYear, .bid 5), (newYear, .bid 0), (newYear, .ask 7)] := by decide
  obtain ⟨s, hrun, hraw, -⟩ := run_of_allFit {} hfits
  exact ⟨s, hrun, congrArg Raw.bid hraw, rfl⟩

end Atp.Watcher

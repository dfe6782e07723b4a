import Atp.DerivedSeries
import Atp.Runs

/-!
The bound on the number of samples that an operation is registered with.  A
derived series is a window in turn, so one window and its own operations are
enough here.
-/

namespace Atp.MinSamples

open MovingWindow DerivedSeries

variable {α : Type} {S : Sampler α}

/-- `operation`, without its ids. -/
structure Operation (α : Type) where
  form : Form
  functor : SeriesFunctor (Argument α) α
  state : functor.State
  minSamples : UInt64
  series : MovingWindow (Sampler.latest : Sampler α)

namespace Operation

/-- The call of the functor, and of the derived series with what it returns. -/
def evaluate (timestamp : Microsecond) (argument : Argument α) (op : Operation α) : Operation α :=
  let result := op.functor.call op.state argument
  { op with
    state := result.1
    series := (op.series.on timestamp result.2).2 }

/-- One pass of the loop over the operations. -/
def compute (timestamp : Microsecond) (arguments : Form → Option (Argument α))
    (op : Operation α) : Operation α :=
  match arguments op.form with
  | some argument => op.evaluate timestamp argument
  | none => op

end Operation

/-- What an operation was registered with, and the windows that its source had
observed when it was evaluated. -/
structure Evaluation where
  minSamples : UInt64
  observed : Nat
deriving DecidableEq

/-- A window with its operations.  The times of its events and the evaluations are
recorded. -/
structure State (S : Sampler α) where
  window : MovingWindow S
  operations : List (Operation α)
  times : List Microsecond
  evaluations : List Evaluation

inductive Action (α : Type) where
  | on (timestamp : Microsecond) (value : α)
  | apply (form : Form) (functor : SeriesFunctor (Argument α) α) (minSamples : UInt64)

/-- The number of distinct windows that some events fall into. -/
def observed (interval : Microsecond) (times : List Microsecond) : Nat :=
  (times.map (windowOf interval)).dedup.length

/-- The operations that are evaluated with these arguments. -/
def evaluated (arguments : Form → Option (Argument α)) (operations : List (Operation α)) :
    List (Operation α) :=
  operations.filter fun op => (arguments op.form).isSome

def State.on (s : State S) (timestamp : Microsecond) (value : α) : State S :=
  let window := (s.window.on timestamp value).2
  let times := s.times ++ [timestamp]
  { window
    operations := s.operations.map (Operation.compute timestamp (arguments window))
    times
    evaluations := s.evaluations ++ (evaluated (arguments window) s.operations).map fun op =>
      ⟨op.minSamples, observed window.interval times⟩ }

/-- `apply`, `apply2` and `apply3`. -/
def State.apply (s : State S) (form : Form) (functor : SeriesFunctor (Argument α) α)
    (minSamples : UInt64) : State S :=
  let series := MovingWindow.new Sampler.latest s.window.historyDuration s.window.interval
    s.window.init
  { s with operations := s.operations ++ [⟨form, functor, functor.init, minSamples, series⟩] }

def step (s : State S) : Action α → Option (State S)
  | .on timestamp value => some (s.on timestamp value)
  | .apply form functor minSamples => some (s.apply form functor minSamples)

def initial (S : Sampler α) (p : Parameters α) : State S := ⟨p.new S, [], [], []⟩

/-- No operation was evaluated before its source had observed enough windows. -/
def Kept (s : State S) : Prop := ∀ e ∈ s.evaluations, e.minSamples.toNat ≤ e.observed

/-- Every operation is registered with no more than the number of windows that the
events up to its registration and the first one after it fall into.  `times` and
`pending` are the events so far and the operations registered since the last one. -/
def InTime (interval : Microsecond) (times : List Microsecond) (pending : List UInt64) :
    List (Action α) → Prop
  | [] => True
  | .on timestamp _ :: actions =>
      (∀ minSamples ∈ pending,
        minSamples.toNat ≤ observed interval (times ++ [timestamp])) ∧
      InTime interval (times ++ [timestamp]) [] actions
  | .apply _ _ minSamples :: actions => InTime interval times (minSamples :: pending) actions

/-- All operations have been registered with no more than the windows observed. -/
def Ready (s : State S) (timestamp : Microsecond) : Prop :=
  ∀ op ∈ s.operations,
    op.minSamples.toNat ≤ observed s.window.interval (s.times ++ [timestamp])

/-! ### Every operation is evaluated -/

structure Inv (s : State S) : Prop where
  full : s.window.buffer.Full
  capacity_lt : s.window.capacity < 2 ^ 64

theorem inv_initial (S : Sampler α) (p : Parameters α) : Inv (initial S p) :=
  ⟨full_new S p.history p.interval p.init, capacity_lt S p⟩

theorem inv_on {s : State S} (hs : Inv s) (timestamp : Microsecond) (value : α) :
    Inv (s.on timestamp value) := by
  refine ⟨full_on hs.full timestamp value, ?_⟩
  change (s.window.on timestamp value).2.capacity < _
  rw [MovingWindow.capacity, on_capacity]
  exact hs.capacity_lt

/-- The bound is not looked at. -/
theorem evaluated_eq {s : State S} (hs : Inv s) (timestamp : Microsecond) (value : α)
    (operations : List (Operation α)) :
    evaluated (arguments (s.window.on timestamp value).2) operations = operations := by
  have hon := inv_on hs timestamp value
  exact List.filter_eq_self.mpr fun op _ => isSome_arguments hon.full hon.capacity_lt op.form

theorem kept_on_iff {s : State S} (hs : Inv s) (timestamp : Microsecond) (value : α) :
    Kept (s.on timestamp value) ↔ Kept s ∧ Ready s timestamp := by
  rw [Kept, State.on, evaluated_eq hs, List.forall_mem_append, List.forall_mem_map]
  rfl

/-! ### Runs -/

theorem observed_append_le (interval : Microsecond) (times times' : List Microsecond) :
    observed interval times ≤ observed interval (times ++ times') := by
  rw [observed, observed, ← List.card_toFinset, ← List.card_toFinset, List.map_append]
  refine Finset.card_le_card fun window hwindow => ?_
  rw [List.mem_toFinset] at hwindow ⊢
  exact List.mem_append_left _ hwindow

/-- The pending operations are registered, and the others have been registered with
no more than the windows observed. -/
structure Pending (s : State S) (pending : List UInt64) : Prop where
  registered : ∀ minSamples ∈ pending, ∃ op ∈ s.operations, op.minSamples = minSamples
  others : ∀ op ∈ s.operations, op.minSamples ∈ pending ∨
    op.minSamples.toNat ≤ observed s.window.interval s.times

theorem ready_iff {s : State S} {pending : List UInt64} (hpending : Pending s pending)
    (timestamp : Microsecond) :
    Ready s timestamp ↔ ∀ minSamples ∈ pending,
      minSamples.toNat ≤ observed s.window.interval (s.times ++ [timestamp]) := by
  constructor
  · intro hready minSamples hmem
    obtain ⟨op, hop, rfl⟩ := hpending.registered minSamples hmem
    exact hready op hop
  · intro hall op hop
    rcases hpending.others op hop with hmem | hle
    · exact hall op.minSamples hmem
    · exact hle.trans (observed_append_le _ _ _)

theorem minSamples_compute (timestamp : Microsecond) (arguments : Form → Option (Argument α))
    (op : Operation α) : (op.compute timestamp arguments).minSamples = op.minSamples := by
  unfold Operation.compute
  split <;> rfl

theorem pending_on {s : State S} {timestamp : Microsecond} (hready : Ready s timestamp)
    (value : α) : Pending (s.on timestamp value) [] := by
  refine ⟨fun _ hmem => absurd hmem List.not_mem_nil, fun op hop => .inr ?_⟩
  obtain ⟨op, hmem, rfl⟩ := List.mem_map.mp hop
  rw [minSamples_compute]
  exact hready op hmem

theorem pending_apply {s : State S} {pending : List UInt64} (hpending : Pending s pending)
    (form : Form) (functor : SeriesFunctor (Argument α) α) (minSamples : UInt64) :
    Pending (s.apply form functor minSamples) (minSamples :: pending) := by
  constructor
  · intro m hmem
    rcases List.mem_cons.mp hmem with rfl | hmem
    · exact ⟨_, List.mem_append_right _ List.mem_cons_self, rfl⟩
    · obtain ⟨op, hop, rfl⟩ := hpending.registered m hmem
      exact ⟨op, List.mem_append_left _ hop, rfl⟩
  · intro op hop
    rcases List.mem_append.mp hop with hop | hop
    · exact (hpending.others op hop).imp_left (List.mem_cons_of_mem _)
    · rw [List.mem_singleton.mp hop]
      exact .inl List.mem_cons_self

theorem always_kept_iff {s : State S} {pending : List UInt64} (hs : Inv s) (hkept : Kept s)
    (hpending : Pending s pending) (actions : List (Action α)) :
    Runs.Always step Kept s actions ↔ InTime s.window.interval s.times pending actions := by
  induction actions generalizing s pending with
  | nil => exact iff_of_true ((Runs.always_nil step Kept s).mpr hkept) trivial
  | cons a actions ih =>
      cases a with
      | on timestamp value =>
          rw [Runs.always_cons_of_step step rfl, and_iff_right hkept, InTime,
            ← ready_iff hpending]
          by_cases hready : Ready s timestamp
          · rw [and_iff_right hready]
            exact ih (inv_on hs timestamp value)
              ((kept_on_iff hs timestamp value).mpr ⟨hkept, hready⟩) (pending_on hready value)
          · refine iff_of_false (fun halways => hready ?_) fun h => hready h.1
            exact ((kept_on_iff hs timestamp value).mp (halways [] actions _ rfl rfl)).2
      | apply form functor minSamples =>
          rw [Runs.always_cons_of_step step rfl, and_iff_right hkept, InTime]
          exact ih ⟨hs.full, hs.capacity_lt⟩ hkept
            (pending_apply hpending form functor minSamples)

/-- No operation is evaluated too early in exactly the runs in which none is
registered too early. -/
theorem min_samples_kept_iff (S : Sampler α) (p : Parameters α) (actions : List (Action α)) :
    Runs.Always step Kept (initial S p) actions ↔ InTime p.interval [] [] actions :=
  always_kept_iff (inv_initial S p) (fun _ he => absurd he List.not_mem_nil)
    ⟨fun _ hmem => absurd hmem List.not_mem_nil, fun _ hop => absurd hop List.not_mem_nil⟩ actions

/-- The difference of the current value and the one before it. -/
def change : SeriesFunctor (Argument Int) Int where
  State := Unit
  init := ()
  call _ argument := ((), match argument with
    | .series view => (view.at? 0).getD 0 - (view.at? (-1)).getD 0
    | _ => 0)

def hundreds : Parameters Int := ⟨500, 1, 0, by decide, by decide⟩

/-- A difference that needs two windows is taken at the first event. -/
theorem change_too_early :
    ∃ s, Runs.run step (initial Sampler.latest hundreds)
        [.apply .series change 2, .on 1356998400000000 7] = some s ∧
      s.evaluations = [⟨2, 1⟩] ∧ ¬ Kept s := by
  refine ⟨_, rfl, rfl, fun hkept => ?_⟩
  exact absurd (hkept ⟨2, 1⟩ List.mem_cons_self) (by decide)

end Atp.MinSamples

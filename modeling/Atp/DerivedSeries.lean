import Atp.ClosingValues
import Atp.CopyLast
import Atp.Ohlc

/-!
Series derived from a moving window.  Every event of the window gives each series
derived from it one event, with the value that an operation computes from the
window; a derived series has series derived from it in turn.
-/

namespace Atp.DerivedSeries

open MovingWindow WindowHistory ClosingValues

variable {α : Type} {S : Sampler α}

/-- What an operation sees of a `time_series`. -/
structure Series (α : Type) where
  at? : Int → Option α
  getTime : Int → Microsecond
  size : Nat
  timePeriod : Microsecond

/-- The types of operation of `apply`, `apply2` and `apply3`. -/
inductive Form where
  | series
  | samples
  | values

inductive Argument (α : Type) where
  | series (view : Series α)
  | samples (timestamps : List Microsecond) (values : List α) (length : UInt64)
  | values (current : Microsecond) (values : List α) (length : UInt64)

/-- A functor may keep state from one call to the next. -/
structure SeriesFunctor (ι α : Type) where
  State : Type
  init : State
  call : State → ι → State × α

namespace SeriesFunctor

variable {ι : Type} (f : SeriesFunctor ι α)

def after (s : f.State) : List ι → f.State
  | [] => s
  | a :: as => after (f.call s a).1 as

/-- What the functor returns from one call after the other. -/
def results (s : f.State) : List ι → List α
  | [] => []
  | a :: as => (f.call s a).2 :: results (f.call s a).1 as

end SeriesFunctor

/-- `operation` with its series and what is derived from that. -/
inductive Derived (α : Type) : Type 1 where
  | operation (form : Form) (functor : SeriesFunctor (Argument α) α) (state : functor.State)
      (series : MovingWindow (Sampler.latest : Sampler α)) (derived : List (Derived α))

/-- A window with the operations registered on it. -/
structure Source (S : Sampler α) where
  window : MovingWindow S
  derived : List (Derived α)

/-! ### The arguments of an operation -/

def view (m : MovingWindow S) : Series α where
  at? := m.at?
  getTime := fun i => m.getTime i
  size := m.size
  timePeriod := m.interval

def len (m : MovingWindow S) : UInt64 := UInt64.ofNat m.capacity

/-- `vbuff`, if all of it is copied.  The new array holds nothing that is read. -/
def vbuff (m : MovingWindow S) : Option (List α) :=
  (m.copyLastData (List.replicate (len m).toNat m.init) (len m)).bind fun (copied, vbuff) =>
    if copied = (len m).toNat then some vbuff else none

def tbuff (m : MovingWindow S) : Option (List Microsecond) :=
  (m.generateTimeArray (List.replicate (len m).toNat 0) (len m)).bind fun (generated, tbuff) =>
    if generated = (len m).toNat then some tbuff else none

/-- What an operation is called with; without its arrays it is not called. -/
def arguments (m : MovingWindow S) : Form → Option (Argument α)
  | .series => some (.series (view m))
  | .values => (vbuff m).map fun vbuff => .values m.currentTs vbuff (len m)
  | .samples =>
      (vbuff m).bind fun vbuff => (tbuff m).map fun tbuff => .samples tbuff vbuff (len m)

mutual

/-- The derived value, and the call of the series with it. -/
def Derived.on (timestamp : Microsecond) (arguments : Form → Option (Argument α)) :
    Derived α → Derived α
  | .operation form functor state series derived =>
      match arguments form with
      | none => .operation form functor state series derived
      | some argument =>
          let result := functor.call state argument
          let series := (series.on timestamp result.2).2
          .operation form functor result.1 series
            (computeDerived timestamp (DerivedSeries.arguments series) derived)

/-- The loops over the operations. -/
def computeDerived (timestamp : Microsecond) (arguments : Form → Option (Argument α)) :
    List (Derived α) → List (Derived α)
  | [] => []
  | d :: ds => d.on timestamp arguments :: computeDerived timestamp arguments ds

end

/-- `operator()` of a window with derived series. -/
def Source.on (r : Source S) (timestamp : Microsecond) (value : α) : Source S :=
  let window := (r.window.on timestamp value).2
  ⟨window, computeDerived timestamp (arguments window) r.derived⟩

def Source.feed (r : Source S) (es : List (Event α)) : Source S :=
  es.foldl (fun r e => r.on e.1 e.2) r

/-! ### Registration -/

/-- The series that `apply` registers on a window. -/
def fresh (m : MovingWindow S) (form : Form) (functor : SeriesFunctor (Argument α) α) :
    Derived α :=
  .operation form functor functor.init
    (MovingWindow.new Sampler.latest m.historyDuration m.interval m.init) []

/-- `apply` on the derived series that the path leads to. -/
def Derived.apply (form : Form) (functor : SeriesFunctor (Argument α) α) :
    List Nat → Derived α → Derived α
  | [], .operation f g s series derived =>
      .operation f g s series (derived ++ [fresh series form functor])
  | k :: path, .operation f g s series derived =>
      .operation f g s series (derived.modify k (Derived.apply form functor path))

def Source.apply (r : Source S) (form : Form) (functor : SeriesFunctor (Argument α) α) :
    List Nat → Source S
  | [] => ⟨r.window, r.derived ++ [fresh r.window form functor]⟩
  | k :: path => ⟨r.window, r.derived.modify k (Derived.apply form functor path)⟩

/-- The arguments of the constructor of a window.  A duration is a signed number of
microseconds. -/
structure Parameters (α : Type) where
  history : Microsecond
  interval : Microsecond
  init : α
  history_lt : history.toNat < 2 ^ 63
  interval_pos : 0 < interval

def Parameters.new (p : Parameters α) (S : Sampler α) : MovingWindow S :=
  MovingWindow.new S p.history p.interval p.init

/-- One call of `apply`, `apply2` or `apply3`: on the window itself, if the path is
empty, or else on the derived series that the path leads to. -/
structure Registration (α : Type) where
  path : List Nat
  form : Form
  functor : SeriesFunctor (Argument α) α

def registered (S : Sampler α) (p : Parameters α) (registrations : List (Registration α)) :
    Source S :=
  registrations.foldl (fun r c => r.apply c.form c.functor c.path) ⟨p.new S, []⟩

/-! ### What there is at a path -/

namespace Derived

def form : Derived α → Form
  | .operation form .. => form

def functor : (d : Derived α) → SeriesFunctor (Argument α) α
  | .operation _ functor .. => functor

def series : Derived α → MovingWindow (Sampler.latest : Sampler α)
  | .operation _ _ _ series _ => series

def derived : Derived α → List (Derived α)
  | .operation _ _ _ _ derived => derived

def follow : Derived α → List Nat → Option (Derived α)
  | d, [] => some d
  | d, k :: path => d.derived[k]?.bind fun d => d.follow path

end Derived

/-- The derived series at a path that is not empty. -/
def Source.follow (r : Source S) : List Nat → Option (Derived α)
  | [] => none
  | k :: path => r.derived[k]?.bind fun d => d.follow path

/-- What the window and a series derived from it have in common. -/
structure Shown (α : Type) where
  currentTs : Microsecond
  totalEvents : Nat
  size : Nat
  arguments : Form → Option (Argument α)

def shown (m : MovingWindow S) : Shown α := ⟨m.currentTs, m.totalEvents, m.size, arguments m⟩

/-- The series at a path, and the window itself at the empty path. -/
def Source.shown (r : Source S) : List Nat → Option (Shown α)
  | [] => some (DerivedSeries.shown r.window)
  | k :: path => (r.follow (k :: path)).map fun d => DerivedSeries.shown d.series

/-- The first events, up to the last one that is in the window or before it. -/
def upTo (w : Microsecond) (evs : List (Event α)) (window : Nat) : List (Event α) :=
  evs.takeWhile fun e => windowOf w e.1 ≤ window

/-- `d` has the current time and sample count of its source, which is the series at
`path`.  At index `-k`, for windows from the first event's on, it has the result of
the call of the operation at the last event in that window or before it; the calls
are with the arguments that the source has had after each of the events. -/
structure Follows (r : Source S) (w : Microsecond) (evs : List (Event α)) (path : List Nat)
    (d : Derived α) (s : Shown α) : Prop where
  currentTs : d.series.currentTs = s.currentTs
  totalEvents : d.series.totalEvents = s.totalEvents
  size : d.series.size = s.size
  values : ∀ (first last : Event α) (k : Nat), evs.head? = some first →
    evs.getLast? = some last → k < d.series.size →
      windowOf w first.1 + k ≤ windowOf w last.1 →
        ∃ calls : List (Argument α),
          calls.length = (upTo w evs (windowOf w last.1 - k)).length ∧
          (∀ i < calls.length, calls[i]? =
            ((r.feed (evs.take (i + 1))).shown path).bind fun s => s.arguments d.form) ∧
          d.series.at? (-k) = (d.functor.results d.functor.init calls).getLast?

/-! ### The arguments are there -/

theorem toNat_len {m : MovingWindow S} (hcapacity : m.capacity < 2 ^ 64) :
    (len m).toNat = m.capacity :=
  (UInt64.toNat_ofNat' ..).trans (Nat.mod_eq_of_lt hcapacity)

theorem isSome_arguments {m : MovingWindow S} (hfull : m.buffer.Full)
    (hcapacity : m.capacity < 2 ^ 64) (form : Form) : (arguments m form).isSome := by
  have hlen := toNat_len hcapacity
  have hpos : 1 ≤ len m := by
    rw [UInt64.le_iff_toNat_le, hlen]
    exact Nat.le_add_left _ _
  have hvbuff : (vbuff m).isSome := by
    rw [vbuff, copyLastData_eq hfull hpos hlen.le (by simp)]
    simp
  have htbuff : (tbuff m).isSome := by
    rw [tbuff, generateTimeArray_eq hpos hlen.le (by simp)]
    simp
  obtain ⟨vs, hvs⟩ := Option.isSome_iff_exists.mp hvbuff
  obtain ⟨ts, hts⟩ := Option.isSome_iff_exists.mp htbuff
  cases form with
  | series => rfl
  | samples => simp [arguments, hvs, hts]
  | values => simp [arguments, hvs]

/-! ### The events that a derived series is given -/

/-- An event of the source: its time, and the arguments that the source then has. -/
abbrev Step (α : Type) := Microsecond × (Form → Option (Argument α))

def stepsOf (m : MovingWindow S) : List (Event α) → List (Step α)
  | [] => []
  | e :: es => (e.1, arguments (m.on e.1 e.2).2) :: stepsOf (m.on e.1 e.2).2 es

def Derived.feed (d : Derived α) (steps : List (Step α)) : Derived α :=
  steps.foldl (fun d step => d.on step.1 step.2) d

theorem computeDerived_eq (t : Microsecond) (arguments : Form → Option (Argument α))
    (ds : List (Derived α)) : computeDerived t arguments ds = ds.map (Derived.on t arguments) := by
  induction ds with
  | nil => rfl
  | cons d ds ih => rw [computeDerived, ih, List.map_cons]

theorem Source.feed_eq (r : Source S) (es : List (Event α)) :
    r.feed es =
      ⟨(r.window.feed es).2, r.derived.map fun d => d.feed (stepsOf r.window es)⟩ := by
  induction es generalizing r with
  | nil => simp [Source.feed, Derived.feed, stepsOf, MovingWindow.feed]
  | cons e es ih =>
      refine (ih (r.on e.1 e.2)).trans ?_
      rw [Source.on, computeDerived_eq, List.map_map]
      rfl

/-- The events that a derived series is given: at each time of the source, what the
operation returns. -/
def given {ι : Type} (f : SeriesFunctor ι α) (s : f.State) (times : List Microsecond)
    (calls : List ι) : List (Event α) := times.zip (f.results s calls)

theorem Derived.feed_operation {form : Form} {functor : SeriesFunctor (Argument α) α}
    {state : functor.State} {series : MovingWindow (Sampler.latest : Sampler α)}
    {derived : List (Derived α)} {steps : List (Step α)} {calls : List (Argument α)}
    (hcalls : steps.map (fun step => step.2 form) = calls.map some) :
    (operation form functor state series derived).feed steps =
      let es := given functor state (steps.map Prod.fst) calls
      let r := (Source.mk series derived).feed es
      operation form functor (functor.after state calls) r.window r.derived := by
  induction steps generalizing state series derived calls with
  | nil =>
      obtain rfl : calls = [] := by simpa using hcalls.symm
      rfl
  | cons step steps ih =>
      cases calls with
      | nil => cases hcalls
      | cons call calls =>
          obtain ⟨hcall, hcalls⟩ := List.cons.inj hcalls
          change ((operation form functor state series derived).on step.1 step.2).feed steps = _
          have hcall : step.2 form = some call := hcall
          rw [Derived.on]
          simp only [hcall]
          exact ih hcalls

namespace SeriesFunctor

variable {ι : Type} (f : SeriesFunctor ι α)

@[simp] theorem length_results (s : f.State) (calls : List ι) :
    (f.results s calls).length = calls.length := by
  induction calls generalizing s with
  | nil => rfl
  | cons a as ih => rw [results, List.length_cons, ih, List.length_cons]

theorem results_take (s : f.State) (calls : List ι) (n : Nat) :
    f.results s (calls.take n) = (f.results s calls).take n := by
  induction calls generalizing s n with
  | nil => simp [results]
  | cons a as ih =>
      cases n with
      | zero => rfl
      | succ n => rw [List.take_succ_cons, results, results, List.take_succ_cons, ih]

end SeriesFunctor

theorem given_take {ι : Type} (f : SeriesFunctor ι α) (s : f.State) (times : List Microsecond)
    (calls : List ι) (n : Nat) :
    given f s (times.take n) (calls.take n) = (given f s times calls).take n := by
  rw [given, given, f.results_take, List.zip, List.take_zipWith]

theorem map_fst_given {ι : Type} (f : SeriesFunctor ι α) (s : f.State)
    {times : List Microsecond} {calls : List ι} (hlength : calls.length = times.length) :
    (given f s times calls).map Prod.fst = times :=
  List.map_fst_zip (by rw [f.length_results, hlength])

@[simp] theorem map_fst_stepsOf (m : MovingWindow S) (es : List (Event α)) :
    (stepsOf m es).map Prod.fst = es.map Prod.fst := by
  induction es generalizing m with
  | nil => rfl
  | cons e es ih => simp [stepsOf, ih]

theorem stepsOf_take (m : MovingWindow S) (es : List (Event α)) (n : Nat) :
    stepsOf m (es.take n) = (stepsOf m es).take n := by
  induction es generalizing m n with
  | nil => simp [stepsOf]
  | cons e es ih =>
      cases n with
      | zero => rfl
      | succ n => simp [stepsOf, ih]

theorem getElem?_stepsOf (m : MovingWindow S) (es : List (Event α)) (i : Nat) :
    (stepsOf m es)[i]? =
      es[i]?.map fun e => (e.1, arguments (m.feed (es.take (i + 1))).2) := by
  induction es generalizing m i with
  | nil => rfl
  | cons e es ih =>
      cases i with
      | zero => rfl
      | succ i => exact ih _ i

/-- There are arguments for every event. -/
theorem exists_calls {m : MovingWindow S} (hfull : m.buffer.Full) (hcapacity : m.capacity < 2 ^ 64)
    (es : List (Event α)) (form : Form) :
    ∃ calls : List (Argument α),
      (stepsOf m es).map (fun step => step.2 form) = calls.map some := by
  induction es generalizing m with
  | nil => exact ⟨[], rfl⟩
  | cons e es ih =>
      have hnext : (m.on e.1 e.2).2.capacity < 2 ^ 64 := by
        rwa [MovingWindow.capacity, on_capacity]
      obtain ⟨call, hcall⟩ := Option.isSome_iff_exists.mp
        (isSome_arguments (full_on hfull e.1 e.2) hnext form)
      obtain ⟨calls, hcalls⟩ := ih (full_on hfull e.1 e.2) hnext
      refine ⟨call :: calls, ?_⟩
      rw [stepsOf, List.map_cons, hcalls, List.map_cons, ← hcall]

/-! ### Series that have seen no event -/

inductive Fresh (p : Parameters α) : Derived α → Prop where
  | operation (form : Form) (functor : SeriesFunctor (Argument α) α) {derived : List (Derived α)}
      (hderived : ∀ d ∈ derived, Fresh p d) :
      Fresh p (.operation form functor functor.init (p.new Sampler.latest) derived)

theorem Fresh.derived {p : Parameters α} {d : Derived α} (hd : Fresh p d) :
    ∀ d' ∈ d.derived, Fresh p d' := by
  obtain ⟨form, functor, hderived⟩ := hd
  exact hderived

theorem mem_modify {β : Type*} {f : β → β} {xs : List β} {k : Nat} {y : β}
    (hy : y ∈ xs.modify k f) : y ∈ xs ∨ ∃ x ∈ xs, y = f x := by
  obtain ⟨i, hi⟩ := List.mem_iff_getElem?.mp hy
  rw [List.getElem?_modify] at hi
  obtain ⟨x, hx, rfl⟩ := Option.map_eq_some_iff.mp hi
  have hmem := List.mem_of_getElem? hx
  by_cases hk : k = i
  · exact .inr ⟨x, hmem, if_pos hk⟩
  · exact .inl ((if_neg hk : (if k = i then f x else x) = x).symm ▸ hmem)

theorem Fresh.apply {p : Parameters α} {d : Derived α} (hd : Fresh p d) (form : Form)
    (functor : SeriesFunctor (Argument α) α) (path : List Nat) :
    Fresh p (d.apply form functor path) := by
  induction path generalizing d with
  | nil =>
      obtain ⟨f, g, hderived⟩ := hd
      refine .operation f g fun d hmem => ?_
      rcases List.mem_append.mp hmem with hmem | hmem
      · exact hderived d hmem
      · rw [List.mem_singleton.mp hmem]
        exact .operation form functor (by simp)
  | cons k path ih =>
      obtain ⟨f, g, hderived⟩ := hd
      refine .operation f g fun d hmem => ?_
      rcases mem_modify hmem with hmem | ⟨d', hmem', rfl⟩
      · exact hderived d hmem
      · exact ih (hderived d' hmem')

theorem fresh_registered (S : Sampler α) (p : Parameters α)
    (registrations : List (Registration α)) :
    (registered S p registrations).window = p.new S ∧
      ∀ d ∈ (registered S p registrations).derived, Fresh p d := by
  induction registrations using List.reverseRecOn with
  | nil => exact ⟨rfl, by simp [registered]⟩
  | append_singleton registrations c ih =>
      obtain ⟨hwindow, hderived⟩ := ih
      rw [registered, List.foldl_concat]
      change (Source.apply (registered S p registrations) _ _ _).window = _ ∧
        ∀ d ∈ (Source.apply (registered S p registrations) _ _ _).derived, Fresh p d
      generalize registered S p registrations = r at hwindow hderived ⊢
      cases c.path with
      | nil =>
          refine ⟨hwindow, fun d hmem => ?_⟩
          rcases List.mem_append.mp hmem with hmem | hmem
          · exact hderived d hmem
          · rw [List.mem_singleton.mp hmem, hwindow]
            exact .operation c.form c.functor (by simp)
      | cons k path =>
          refine ⟨hwindow, fun d hmem => ?_⟩
          rcases mem_modify hmem with hmem | ⟨d', hmem', rfl⟩
          · exact hderived d hmem
          · exact (hderived d' hmem').apply c.form c.functor path

theorem capacity_lt (S : Sampler α) (p : Parameters α) : (p.new S).capacity < 2 ^ 64 := by
  have hslots : slots p.history p.interval ≤ p.history.toNat := Nat.div_le_self _ _
  have hlt := p.history_lt
  rw [MovingWindow.capacity, Parameters.new, capacity_new]
  omega

/-- A derived series before the first event, and after the events that its source
passes on to it. -/
theorem Fresh.feed {p : Parameters α} {d : Derived α} (hd : Fresh p d) (S : Sampler α)
    (es : List (Event α)) :
    ∃ calls : List (Argument α),
      (stepsOf (p.new S) es).map (fun step => step.2 d.form) = calls.map some ∧
      ∀ n, ∃ state, d.feed (stepsOf (p.new S) (es.take n)) =
        let r := (Source.mk (p.new Sampler.latest) d.derived).feed
          ((given d.functor d.functor.init (es.map Prod.fst) calls).take n)
        .operation d.form d.functor state r.window r.derived := by
  obtain @⟨form, functor, derived, hderived⟩ := hd
  obtain ⟨calls, hcalls⟩ := exists_calls (full_new S p.history p.interval p.init)
    (capacity_lt S p) es form
  refine ⟨calls, hcalls, fun n => ?_⟩
  have hprefix : (stepsOf (p.new S) (es.take n)).map (fun step => step.2 form) =
      (calls.take n).map some := by
    rw [stepsOf_take, List.map_take, List.map_take]
    exact congrArg (List.take n) hcalls
  have hfeed := @Derived.feed_operation _ _ _ functor.init (p.new Sampler.latest) derived _ _
    hprefix
  rw [map_fst_stepsOf, List.map_take, given_take] at hfeed
  exact ⟨_, hfeed⟩

theorem length_calls {m : MovingWindow S} {es : List (Event α)} {form : Form}
    {calls : List (Argument α)}
    (hcalls : (stepsOf m es).map (fun step => step.2 form) = calls.map some) :
    calls.length = es.length := by
  have hlength := congrArg List.length hcalls
  have hsteps := congrArg List.length (map_fst_stepsOf m es)
  simp only [List.length_map] at hlength hsteps
  exact hlength.symm.trans hsteps

theorem take_given {ι : Type} (f : SeriesFunctor ι α) (s : f.State) (es : List (Event α))
    (calls : List ι) :
    (given f s (es.map Prod.fst) calls).take es.length =
      given f s (es.map Prod.fst) calls := by
  apply List.take_of_length_le
  rw [given, List.length_zip, List.length_map]
  exact Nat.min_le_left _ _

theorem follow_operation (form : Form) (functor : SeriesFunctor (Argument α) α)
    (state : functor.State) (series : MovingWindow (Sampler.latest : Sampler α))
    (derived : List (Derived α)) (path : List Nat) (k : Nat) :
    (Derived.operation form functor state series derived).follow (path ++ [k]) =
      (Source.mk series derived).follow (path ++ [k]) := by
  cases path <;> rfl

theorem shown_operation (form : Form) (functor : SeriesFunctor (Argument α) α)
    (state : functor.State) (series : MovingWindow (Sampler.latest : Sampler α))
    (derived : List (Derived α)) (path : List Nat) :
    ((Derived.operation form functor state series derived).follow path).map
        (fun d => DerivedSeries.shown d.series) =
      (Source.mk series derived).shown path := by
  cases path <;> rfl

theorem Source.follow_feed_cons {r : Source S} {es : List (Event α)} {j : Nat} {path : List Nat}
    {d : Derived α} (hd : (r.feed es).follow (j :: path) = some d) :
    ∃ d₀, r.derived[j]? = some d₀ ∧ (d₀.feed (stepsOf r.window es)).follow path = some d := by
  rw [feed_eq, follow, List.getElem?_map] at hd
  obtain ⟨d₁, hmap, hd⟩ := Option.bind_eq_some_iff.mp hd
  obtain ⟨d₀, hd₀, rfl⟩ := Option.map_eq_some_iff.mp hmap
  exact ⟨d₀, hd₀, hd⟩

theorem Source.shown_feed_cons {r : Source S} {j : Nat} {d₀ : Derived α}
    (hd₀ : r.derived[j]? = some d₀) (es : List (Event α)) (path : List Nat) :
    (r.feed es).shown (j :: path) = ((d₀.feed (stepsOf r.window es)).follow path).map
      fun d => DerivedSeries.shown d.series := by
  rw [feed_eq, shown, follow, List.getElem?_map, hd₀]
  rfl

/-- A derived series has been given the results of its operation, called with what
its source has shown after each event; and the source has been given events at the
same times. -/
theorem exists_source {p : Parameters α} {r : Source S} (hwindow : r.window = p.new S)
    (hfresh : ∀ d ∈ r.derived, Fresh p d) {es : List (Event α)} {path : List Nat} {k : Nat}
    {d : Derived α} (hd : (r.feed es).follow (path ++ [k]) = some d) :
    ∃ (T : Sampler α) (es' : List (Event α)) (calls : List (Argument α)),
      es'.map Prod.fst = es.map Prod.fst ∧
      (∀ n, (r.feed (es.take n)).shown path =
        some (shown ((p.new T).feed (es'.take n)).2)) ∧
      (stepsOf (p.new T) es').map (fun step => step.2 d.form) = calls.map some ∧
      d.series = ((p.new Sampler.latest).feed
        (given d.functor d.functor.init (es.map Prod.fst) calls)).2 := by
  induction path generalizing S r es with
  | nil =>
      obtain ⟨d₀, hd₀, hd⟩ := Source.follow_feed_cons hd
      obtain ⟨calls, hcalls, hfeed⟩ := (hfresh d₀ (List.mem_of_getElem? hd₀)).feed S es
      obtain ⟨state, hfeed⟩ := hfeed es.length
      rw [List.take_length, take_given, ← hwindow] at hfeed
      obtain rfl := Option.some.inj (hfeed ▸ hd)
      refine ⟨S, es, calls, rfl, fun n => ?_, hcalls, ?_⟩
      · rw [Source.feed_eq, hwindow]
        rfl
      · rw [Derived.series, Source.feed_eq]
        rfl
  | cons j path ih =>
      obtain ⟨d₀, hd₀, hd⟩ := Source.follow_feed_cons hd
      have hfresh₀ := hfresh d₀ (List.mem_of_getElem? hd₀)
      obtain ⟨calls₀, hcalls₀, hfeed⟩ := hfresh₀.feed S es
      have hcount : calls₀.length = (es.map Prod.fst).length :=
        (length_calls hcalls₀).trans (List.length_map ..).symm
      have htimes := map_fst_given d₀.functor d₀.functor.init hcount
      obtain ⟨state, hall⟩ := hfeed es.length
      rw [List.take_length, take_given, ← hwindow] at hall
      rw [hall] at hd
      have hd := (follow_operation _ _ _ _ _ path k).symm.trans hd
      obtain ⟨T, es', calls, hsame, hshown, hcalls, hseries⟩ := ih rfl hfresh₀.derived hd
      refine ⟨T, es', calls, hsame.trans htimes, fun n => ?_, hcalls, ?_⟩
      · obtain ⟨state, hsome⟩ := hfeed n
        rw [Source.shown_feed_cons hd₀, hwindow, hsome]
        exact (shown_operation _ _ _ _ _ path).trans (hshown n)
      · rw [hseries, htimes]

/-! ### The values of a derived series -/

theorem takeWhile_of_times {es es' : List (Event α)}
    (htimes : es.map Prod.fst = es'.map Prod.fst) (q : Microsecond → Bool) :
    es.takeWhile (fun e => q e.1) = es.take (es'.takeWhile fun e => q e.1).length := by
  have hlength : ∀ fs : List (Event α), (fs.takeWhile fun e => q e.1).length =
      ((fs.map Prod.fst).takeWhile q).length := by
    intro fs
    rw [List.takeWhile_map, List.length_map]
    rfl
  rw [hlength es', ← htimes, ← hlength es]
  exact List.prefix_iff_eq_take.mp (List.takeWhile_prefix _)

theorem inOrder_of_times {w : Microsecond} {es es' : List (Event α)}
    (htimes : es.map Prod.fst = es'.map Prod.fst) (horder : InOrder w es') : InOrder w es := by
  have hiff : ∀ fs : List (Event α), InOrder w fs ↔ (∀ t ∈ fs.map Prod.fst, 0 < t) ∧
      (fs.map Prod.fst).IsChain fun a b => a ≤ b ∧ windowOf w b - windowOf w a < 2 ^ 31 := by
    intro fs
    rw [List.forall_mem_map, List.isChain_map]
    rfl
  rwa [hiff, htimes, ← hiff]

theorem currentValue_latest (h w : Microsecond) (init : α) {es : List (Event α)} (hne : es ≠ []) :
    some ((new Sampler.latest h w init).feed es).2.currentValue = (es.map Prod.snd).getLast? := by
  rcases es.eq_nil_or_concat with rfl | ⟨es, e, rfl⟩
  · exact absurd rfl hne
  · rw [List.concat_eq_append, feed_append]
    simp [feed, on, Sampler.latest]

theorem map_snd_given_take {ι : Type} (f : SeriesFunctor ι α) {calls : List ι}
    {evs : List (Event α)} (hlength : calls.length = evs.length) (n : Nat) :
    ((given f f.init (evs.map Prod.fst) calls).take n).map Prod.snd =
      f.results f.init (calls.take n) := by
  rw [← given_take]
  apply List.map_snd_zip
  rw [f.length_results, List.length_take, List.length_take, List.length_map, hlength]

theorem upTo_ne_nil {w : Microsecond} {es : List (Event α)} {first : Event α}
    (hfirst : es.head? = some first) {n : Nat} (hle : windowOf w first.1 ≤ n) :
    upTo w es n ≠ [] := by
  obtain ⟨rest, rfl⟩ := List.head?_eq_some_iff.mp hfirst
  rw [upTo, List.takeWhile_cons, decide_eq_true hle]
  exact List.cons_ne_nil _ _

/-- At index `-k` a window that shows the latest value has the last one up to then. -/
theorem at?_latest {p : Parameters α} {es : List (Event α)} (horder : InOrder p.interval es)
    {first last : Event α} (hfirst : es.head? = some first) (hlast : es.getLast? = some last)
    {k : Nat} (hk : k ≤ slots p.history p.interval)
    (hback : windowOf p.interval first.1 + k ≤ windowOf p.interval last.1) :
    ((p.new Sampler.latest).feed es).2.at? (-k) =
      ((upTo p.interval es (windowOf p.interval last.1 - k)).map Prod.snd).getLast? := by
  obtain ⟨es₀, rfl⟩ := List.getLast?_eq_some_iff.mp hlast
  have hbefore : ∀ g ∈ (es₀ ++ [last]).head?,
      windowOf p.interval g.1 + k ≤ windowOf p.interval last.1 := by
    intro g hg
    obtain rfl := Option.some.inj (hfirst.symm.trans hg)
    exact hback
  refine (at?_eq_closing p.interval_pos horder hk hbefore).trans ?_
  apply currentValue_latest
  exact upTo_ne_nil hfirst (by omega)

/-- At index `-k` a derived series has the last result up to that window. -/
theorem at?_given {p : Parameters α} {ι : Type} {f : SeriesFunctor ι α} {calls : List ι}
    {evs : List (Event α)} (horder : InOrder p.interval evs) (hlength : calls.length = evs.length)
    {first last : Event α} (hfirst : evs.head? = some first) (hlast : evs.getLast? = some last)
    {k : Nat} (hk : k ≤ slots p.history p.interval)
    (hback : windowOf p.interval first.1 + k ≤ windowOf p.interval last.1) :
    ((p.new Sampler.latest).feed (given f f.init (evs.map Prod.fst) calls)).2.at? (-k) =
      (f.results f.init (calls.take
        (upTo p.interval evs (windowOf p.interval last.1 - k)).length)).getLast? := by
  have hcount : calls.length = (evs.map Prod.fst).length :=
    hlength.trans (List.length_map ..).symm
  have htimes := map_fst_given f f.init hcount
  have hvalues := map_snd_given_take f hlength
  generalize given f f.init (evs.map Prod.fst) calls = es at htimes hvalues
  have hheads := congrArg List.head? htimes
  rw [List.head?_map, List.head?_map, hfirst] at hheads
  obtain ⟨first', hfirst', hfirstTime⟩ := Option.map_eq_some_iff.mp hheads
  have hlasts := congrArg List.getLast? htimes
  rw [List.getLast?_map, List.getLast?_map, hlast] at hlasts
  obtain ⟨last', hlast', hlastTime⟩ := Option.map_eq_some_iff.mp hlasts
  have hupTo := takeWhile_of_times htimes
    fun t => decide (windowOf p.interval t ≤ windowOf p.interval last.1 - k)
  rw [← hfirstTime, ← hlastTime] at hback
  rw [at?_latest (inOrder_of_times htimes horder) hfirst' hlast' hk hback, upTo, hlastTime,
    hupTo, hvalues]
  rfl

/-- The arguments of the calls, as they are read off the source at each event. -/
theorem getElem?_calls {m : MovingWindow S} {es : List (Event α)} {form : Form}
    {calls : List (Argument α)}
    (hcalls : (stepsOf m es).map (fun step => step.2 form) = calls.map some) {i : Nat}
    (hi : i < calls.length) :
    calls[i]? = arguments (m.feed (es.take (i + 1))).2 form := by
  have hget := congrArg (·[i]?) hcalls
  have hlength := length_calls hcalls
  simp only [List.getElem?_map, getElem?_stepsOf, List.getElem?_eq_getElem hi,
    List.getElem?_eq_getElem (hlength ▸ hi), Option.map_some, Option.some.injEq] at hget
  rw [hget, List.getElem?_eq_getElem hi]

/-- Every series derived from a window or from another derived series follows its
source, in any run of events in order. -/
theorem derived_follows (S : Sampler α) (p : Parameters α)
    (registrations : List (Registration α)) (evs : List (Event α))
    (horder : InOrder p.interval evs) {path : List Nat} {k : Nat} {d : Derived α}
    (hd : ((registered S p registrations).feed evs).follow (path ++ [k]) = some d) :
    ∃ s, ((registered S p registrations).feed evs).shown path = some s ∧
      Follows (registered S p registrations) p.interval evs path d s := by
  obtain ⟨hwindow, hfresh⟩ := fresh_registered S p registrations
  generalize registered S p registrations = r at hwindow hfresh hd ⊢
  obtain ⟨T, es', calls, htimes, hshown, hcalls, hseries⟩ := exists_source hwindow hfresh hd
  have hlength : es'.length = evs.length := by
    simpa using congrArg List.length htimes
  have hcount : calls.length = evs.length := (length_calls hcalls).trans hlength
  have hlast := hshown evs.length
  rw [List.take_length, ← hlength, List.take_length] at hlast
  refine ⟨_, hlast, ?_⟩
  have haligned : Aligned d.series ((p.new T).feed es').2 := by
    rw [hseries]
    apply (aligned_new Sampler.latest T p.history p.interval p.init p.init).feed
    rw [map_fst_given _ _ (hcount.trans (List.length_map ..).symm), htimes]
  constructor
  · exact haligned.currentTs
  · exact haligned.collected
  · exact haligned.size
  · intro first last j hfirst hlast hj hback
    refine ⟨calls.take (upTo p.interval evs (windowOf p.interval last.1 - j)).length, ?_, ?_, ?_⟩
    · rw [List.length_take, hcount]
      exact Nat.min_eq_left (List.takeWhile_prefix _).length_le
    · intro i hi
      rw [List.length_take] at hi
      rw [List.getElem?_take_of_lt (by omega), getElem?_calls hcalls (by omega), hshown]
      rfl
    · have hfull : d.series.buffer.size = d.series.buffer.capacity := haligned.full_left
      have hcapacity : d.series.buffer.capacity = slots p.history p.interval := by
        rw [hseries, capacity_feed]
        exact capacity_new _ _ _ _
      rw [MovingWindow.size, hfull, hcapacity] at hj
      rw [hseries]
      exact at?_given horder hcount hfirst hlast (by omega) hback

def tenMicros : Parameters Int := ⟨40, 10, 0, by decide, by decide⟩

/-- `-series[0]`. -/
def negate : SeriesFunctor (Argument Int) Int where
  State := Unit
  init := ()
  call _ argument :=
    match argument with
    | .series view => ((), -(view.at? 0).getD 0)
    | .samples _ values _ => ((), -values.getLastD 0)
    | .values _ values _ => ((), -values.getLastD 0)

/-- The difference to the call before. -/
def difference : SeriesFunctor (Argument Int) Int where
  State := Int
  init := 0
  call before argument :=
    match argument with
    | .series view => ((view.at? 0).getD 0, (view.at? 0).getD 0 - before)
    | .samples _ values _ => (values.getLastD 0, values.getLastD 0 - before)
    | .values _ values _ => (values.getLastD 0, values.getLastD 0 - before)

def twoStages : Source (Sampler.latest : Sampler Int) :=
  registered Sampler.latest tenMicros [⟨[], .series, negate⟩, ⟨[0], .values, difference⟩]

theorem derived_follows_twoStages :
    ∃ d s, (twoStages.feed [(11, 4), (12, 5), (32, 8)]).follow ([0] ++ [0]) = some d ∧
      Follows twoStages 10 [(11, 4), (12, 5), (32, 8)] [0] d s := by
  have horder : InOrder 10 [((11 : Microsecond), (4 : Int)), (12, 5), (32, 8)] := by
    refine ⟨by decide, ?_⟩
    simp only [List.isChain_cons_cons, List.isChain_singleton, and_true]
    decide
  obtain ⟨d, hd⟩ := Option.isSome_iff_exists.mp
    (rfl : ((twoStages.feed [(11, 4), (12, 5), (32, 8)]).follow ([0] ++ [0])).isSome = true)
  obtain ⟨s, -, hfollows⟩ := derived_follows Sampler.latest tenMicros
    [⟨[], .series, negate⟩, ⟨[0], .values, difference⟩] _ horder hd
  exact ⟨d, s, hd, hfollows⟩

example :
    ((twoStages.feed [(11, 4), (12, 5), (32, 8)]).follow [0, 0]).bind (fun d => d.series.at? (-1)) =
      some (-1) := by
  rfl

end Atp.DerivedSeries

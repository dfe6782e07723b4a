import Mathlib.Algebra.BigOperators.Group.List.Basic
import Mathlib.Algebra.Field.Defs
import Mathlib.Order.Lattice
import Mathlib.Order.Defs.LinearOrder

/-!
The samplers of a moving window: each folds the events of one window into the
value the window reports.  A sampler may keep private state between calls; the
window passes it the last value it reported and whether a new window begins.
-/

namespace Atp

universe u

/-- A sampling functor with its private state. -/
structure Sampler (α : Type u) where
  State : Type u
  init : State
  sample : State → (last now : α) → (newPeriod : Bool) → State × α

namespace Sampler

variable {α : Type u}

def latest : Sampler α where
  State := PUnit
  init := ⟨⟩
  sample _ _ now _ := (⟨⟩, now)

structure AvgState (α : Type u) where
  count : Nat
  sum : α

/-- `sum` is not read while `count` is zero, so its initial value is arbitrary. -/
def avg [Zero α] [Add α] [Div α] [NatCast α] : Sampler α where
  State := AvgState α
  init := ⟨0, 0⟩
  sample s _ now newPeriod :=
    let s := if newPeriod then ⟨0, now⟩ else s
    let sum := if s.count = 0 then now else s.sum + now
    (⟨s.count + 1, sum⟩, sum / ((s.count + 1 : Nat) : α))

def max [LinearOrder α] : Sampler α where
  State := PUnit
  init := ⟨⟩
  sample _ last now newPeriod := (⟨⟩, if newPeriod then now else Max.max last now)

def min [LinearOrder α] : Sampler α where
  State := PUnit
  init := ⟨⟩
  sample _ last now newPeriod := (⟨⟩, if newPeriod then now else Min.min last now)

/-- The state is `open_` once `init_` is set, and nothing before. -/
def «open» : Sampler α where
  State := Option α
  init := none
  sample s _ now newPeriod :=
    let s := if newPeriod then some now else s
    let value := s.getD now
    (some value, value)

def close : Sampler α where
  State := PUnit
  init := ⟨⟩
  sample _ _ now _ := (⟨⟩, now)

/-! ### What a sampler reports -/

/-- `S` reports `agg` of the events of a window: some relation between its
state, the value it reported last and the events of the current window holds
after the first event of every window, is kept by every further event, and
determines the reported value. -/
structure Reports (S : Sampler α) (agg : List α → Option α) where
  Tracks : S.State → α → List α → Prop
  value : ∀ {s v vs}, Tracks s v vs → agg vs = some v
  first : ∀ s last now,
    Tracks (S.sample s last now true).1 (S.sample s last now true).2 [now]
  next : ∀ {s v vs} (now : α), Tracks s v vs →
    Tracks (S.sample s v now false).1 (S.sample s v now false).2 (vs ++ [now])

def mean? [DivisionRing α] (vs : List α) : Option α :=
  if vs = [] then none else some (vs.sum / (vs.length : α))

def reportsLatest : Reports (latest : Sampler α) List.getLast? where
  Tracks _ v vs := vs.getLast? = some v
  value h := h
  first _ _ _ := rfl
  next now _ := by simp [latest]

def reportsClose : Reports (close : Sampler α) List.getLast? where
  Tracks _ v vs := vs.getLast? = some v
  value h := h
  first _ _ _ := rfl
  next now _ := by simp [close]

def reportsOpen : Reports («open» : Sampler α) List.head? where
  Tracks s v vs := s = some v ∧ vs.head? = some v
  value h := h.2
  first _ _ _ := ⟨rfl, rfl⟩
  next {s v vs} now h := by
    obtain ⟨rfl, hhead⟩ := h
    exact ⟨rfl, by simp [«open», List.head?_append, hhead]⟩

theorem max?_concat [LinearOrder α] {vs : List α} {v : α}
    (h : vs.max? = some v) (now : α) :
    (vs ++ [now]).max? = some (Max.max v now) := by
  cases vs with
  | nil => simp at h
  | cons x xs =>
      rw [List.max?_cons', Option.some.injEq] at h
      rw [List.cons_append, List.max?_cons', List.foldl_append, h]
      rfl

theorem min?_concat [LinearOrder α] {vs : List α} {v : α}
    (h : vs.min? = some v) (now : α) :
    (vs ++ [now]).min? = some (Min.min v now) := by
  cases vs with
  | nil => simp at h
  | cons x xs =>
      rw [List.min?_cons', Option.some.injEq] at h
      rw [List.cons_append, List.min?_cons', List.foldl_append, h]
      rfl

def reportsMax [LinearOrder α] : Reports (max : Sampler α) List.max? where
  Tracks _ v vs := vs.max? = some v
  value h := h
  first _ _ _ := by simp [max]
  next now h := max?_concat h now

def reportsMin [LinearOrder α] : Reports (min : Sampler α) List.min? where
  Tracks _ v vs := vs.min? = some v
  value h := h
  first _ _ _ := by simp [min]
  next now h := min?_concat h now

def reportsAvg [DivisionRing α] : Reports (avg : Sampler α) mean? where
  Tracks s v vs := s.count = vs.length ∧ s.sum = vs.sum ∧ mean? vs = some v
  value h := h.2.2
  first _ _ now := by simp [avg, mean?]
  next {s v vs} now h := by
    obtain ⟨hcount, hsum, hmean⟩ := h
    have hne : vs ≠ [] := by
      rintro rfl
      simp [mean?] at hmean
    simp [avg, mean?, hne, hsum, hcount]

end Sampler

end Atp

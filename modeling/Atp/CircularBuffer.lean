import Mathlib.Data.List.Basic
import Mathlib.Data.List.Infix
import Mathlib.Tactic.SplitIfs

/-!
A ring of bounded capacity that is filled from one end only.  Once it is full,
every new element overwrites the oldest one, so the elements occupy at most two
contiguous runs of the storage: one from the oldest cell to the end of the
storage, and one from its start up to the oldest cell.
-/

namespace Atp

/-- `cells` is the constructed part of the storage, in memory order, and
`first` is the offset of the oldest element. -/
structure CircularBuffer (α : Type*) where
  capacity : Nat
  cells : List α
  first : Nat
  length_le : cells.length ≤ capacity
  first_lt : first < cells.length ∨ first = 0
  first_eq_zero : cells.length < capacity → first = 0

namespace CircularBuffer

variable {α : Type*}

def empty (capacity : Nat) : CircularBuffer α where
  capacity := capacity
  cells := []
  first := 0
  length_le := Nat.zero_le _
  first_lt := .inr rfl
  first_eq_zero := fun _ => rfl

def size (b : CircularBuffer α) : Nat := b.cells.length

def arrayOne (b : CircularBuffer α) : List α := b.cells.drop b.first

/-- The run at the start of the storage, empty while the ring has not wrapped. -/
def arrayTwo (b : CircularBuffer α) : List α := b.cells.take b.first

def toList (b : CircularBuffer α) : List α := b.arrayOne ++ b.arrayTwo

def get? (b : CircularBuffer α) (i : Nat) : Option α :=
  if i < b.capacity - b.first then b.cells[b.first + i]?
  else b.cells[b.first + i - b.capacity]?

def pushBack (b : CircularBuffer α) (x : α) : CircularBuffer α :=
  if hfull : b.cells.length < b.capacity then
    { capacity := b.capacity
      cells := b.cells ++ [x]
      first := b.first
      length_le := by simpa [Nat.succ_le_iff] using hfull
      first_lt := .inr (b.first_eq_zero hfull)
      first_eq_zero := fun _ => b.first_eq_zero hfull }
  else
    { capacity := b.capacity
      cells := b.cells.set b.first x
      first := if b.first + 1 < b.capacity then b.first + 1 else 0
      length_le := by simpa using b.length_le
      first_lt := by
        have := b.length_le
        simp only [List.length_set]
        split_ifs <;> omega
      first_eq_zero := fun h => absurd (by simpa using h) hfull }

def Full (b : CircularBuffer α) : Prop := b.size = b.capacity

@[simp] theorem capacity_empty (n : Nat) :
    (empty n : CircularBuffer α).capacity = n := rfl

@[simp] theorem capacity_pushBack (b : CircularBuffer α) (x : α) :
    (b.pushBack x).capacity = b.capacity := by
  unfold pushBack
  split_ifs <;> rfl

@[simp] theorem length_toList (b : CircularBuffer α) :
    b.toList.length = b.size := by
  have := b.first_lt
  simp only [toList, arrayOne, arrayTwo, size, List.length_append,
    List.length_drop, List.length_take]
  omega

theorem size_arrayOne_add_arrayTwo (b : CircularBuffer α) :
    b.arrayOne.length + b.arrayTwo.length = b.size := by
  rw [← b.length_toList, toList, List.length_append]

theorem toList_pushBack_of_lt {b : CircularBuffer α} (x : α)
    (hlt : b.size < b.capacity) :
    (b.pushBack x).toList = b.toList ++ [x] := by
  have hfirst := b.first_eq_zero hlt
  have hlt' : b.cells.length < b.capacity := hlt
  simp [pushBack, hlt', toList, arrayOne, arrayTwo, hfirst]

/-- On a full ring a new element replaces the oldest one. -/
theorem toList_pushBack {b : CircularBuffer α} (x : α) (hfull : b.Full) :
    (b.pushBack x).toList = (b.toList ++ [x]).tail := by
  have hlen : b.cells.length = b.capacity := hfull
  have hnot : ¬ b.cells.length < b.capacity := by omega
  simp only [pushBack, hnot, ↓reduceDIte, toList, arrayOne, arrayTwo]
  rcases b.first_lt with hfirst | hfirst
  · have hdrop : b.cells.drop b.first =
        b.cells[b.first] :: b.cells.drop (b.first + 1) :=
      List.drop_eq_getElem_cons hfirst
    rw [hdrop]
    simp only [List.cons_append, List.tail_cons]
    split_ifs with hnext
    · rw [List.drop_set_of_lt (by omega), List.take_succ_eq_append_getElem (by simpa using hfirst)]
      simp [List.take_set_of_le]
    · have hlast : b.first + 1 = b.cells.length := by omega
      rw [List.drop_zero, List.take_zero, List.append_nil, hlast,
        List.drop_length, List.nil_append,
        List.set_eq_take_append_cons_drop, if_pos hfirst, hlast, List.drop_length]
  · cases hcells : b.cells with
    | nil => simp
    | cons y ys =>
        have hcap : b.capacity = ys.length + 1 := by
          rw [← hlen, hcells, List.length_cons]
        rw [hfirst]
        cases ys with
        | nil => simp [hcap]
        | cons z zs => simp [hcap]

theorem size_pushBack_of_full {b : CircularBuffer α} (x : α) (hfull : b.Full) :
    (b.pushBack x).size = b.size := by
  have hnot : ¬ b.cells.length < b.capacity := by
    have hlen : b.cells.length = b.capacity := hfull
    omega
  simp [pushBack, hnot, size]

theorem full_pushBack {b : CircularBuffer α} (x : α) (hfull : b.Full) :
    (b.pushBack x).Full := by
  rw [Full, size_pushBack_of_full x hfull, capacity_pushBack]
  exact hfull

theorem get?_eq_getElem?_toList (b : CircularBuffer α) (hfull : b.Full) (i : Nat)
    (hi : i < b.capacity) : b.get? i = b.toList[i]? := by
  have hlen : b.cells.length = b.capacity := hfull
  have hfirst := b.first_lt
  unfold get? toList arrayOne arrayTwo
  split_ifs with hone
  · rw [List.getElem?_append_left (by simp only [List.length_drop]; omega),
      List.getElem?_drop]
  · rw [List.getElem?_append_right (by simp only [List.length_drop]; omega),
      List.length_drop, List.getElem?_take_of_lt (by omega)]
    congr 1
    omega

/-! ### Repeated insertion -/

def pushN (b : CircularBuffer α) (x : α) : Nat → CircularBuffer α
  | 0 => b
  | n + 1 => (b.pushN x n).pushBack x

@[simp] theorem capacity_pushN (b : CircularBuffer α) (x : α) (n : Nat) :
    (b.pushN x n).capacity = b.capacity := by
  induction n with
  | zero => rfl
  | succ n ih => rw [pushN, capacity_pushBack, ih]

theorem full_pushN {b : CircularBuffer α} (x : α) (hfull : b.Full) (n : Nat) :
    (b.pushN x n).Full := by
  induction n with
  | zero => exact hfull
  | succ n ih => exact full_pushBack x ih

theorem toList_pushN {b : CircularBuffer α} (x : α) (hfull : b.Full) (n : Nat) :
    (b.pushN x n).toList = (b.toList ++ List.replicate n x).drop n := by
  induction n with
  | zero => simp [pushN]
  | succ n ih =>
      rw [pushN, toList_pushBack x (full_pushN x hfull n), ih, ← List.drop_one]
      have hle : n ≤ (b.toList ++ List.replicate n x).length := by simp
      rw [← List.drop_append_of_le_length hle, List.drop_drop, List.append_assoc,
        ← List.replicate_succ']

theorem toList_pushN_empty (capacity : Nat) (x : α) (n : Nat) (hn : n ≤ capacity) :
    ((empty capacity : CircularBuffer α).pushN x n).toList = List.replicate n x := by
  induction n with
  | zero => simp [pushN, empty, toList, arrayOne, arrayTwo]
  | succ n ih =>
      have hlist := ih (Nat.le_of_succ_le hn)
      have hsize : ((empty capacity : CircularBuffer α).pushN x n).size = n := by
        rw [← length_toList, hlist, List.length_replicate]
      rw [pushN, toList_pushBack_of_lt x (by rw [hsize, capacity_pushN]; exact hn),
        hlist, List.replicate_succ']

theorem full_pushN_empty (capacity : Nat) (x : α) :
    ((empty capacity : CircularBuffer α).pushN x capacity).Full := by
  rw [Full, ← length_toList, toList_pushN_empty capacity x capacity le_rfl,
    List.length_replicate, capacity_pushN, capacity_empty]

end CircularBuffer

end Atp

import Mathlib.Data.List.Basic
import Mathlib.Data.List.Infix

/-!
Writes into an array owned by the caller.  A write outside the array has no
result, so a computation that has one wrote only inside.
-/

namespace Atp.CheckedArray

variable {β : Type*}

def store (array : List β) (i : Nat) (v : β) : Option (List β) :=
  if i < array.length then some (array.set i v) else none

def memcpy (dst : List β) (dstOffset : Nat) (src : List β) (srcOffset n : Nat) :
    Option (List β) :=
  if dstOffset + n ≤ dst.length ∧ srcOffset + n ≤ src.length then
    some (dst.take dstOffset ++ (src.drop srcOffset).take n ++
      dst.drop (dstOffset + n))
  else none

theorem store_of_lt {array : List β} {i : Nat} (hi : i < array.length) (v : β) :
    store array i v = some (array.set i v) := if_pos hi

theorem memcpy_of_le {dst src : List β} {dstOffset srcOffset n : Nat}
    (hdst : dstOffset + n ≤ dst.length) (hsrc : srcOffset + n ≤ src.length) :
    memcpy dst dstOffset src srcOffset n =
      some (dst.take dstOffset ++ (src.drop srcOffset).take n ++
        dst.drop (dstOffset + n)) := if_pos ⟨hdst, hsrc⟩

theorem ite_memcpy {dst src : List β} {dstOffset srcOffset n : Nat}
    (hdst : dstOffset + n ≤ dst.length) (hsrc : srcOffset + n ≤ src.length) :
    (if n > 0 then memcpy dst dstOffset src srcOffset n else some dst) =
      memcpy dst dstOffset src srcOffset n := by
  rcases Nat.eq_zero_or_pos n with rfl | hpos
  · simp [memcpy_of_le hdst hsrc]
  · exact if_pos hpos

theorem memcpy_suffix {dst src : List β} {n k : Nat} (hn : n ≤ src.length)
    (hnk : n ≤ k) (hk : k ≤ dst.length) :
    memcpy dst (k - n) src (src.length - n) n =
      some (dst.take (k - n) ++ src.drop (src.length - n) ++ dst.drop k) := by
  have hall : (src.drop (src.length - n)).take n = src.drop (src.length - n) :=
    List.take_of_length_le (by simp only [List.length_drop]; omega)
  rw [memcpy_of_le (by omega) (by omega), Nat.sub_add_cancel hnk, hall]

theorem memcpy_suffix_front {dst src : List β} {n : Nat} (hn : n ≤ src.length)
    (hdst : n ≤ dst.length) :
    memcpy dst 0 src (src.length - n) n =
      some (src.drop (src.length - n) ++ dst.drop n) := by
  have hcopy := memcpy_suffix hn le_rfl hdst
  rwa [Nat.sub_self, List.take_zero, List.nil_append] at hcopy

theorem set_eq_append {array : List β} {i : Nat} (hi : i < array.length) (v : β) :
    array.set i v = array.take i ++ v :: array.drop (i + 1) := by
  rw [List.set_eq_take_append_cons_drop, if_pos hi]

theorem drop_set_self {array : List β} {i : Nat} (hi : i < array.length) (v : β) :
    (array.set i v).drop i = v :: array.drop (i + 1) := by
  rw [set_eq_append hi, List.drop_left' (by simp only [List.length_take]; omega)]

end Atp.CheckedArray

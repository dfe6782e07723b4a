import Mathlib.Data.List.Basic

/-!
A link that carries whole messages as runs of parts.  Its reader sees parts only; if
it takes exactly the parts of one message whenever it goes on, then what has been taken
is a first part of what was sent, and nothing is left when it waits.
-/

namespace Atp.Links

variable {α β γ : Type*}

/-- The queue holds the parts of the messages that were sent and not yet taken. -/
def Holds (encode : α → List β) (sent taken : List α) (queue : List β) : Prop :=
  ∃ pending, sent = taken ++ pending ∧ queue = pending.flatMap encode

/-- Of a whole message the reader takes all the parts, whatever comes after them, and it
waits where there is none. -/
structure Reads (encode : α → List β) (decode : α → γ)
    (read : List β → Option (γ × List β)) : Prop where
  whole : ∀ a later, read (encode a ++ later) = some (decode a, later)
  waits : read [] = none

section

variable {encode : α → List β} {sent taken : List α} {queue queue' : List β}

theorem holds_nil : Holds encode [] [] [] := ⟨[], rfl, rfl⟩

theorem Holds.send (h : Holds encode sent taken queue) (a : α) :
    Holds encode (sent ++ [a]) taken (queue ++ encode a) := by
  obtain ⟨pending, rfl, rfl⟩ := h
  exact ⟨pending ++ [a], by simp, by simp⟩

theorem Holds.taken_isPrefix (h : Holds encode sent taken queue) : taken <+: sent := by
  obtain ⟨pending, rfl, -⟩ := h
  exact List.prefix_append taken pending

variable {decode : α → γ} {read : List β → Option (γ × List β)} {c : γ}

/-- What is read comes of the next message. -/
theorem Holds.take (h : Holds encode sent taken queue) (hreads : Reads encode decode read)
    (hread : read queue = some (c, queue')) :
    ∃ a, c = decode a ∧ Holds encode sent (taken ++ [a]) queue' := by
  obtain ⟨pending, rfl, rfl⟩ := h
  cases pending with
  | nil => cases hreads.waits.symm.trans hread
  | cons a pending =>
      rw [List.flatMap_cons, hreads.whole] at hread
      obtain ⟨rfl, rfl⟩ := Prod.mk.inj (Option.some.inj hread)
      exact ⟨a, rfl, pending, by simp, rfl⟩

/-- The reader waits only when all that was sent has been taken. -/
theorem Holds.eq_of_waits (h : Holds encode sent taken queue) (hreads : Reads encode decode read)
    (hread : read queue = none) : taken = sent := by
  obtain ⟨pending, rfl, rfl⟩ := h
  cases pending with
  | nil => exact (List.append_nil taken).symm
  | cons a pending =>
      rw [List.flatMap_cons, hreads.whole] at hread
      cases hread

end

end Atp.Links

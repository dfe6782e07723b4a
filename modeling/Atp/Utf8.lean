import Atp.Text

/-!
UTF-8.  A machine reads bytes and knows the ranges of those that the character it is
in still needs.
-/

namespace Atp.Utf8

/-- The least and the greatest byte of a place in a character. -/
abbrev Range := Nat × Nat

/-- The places of a character that are still to come. -/
abbrev State := List Range

def continuation : Range := (128, 191)

/-- The places after the first byte of a character. -/
def first (b : Nat) : Option State :=
  if b < 128 then some []
  else if 194 ≤ b ∧ b ≤ 223 then some [continuation]
  else if b = 224 then some [(160, 191), continuation]
  else if b = 237 then some [(128, 159), continuation]
  else if 225 ≤ b ∧ b ≤ 239 then some [continuation, continuation]
  else if b = 240 then some [(144, 191), continuation, continuation]
  else if 241 ≤ b ∧ b ≤ 243 then some [continuation, continuation, continuation]
  else if b = 244 then some [(128, 143), continuation, continuation]
  else none

def step : State → Char → Option State
  | [], c => first c.toNat
  | range :: places, c =>
      if range.1 ≤ c.toNat ∧ c.toNat ≤ range.2 then some places else none

/-- Whole characters. -/
def Valid (s : Text) : Prop := s.foldlM step [] = some []

instance (s : Text) : Decidable (Valid s) := inferInstanceAs (Decidable (_ = _))

/-- No place takes an ASCII character. -/
def High (places : State) : Prop := ∀ range ∈ places, 128 ≤ range.1

theorem high_first {b : Nat} {places : State} (hfirst : first b = some places) : High places := by
  unfold first at hfirst
  split_ifs at hfirst <;> cases hfirst <;> simp [High, continuation]

theorem high_step {places places' : State} {c : Char} (hplaces : High places)
    (hstep : step places c = some places') : High places' := by
  cases places with
  | nil => exact high_first hstep
  | cons range places =>
      rw [step] at hstep
      split_ifs at hstep
      obtain rfl := Option.some.inj hstep
      exact (List.forall_mem_cons.mp hplaces).2

theorem high_foldlM {s : Text} {places places' : State} (hplaces : High places)
    (hfold : s.foldlM step places = some places') : High places' := by
  induction s generalizing places with
  | nil => exact Option.some.inj hfold ▸ hplaces
  | cons c s ih =>
      rw [List.foldlM_cons] at hfold
      obtain ⟨next, hstep, hfold⟩ := Option.bind_eq_some_iff.mp hfold
      exact ih (high_step hplaces hstep) hfold

theorem step_ascii {places : State} (hplaces : High places) {c : Char} (hc : c.toNat < 128) :
    step places c = if places = [] then some [] else none := by
  cases places with
  | nil => exact if_pos hc
  | cons range places =>
      have hrange := (List.forall_mem_cons.mp hplaces).1
      rw [if_neg (List.cons_ne_nil _ _)]
      exact if_neg (by omega)

/-- An ASCII character stands between whole characters. -/
theorem valid_append_cons_iff {c : Char} (hc : c.toNat < 128) (s t : Text) :
    Valid (s ++ c :: t) ↔ Valid s ∧ Valid t := by
  unfold Valid
  rw [List.foldlM_append]
  cases hfold : s.foldlM step [] with
  | none => simp
  | some places =>
      have hhigh : High places := high_foldlM (fun _ h => absurd h List.not_mem_nil) hfold
      rw [Option.bind_eq_bind, Option.bind_some, List.foldlM_cons, step_ascii hhigh hc]
      cases places with
      | nil => simp
      | cons range places => simp

theorem valid_ascii_append {s : Text} (hs : ∀ c ∈ s, c.toNat < 128) (t : Text) :
    Valid (s ++ t) ↔ Valid t := by
  induction s with
  | nil => rfl
  | cons c s ih =>
      rw [List.forall_mem_cons] at hs
      have hcons := valid_append_cons_iff hs.1 [] (s ++ t)
      rw [List.nil_append, and_iff_right (show Valid [] from rfl), ih hs.2] at hcons
      exact hcons

end Atp.Utf8

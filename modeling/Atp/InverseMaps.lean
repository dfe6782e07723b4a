import Mathlib.Data.List.AList

/-!
Two finite maps that are inverse to each other, and what an entry added to both
does to that.
-/

namespace Atp.InverseMaps

variable {κ ν : Type*} [DecidableEq κ] [DecidableEq ν]
variable {forth : AList fun _ : κ => ν} {back : AList fun _ : ν => κ} {k : κ} {v : ν}

def Inverse (forth : AList fun _ : κ => ν) (back : AList fun _ : ν => κ) : Prop :=
  ∀ k v, forth.lookup k = some v ↔ back.lookup v = some k

theorem inverse_empty : Inverse (∅ : AList fun _ : κ => ν) ∅ := by
  intro k v
  rw [AList.lookup_empty, AList.lookup_empty]
  exact iff_of_false nofun nofun

/-- A key and a value that are both new keep the maps inverse. -/
theorem inverse_insert (hinverse : Inverse forth back) (hkey : forth.lookup k = none)
    (hvalue : back.lookup v = none) : Inverse (forth.insert k v) (back.insert v k) := by
  intro k' v'
  rcases eq_or_ne k' k with rfl | hk
  · rcases eq_or_ne v' v with rfl | hv
    · rw [AList.lookup_insert, AList.lookup_insert]
      exact iff_of_true rfl rfl
    · rw [AList.lookup_insert, AList.lookup_insert_ne hv, ← hinverse, hkey]
      exact iff_of_false (fun h => hv (Option.some.inj h).symm) nofun
  · rcases eq_or_ne v' v with rfl | hv
    · rw [AList.lookup_insert_ne hk, AList.lookup_insert, hinverse, hvalue]
      exact iff_of_false nofun fun h => hk (Option.some.inj h).symm
    · rw [AList.lookup_insert_ne hk, AList.lookup_insert_ne hv]
      exact hinverse k' v'

/-- A new key for a value that has one leaves two keys with the value. -/
theorem not_inverse_insert (hinverse : Inverse forth back) (hkey : forth.lookup k = none)
    (hvalue : back.lookup v ≠ none) : ¬ Inverse (forth.insert k v) (back.insert v k) := by
  intro hafter
  obtain ⟨k', hback⟩ := Option.ne_none_iff_exists'.mp hvalue
  have hforth := (hinverse k' v).mpr hback
  have hk : k' ≠ k := by
    rintro rfl
    rw [hkey] at hforth
    cases hforth
  have hlookup := (hafter k' v).mp ((AList.lookup_insert_ne hk).trans hforth)
  rw [AList.lookup_insert] at hlookup
  exact hk (Option.some.inj hlookup).symm

end Atp.InverseMaps

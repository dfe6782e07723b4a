import Mathlib.Data.List.Induction
import Mathlib.Data.Set.Function

/-!
Sequences of writes to a partial map.  A write puts several entries at once, and
one that does not overwrite puts them only where the key it is guarded by is free.
-/

namespace Atp.GuardedWrites

variable {κ ν : Type*}

abbrev Contents (κ ν : Type*) := κ → Option ν

/-- The key that guards a write is one of those that it puts. -/
structure Write (κ ν : Type*) where
  guard : κ
  items : List (κ × ν)
  overwrite : Bool
  guard_mem : guard ∈ items.map Prod.fst

def Write.Applies (m : Contents κ ν) (w : Write κ ν) : Prop :=
  w.overwrite = true ∨ m w.guard = none

instance (m : Contents κ ν) (w : Write κ ν) : Decidable (w.Applies m) :=
  decidable_of_iff (w.overwrite = true ∨ (m w.guard).isNone = true) (by simp [Write.Applies])

variable [DecidableEq κ]

def put (m : Contents κ ν) (entry : κ × ν) : Contents κ ν :=
  Function.update m entry.1 (some entry.2)

def putAll (m : Contents κ ν) (entries : List (κ × ν)) : Contents κ ν := entries.foldl put m

def Write.apply (m : Contents κ ν) (w : Write κ ν) : Contents κ ν :=
  if w.Applies m then putAll m w.items else m

def run (m : Contents κ ν) (ws : List (Write κ ν)) : Contents κ ν := ws.foldl Write.apply m

/-! ### What is put -/

theorem putAll_apply (m : Contents κ ν) (entries : List (κ × ν)) (k : κ) :
    putAll m entries k = (entries.reverse.lookup k).or (m k) := by
  induction entries using List.reverseRecOn with
  | nil => rfl
  | append_singleton entries entry ih =>
      rw [putAll, List.foldl_append, List.reverse_concat, List.lookup_cons]
      change put (putAll m entries) entry k = _
      by_cases hk : k = entry.1
      · simp [put, hk]
      · rw [put, Function.update_of_ne hk, ih, beq_false_of_ne hk]

theorem lookup_eq_none_iff_not_mem {entries : List (κ × ν)} {k : κ} :
    entries.lookup k = none ↔ k ∉ entries.map Prod.fst := by
  rw [List.lookup_eq_none_iff]
  constructor
  · rintro hne hk
    obtain ⟨entry, hentry, rfl⟩ := List.mem_map.mp hk
    simpa using hne entry hentry
  · rintro hk entry hentry
    apply bne_iff_ne.mpr
    rintro rfl
    exact hk (List.mem_map_of_mem hentry)

theorem mem_of_lookup {entries : List (κ × ν)} {k : κ} {v : ν}
    (hlookup : entries.lookup k = some v) : (k, v) ∈ entries := by
  obtain ⟨before, after, rfl, -⟩ := List.lookup_eq_some_iff.mp hlookup
  simp

theorem putAll_of_not_mem (m : Contents κ ν) {entries : List (κ × ν)} {k : κ}
    (hk : k ∉ entries.map Prod.fst) : putAll m entries k = m k := by
  have hnone : entries.reverse.lookup k = none := by
    rw [lookup_eq_none_iff_not_mem, List.map_reverse, List.mem_reverse]
    exact hk
  rw [putAll_apply, hnone, Option.none_or]

theorem run_append (m : Contents κ ν) (ws ws' : List (Write κ ν)) :
    run m (ws ++ ws') = run (run m ws) ws' := List.foldl_append

theorem run_concat (m : Contents κ ν) (ws : List (Write κ ν)) (w : Write κ ν) :
    run m (ws ++ [w]) = w.apply (run m ws) := List.foldl_append

/-- What no write puts stays as it was. -/
theorem run_of_not_mem (m : Contents κ ν) {ws : List (Write κ ν)} {k : κ}
    (hk : ∀ w ∈ ws, k ∉ w.items.map Prod.fst) : run m ws k = m k := by
  induction ws generalizing m with
  | nil => rfl
  | cons w ws ih =>
      obtain ⟨hw, hws⟩ := List.forall_mem_cons.mp hk
      change run (w.apply m) ws k = m k
      rw [ih _ hws, Write.apply]
      split_ifs
      · exact putAll_of_not_mem m hw
      · rfl

/-- What writes do to some keys depends on no other, if these guard them. -/
theorem eqOn_run {s : Set κ} {m m' : Contents κ ν} (hm : Set.EqOn m m' s)
    {ws : List (Write κ ν)} (hws : ∀ w ∈ ws, w.guard ∈ s) :
    Set.EqOn (run m ws) (run m' ws) s := by
  induction ws generalizing m m' with
  | nil => exact hm
  | cons w ws ih =>
      obtain ⟨hw, hws⟩ := List.forall_mem_cons.mp hws
      apply ih _ hws
      intro k hk
      have happlies : w.Applies m ↔ w.Applies m' := by rw [Write.Applies, Write.Applies, hm hw]
      rw [Write.apply, Write.apply]
      by_cases h : w.Applies m
      · rw [if_pos h, if_pos (happlies.mp h), putAll_apply, putAll_apply, hm hk]
      · rw [if_neg h, if_neg (mt happlies.mpr h), hm hk]

/-- What is there was there before, or some write has put it there. -/
theorem mem_of_run {m : Contents κ ν} {ws : List (Write κ ν)} {k : κ} {v : ν}
    (hrun : run m ws k = some v) : m k = some v ∨ ∃ w ∈ ws, (k, v) ∈ w.items := by
  induction ws using List.reverseRecOn with
  | nil => exact .inl hrun
  | append_singleton ws w ih =>
      have hbefore : run m ws k = some v →
          m k = some v ∨ ∃ w' ∈ ws ++ [w], (k, v) ∈ w'.items := by
        intro h
        refine (ih h).imp_right ?_
        rintro ⟨w', hw', hitem⟩
        exact ⟨w', List.mem_append_left _ hw', hitem⟩
      rw [run_concat, Write.apply] at hrun
      split_ifs at hrun
      · rw [putAll_apply, Option.or_eq_some_iff] at hrun
        rcases hrun with hitem | ⟨-, hold⟩
        · exact .inr ⟨w, by simp, List.mem_reverse.mp (mem_of_lookup hitem)⟩
        · exact hbefore hold
      · exact hbefore hrun

/-! ### Keys and values under other names -/

section

variable {κ' ν' : Type*} (f : κ → κ') (g : ν → ν')

def Write.map (w : Write κ ν) : Write κ' ν' where
  guard := f w.guard
  items := w.items.map (Prod.map f g)
  overwrite := w.overwrite
  guard_mem := by
    obtain ⟨entry, hentry, hguard⟩ := List.mem_map.mp w.guard_mem
    simp only [List.map_map, List.mem_map, Function.comp_apply, Prod.map_fst]
    exact ⟨entry, hentry, congrArg f hguard⟩

variable [DecidableEq κ'] {s : Set κ} (hf : Set.InjOn f s)

include hf

theorem putAll_map {m : Contents κ ν} {m' : Contents κ' ν'} {k : κ} (hk : k ∈ s)
    (hm : m' (f k) = (m k).map g) {entries : List (κ × ν)} (hentries : ∀ e ∈ entries, e.1 ∈ s) :
    putAll m' (entries.map (Prod.map f g)) (f k) = (putAll m entries k).map g := by
  induction entries generalizing m m' with
  | nil => exact hm
  | cons entry entries ih =>
      obtain ⟨hentry, hentries⟩ := List.forall_mem_cons.mp hentries
      apply ih _ hentries
      by_cases hkey : k = entry.1
      · simp [put, hkey]
      · have hne : f k ≠ f entry.1 := fun h => hkey (hf hk hentry h)
        simp [put, hkey, hne, hm]

/-- Writes to keys that are told apart do the same under the names of the keys. -/
theorem run_map {m : Contents κ ν} {m' : Contents κ' ν'}
    (hm : ∀ k ∈ s, m' (f k) = (m k).map g) {ws : List (Write κ ν)}
    (hws : ∀ w ∈ ws, ∀ e ∈ w.items, e.1 ∈ s) {k : κ} (hk : k ∈ s) :
    run m' (ws.map (Write.map f g)) (f k) = (run m ws k).map g := by
  induction ws generalizing m m' with
  | nil => exact hm k hk
  | cons w ws ih =>
      obtain ⟨hw, hws⟩ := List.forall_mem_cons.mp hws
      apply ih _ hws
      intro k hk
      have hguard : w.guard ∈ s := by
        obtain ⟨entry, hentry, hguard⟩ := List.mem_map.mp w.guard_mem
        exact hguard ▸ hw entry hentry
      have happlies : (w.map f g).Applies m' ↔ w.Applies m := by
        apply or_congr Iff.rfl
        change m' (f w.guard) = none ↔ _
        rw [hm _ hguard, Option.map_eq_none_iff]
      rw [Write.apply, Write.apply]
      by_cases h : w.Applies m
      · rw [if_pos (happlies.mpr h), if_pos h]
        exact putAll_map f g hf hk (hm k hk) hw
      · rw [if_neg (fun h' => h (happlies.mp h')), if_neg h]
        exact hm k hk

end

/-! ### Writing the same again -/

/-- A key that some write puts over what is there is put by others under its own guard
only. -/
def Coherent (ws : List (Write κ ν)) : Prop :=
  ∀ w ∈ ws, ∀ w' ∈ ws, w.overwrite = true → w'.overwrite = false →
    ∀ k ∈ w.items.map Prod.fst, k ∈ w'.items.map Prod.fst → k = w'.guard

def overwritten (ws : List (Write κ ν)) : List (κ × ν) :=
  (ws.filter Write.overwrite).flatMap Write.items

theorem present_putAll {m : Contents κ ν} {k : κ} (hk : m k ≠ none)
    (entries : List (κ × ν)) : putAll m entries k ≠ none := by
  rw [putAll_apply, Ne, Option.or_eq_none_iff]
  exact fun h => hk h.2

theorem present_apply {m : Contents κ ν} {k : κ} (hk : m k ≠ none) (w : Write κ ν) :
    w.apply m k ≠ none := by
  unfold Write.apply
  split_ifs
  · exact present_putAll hk w.items
  · exact hk

theorem present_run {m : Contents κ ν} {k : κ} (hk : m k ≠ none) (ws : List (Write κ ν)) :
    run m ws k ≠ none := by
  induction ws generalizing m with
  | nil => exact hk
  | cons w ws ih => exact ih (present_apply hk w)

theorem guard_present_apply (m : Contents κ ν) (w : Write κ ν) : w.apply m w.guard ≠ none := by
  unfold Write.apply
  split_ifs with happlies
  · rw [putAll_apply, Ne, Option.or_eq_none_iff, lookup_eq_none_iff_not_mem,
      List.map_reverse, List.mem_reverse]
    exact fun h => h.1 w.guard_mem
  · exact fun h => happlies (.inr h)

theorem guard_present_run (m : Contents κ ν) {ws : List (Write κ ν)} :
    ∀ w ∈ ws, run m ws w.guard ≠ none := by
  induction ws generalizing m with
  | nil => simp
  | cons w ws ih =>
      exact List.forall_mem_cons.mpr
        ⟨present_run (guard_present_apply m w) ws, ih (w.apply m)⟩

/-- Where all guards are taken, only the writes that overwrite do anything. -/
theorem run_of_guards_present {m : Contents κ ν} {ws : List (Write κ ν)}
    (hguards : ∀ w ∈ ws, m w.guard ≠ none) : run m ws = putAll m (overwritten ws) := by
  induction ws generalizing m with
  | nil => rfl
  | cons w ws ih =>
      obtain ⟨hw, hws⟩ := List.forall_mem_cons.mp hguards
      change run (w.apply m) ws = _
      rw [ih fun w' hw' => present_apply (hws w' hw') w, Write.apply]
      cases hoverwrite : w.overwrite with
      | true =>
          have hcons : overwritten (w :: ws) = w.items ++ overwritten ws := by
            simp [overwritten, hoverwrite]
          rw [if_pos (.inl hoverwrite), hcons]
          exact List.foldl_append.symm
      | false =>
          have hcons : overwritten (w :: ws) = overwritten ws := by
            simp [overwritten, hoverwrite]
          rw [if_neg (by simp [Write.Applies, hoverwrite, hw]), hcons]

omit [DecidableEq κ] in
theorem Coherent.of_append {ws ws' : List (Write κ ν)} (hws : Coherent (ws ++ ws')) :
    Coherent ws := fun w hw w' hw' =>
  hws w (List.mem_append_left _ hw) w' (List.mem_append_left _ hw')

/-- The last of the writes that overwrite a key gives its value. -/
theorem run_of_overwritten (m : Contents κ ν) {ws : List (Write κ ν)} (hws : Coherent ws)
    {k : κ} {v : ν} (hlast : (overwritten ws).reverse.lookup k = some v) :
    run m ws k = some v := by
  induction ws using List.reverseRecOn with
  | nil => cases hlast
  | append_singleton ws w ih =>
      rw [run_concat, Write.apply]
      cases hoverwrite : w.overwrite with
      | true =>
          have happend : overwritten (ws ++ [w]) = overwritten ws ++ w.items := by
            simp [overwritten, hoverwrite]
          rw [happend, List.reverse_append, List.lookup_append] at hlast
          rw [if_pos (.inl hoverwrite), putAll_apply]
          rcases Option.or_eq_some_iff.mp hlast with hitem | ⟨hnone, hold⟩
          · rw [hitem, Option.some_or]
          · rw [hnone, Option.none_or, ih hws.of_append hold]
      | false =>
          have happend : overwritten (ws ++ [w]) = overwritten ws := by
            simp [overwritten, hoverwrite]
          rw [happend] at hlast
          have hold := ih hws.of_append hlast
          split_ifs with happlies
          · have hfree : run m ws w.guard = none := by
              simpa [Write.Applies, hoverwrite] using happlies
            rw [putAll_of_not_mem _ fun hk => ?_, hold]
            have hitem := List.mem_reverse.mp (mem_of_lookup hlast)
            obtain ⟨w', hw', hitem⟩ := List.mem_flatMap.mp hitem
            obtain ⟨hw', hoverwrite'⟩ := List.mem_filter.mp hw'
            have hguard := hws w' (List.mem_append_left _ hw') w (by simp) hoverwrite' hoverwrite
              k (List.mem_map_of_mem hitem) hk
            rw [hguard, hfree] at hold
            cases hold
          · exact hold

/-- Coherent writes that are made a second time change nothing. -/
theorem run_run (m : Contents κ ν) {ws : List (Write κ ν)} (hws : Coherent ws) :
    run (run m ws) ws = run m ws := by
  rw [run_of_guards_present (guard_present_run m)]
  funext k
  rw [putAll_apply]
  cases hlast : (overwritten ws).reverse.lookup k with
  | none => rfl
  | some v =>
      rw [run_of_overwritten m hws hlast]
      rfl

/-! ### Starting again -/

/-- After the writes `ws'`, the writes `ws` do what they do without them. -/
def Covers (ws ws' : List (Write κ ν)) : Prop := ∀ m, run (run m ws') ws = run m ws

theorem covers_of_append {ws ws' : List (Write κ ν)} (hws : Coherent (ws ++ ws')) :
    Covers (ws ++ ws') ws := by
  intro m
  rw [run_append, run_run m hws.of_append, run_append]

theorem run_of_overwrite (m : Contents κ ν) {ws : List (Write κ ν)}
    (hws : ∀ w ∈ ws, w.overwrite = true) : run m ws = putAll m (ws.flatMap Write.items) := by
  induction ws generalizing m with
  | nil => rfl
  | cons w ws ih =>
      obtain ⟨hw, hws⟩ := List.forall_mem_cons.mp hws
      change run (w.apply m) ws = _
      rw [ih _ hws, Write.apply, if_pos (.inl hw)]
      exact List.foldl_append.symm

/-- Writes that all overwrite cover any of themselves, in any order. -/
theorem covers_of_overwrite {ws ws' : List (Write κ ν)} (hws : ∀ w ∈ ws, w.overwrite = true)
    (hsubset : ws' ⊆ ws) : Covers ws ws' := by
  intro m
  funext k
  rw [run_of_overwrite _ hws, run_of_overwrite _ hws, putAll_apply, putAll_apply]
  cases hlast : (ws.flatMap Write.items).reverse.lookup k with
  | some v => rfl
  | none =>
      rw [Option.none_or, Option.none_or]
      apply run_of_not_mem
      intro w hw hk
      rw [lookup_eq_none_iff_not_mem, List.map_reverse, List.mem_reverse] at hlast
      apply hlast
      obtain ⟨entry, hentry, rfl⟩ := List.mem_map.mp hk
      exact List.mem_map_of_mem (List.mem_flatMap.mpr ⟨w, hsubset hw, hentry⟩)

theorem Covers.run_foldl {ws : List (Write κ ν)} {attempts : List (List (Write κ ν))}
    (hattempts : ∀ ws' ∈ attempts, Covers ws ws') (m : Contents κ ν) :
    run (attempts.foldl run m) ws = run m ws := by
  induction attempts generalizing m with
  | nil => rfl
  | cons ws' attempts ih =>
      obtain ⟨hws', hattempts⟩ := List.forall_mem_cons.mp hattempts
      exact (ih hattempts (run m ws')).trans (hws' m)

/-- What is there stays, if only writes that it guards itself would put it. -/
theorem run_of_guarded {m : Contents κ ν} {k : κ} {v : ν} (hk : m k = some v)
    {ws : List (Write κ ν)}
    (hws : ∀ w ∈ ws, k ∈ w.items.map Prod.fst → w.overwrite = false ∧ w.guard = k) :
    run m ws k = some v := by
  induction ws generalizing m with
  | nil => exact hk
  | cons w ws ih =>
      obtain ⟨hw, hws⟩ := List.forall_mem_cons.mp hws
      refine ih ?_ hws
      unfold Write.apply
      split_ifs with happlies
      · rw [putAll_of_not_mem, hk]
        intro hmem
        obtain ⟨hoverwrite, hguard⟩ := hw hmem
        rcases happlies with htrue | hfree
        · rw [hoverwrite] at htrue
          cases htrue
        · rw [hguard, hk] at hfree
          cases hfree
      · exact hk

end Atp.GuardedWrites

import Mathlib

/-!
Finite maps whose entries are kept in key order and read by ranges.
-/

namespace Atp

structure OrderedMap (κ ν : Type*) [LinearOrder κ] where
  entries : List (κ × ν)
  sorted : entries.Pairwise fun a b => a.1 < b.1

namespace OrderedMap

variable {κ ν : Type*} [LinearOrder κ]

def empty : OrderedMap κ ν := ⟨[], .nil⟩

def get? (m : OrderedMap κ ν) (k : κ) : Option ν :=
  (m.entries.find? fun e => e.1 = k).map Prod.snd

def insertEntry (k : κ) (v : ν) : List (κ × ν) → List (κ × ν)
  | [] => [(k, v)]
  | e :: es =>
      if k < e.1 then (k, v) :: e :: es
      else if e.1 < k then e :: insertEntry k v es
      else (k, v) :: es

theorem mem_insertEntry {k : κ} {v : ν} {es : List (κ × ν)} {e : κ × ν}
    (he : e ∈ insertEntry k v es) : e = (k, v) ∨ e ∈ es := by
  induction es with
  | nil => exact .inl (List.mem_singleton.mp he)
  | cons f es ih =>
      unfold insertEntry at he
      split_ifs at he
      · exact List.mem_cons.mp he
      · rcases List.mem_cons.mp he with rfl | he
        · exact .inr List.mem_cons_self
        · exact (ih he).imp_right (List.mem_cons_of_mem _)
      · exact (List.mem_cons.mp he).imp_right (List.mem_cons_of_mem _)

theorem fst_mem_insertEntry {k : κ} {v : ν} {es : List (κ × ν)} {e : κ × ν}
    (he : e ∈ insertEntry k v es) : e.1 = k ∨ e ∈ es :=
  (mem_insertEntry he).imp_left fun heq => by rw [heq]

/-- An entry with a new key is added to those that are there. -/
theorem insertEntry_perm {k : κ} (v : ν) {es : List (κ × ν)} (hk : ∀ e ∈ es, e.1 ≠ k) :
    (insertEntry k v es).Perm ((k, v) :: es) := by
  induction es with
  | nil => exact .refl _
  | cons f es ih =>
      rw [List.forall_mem_cons] at hk
      unfold insertEntry
      split_ifs with hlt hgt
      · exact .refl _
      · exact ((ih hk.2).cons f).trans (.swap _ _ _)
      · exact absurd (le_antisymm (not_lt.mp hlt) (not_lt.mp hgt)) hk.1

theorem sorted_insertEntry (k : κ) (v : ν) {es : List (κ × ν)}
    (hes : es.Pairwise fun a b => a.1 < b.1) :
    (insertEntry k v es).Pairwise fun a b => a.1 < b.1 := by
  induction es with
  | nil => exact List.pairwise_singleton _ _
  | cons e es ih =>
      rw [List.pairwise_cons] at hes
      unfold insertEntry
      split_ifs with hlt hgt
      · refine List.pairwise_cons.mpr ⟨fun f hf => ?_, List.pairwise_cons.mpr hes⟩
        rcases List.mem_cons.mp hf with rfl | hf
        · exact hlt
        · exact hlt.trans (hes.1 f hf)
      · refine List.pairwise_cons.mpr ⟨fun f hf => ?_, ih hes.2⟩
        rcases fst_mem_insertEntry hf with hf | hf
        · rwa [hf]
        · exact hes.1 f hf
      · refine List.pairwise_cons.mpr ⟨fun f hf => ?_, hes.2⟩
        exact le_antisymm (not_lt.mp hlt) (not_lt.mp hgt) ▸ hes.1 f hf

def put (m : OrderedMap κ ν) (k : κ) (v : ν) : OrderedMap κ ν :=
  ⟨insertEntry k v m.entries, sorted_insertEntry k v m.sorted⟩

def seek (m : OrderedMap κ ν) (k : κ) : List (κ × ν) :=
  m.entries.dropWhile fun e => e.1 < k

def below (k : κ) (es : List (κ × ν)) : List (κ × ν) := es.takeWhile fun e => e.1 < k

def range (m : OrderedMap κ ν) (start stop : κ) : List (κ × ν) := below stop (m.seek start)

theorem below_cons_of_lt {k : κ} {e : κ × ν} (hlt : e.1 < k) (es : List (κ × ν)) :
    below k (e :: es) = e :: below k es :=
  List.takeWhile_cons_of_pos (by simpa using hlt)

theorem below_cons_of_not_lt {k : κ} {e : κ × ν} (hlt : ¬ e.1 < k) (es : List (κ × ν)) :
    below k (e :: es) = [] :=
  List.takeWhile_cons_of_neg (by simpa using hlt)

/-- The entries from `start` on are those of the range, and others that begin with
one not below `stop`. -/
theorem exists_seek_eq (m : OrderedMap κ ν) (start stop : κ) :
    ∃ rest, m.seek start = m.range start stop ++ rest ∧
      (∀ e ∈ m.range start stop, e.1 < stop) ∧ ∀ e ∈ rest.head?, ¬ e.1 < stop := by
  refine ⟨(m.seek start).dropWhile fun e => e.1 < stop, ?_, ?_, ?_⟩
  · exact List.takeWhile_append_dropWhile.symm
  · intro e he
    simpa using List.mem_takeWhile_imp he
  · intro e he
    have hnot := List.head?_dropWhile_not (fun e => decide (e.1 < stop)) (m.seek start)
    rw [Option.mem_def.mp he] at hnot
    simpa using hnot

@[simp] theorem get?_empty (k : κ) : (empty : OrderedMap κ ν).get? k = none := rfl

theorem find?_insertEntry (k : κ) (v : ν) (k' : κ) (es : List (κ × ν)) :
    (insertEntry k v es).find? (fun e => e.1 = k') =
      if k' = k then some (k, v) else es.find? fun e => e.1 = k' := by
  induction es with
  | nil =>
      by_cases hk : k' = k
      · simp [insertEntry, hk]
      · simp [insertEntry, hk, Ne.symm hk]
  | cons e es ih =>
      rcases lt_trichotomy k e.1 with hlt | heq | hgt
      · rw [insertEntry, if_pos hlt]
        by_cases hk : k' = k
        · simp [hk]
        · rw [List.find?_cons_of_neg (by simpa using Ne.symm hk), if_neg hk]
      · rw [insertEntry, if_neg heq.not_lt, if_neg heq.not_gt]
        by_cases hk : k' = k
        · simp [hk]
        · rw [List.find?_cons_of_neg (by simpa using Ne.symm hk), if_neg hk,
            List.find?_cons_of_neg (by simpa [← heq] using Ne.symm hk)]
      · rw [insertEntry, if_neg hgt.not_gt, if_pos hgt, List.find?_cons, ih,
          List.find?_cons]
        by_cases hk : k' = k
        · simp [hk, hgt.ne]
        · simp [hk]

theorem get?_put (m : OrderedMap κ ν) (k : κ) (v : ν) (k' : κ) [Decidable (k' = k)] :
    (m.put k v).get? k' = if k' = k then some v else m.get? k' := by
  unfold get? put
  rw [find?_insertEntry]
  split_ifs <;> rfl

@[simp] theorem get?_put_self (m : OrderedMap κ ν) (k : κ) (v : ν) :
    (m.put k v).get? k = some v := by rw [get?_put, if_pos rfl]

theorem get?_put_of_ne (m : OrderedMap κ ν) {k k' : κ} (hne : k' ≠ k) (v : ν) :
    (m.put k v).get? k' = m.get? k' := by rw [get?_put, if_neg hne]

theorem get?_eq_some_iff {m : OrderedMap κ ν} {k : κ} {v : ν} :
    m.get? k = some v ↔ (k, v) ∈ m.entries := by
  obtain ⟨es, hes⟩ := m
  change (es.find? fun e => e.1 = k).map Prod.snd = some v ↔ (k, v) ∈ es
  induction es with
  | nil => simp
  | cons e es ih =>
      rw [List.pairwise_cons] at hes
      obtain ⟨k', v'⟩ := e
      by_cases hk : k' = k
      · subst hk
        have hnot : (k', v) ∉ es := fun hmem => (hes.1 _ hmem).false
        simp [hnot, eq_comm]
      · rw [List.find?_cons_of_neg (by simpa using hk), ih hes.2]
        simp [Ne.symm hk]

/-- The entries of a map are in one order only. -/
theorem eq_of_get? {m m' : OrderedMap κ ν} (hget : m.get? = m'.get?) : m = m' := by
  have hnodup : ∀ m : OrderedMap κ ν, m.entries.Nodup := fun m =>
    m.sorted.imp fun hlt heq => (heq ▸ hlt).false
  have hperm : m.entries.Perm m'.entries := by
    rw [List.perm_ext_iff_of_nodup (hnodup m) (hnodup m')]
    rintro ⟨k, v⟩
    rw [← get?_eq_some_iff, ← get?_eq_some_iff, hget]
  obtain ⟨entries, hsorted⟩ := m
  obtain ⟨entries', hsorted'⟩ := m'
  obtain rfl : entries = entries' :=
    hperm.eq_of_pairwise (fun _ _ _ _ hlt hgt => (lt_asymm hlt hgt).elim) hsorted hsorted'
  rfl

theorem dropWhile_eq_filter {es : List (κ × ν)} (k : κ)
    (hes : es.Pairwise fun a b => a.1 < b.1) :
    es.dropWhile (fun e => e.1 < k) = es.filter fun e => k ≤ e.1 := by
  induction es with
  | nil => rfl
  | cons e es ih =>
      rw [List.pairwise_cons] at hes
      by_cases hlt : e.1 < k
      · simpa [hlt] using ih hes.2
      · have hrest : es.filter (fun e => k ≤ e.1) = es := by
          rw [List.filter_eq_self]
          intro f hf
          simpa using (not_lt.mp hlt).trans (hes.1 f hf).le
        simp [hlt, not_lt.mp hlt, hrest]

theorem below_eq_filter {es : List (κ × ν)} (k : κ)
    (hes : es.Pairwise fun a b => a.1 < b.1) :
    below k es = es.filter fun e => e.1 < k := by
  unfold below
  induction es with
  | nil => rfl
  | cons e es ih =>
      rw [List.pairwise_cons] at hes
      by_cases hlt : e.1 < k
      · simpa [hlt] using ih hes.2
      · have hrest : es.filter (fun e => e.1 < k) = [] := by
          rw [List.filter_eq_nil_iff]
          intro f hf
          simpa using (not_lt.mp hlt).trans (hes.1 f hf).le
        simp [hlt, hrest]

theorem sorted_seek (m : OrderedMap κ ν) (k : κ) :
    (m.seek k).Pairwise fun a b => a.1 < b.1 :=
  m.sorted.sublist (List.dropWhile_sublist _)

theorem sorted_range (m : OrderedMap κ ν) (start stop : κ) :
    (m.range start stop).Pairwise fun a b => a.1 < b.1 :=
  (m.sorted_seek start).sublist (List.takeWhile_sublist _)

theorem mem_range_iff {m : OrderedMap κ ν} {start stop k : κ} {v : ν} :
    (k, v) ∈ m.range start stop ↔
      m.get? k = some v ∧ start ≤ k ∧ k < stop := by
  rw [get?_eq_some_iff, range, below_eq_filter stop (m.sorted_seek start), seek,
    dropWhile_eq_filter start m.sorted, List.mem_filter, List.mem_filter,
    decide_eq_true_eq, decide_eq_true_eq, and_assoc]

end OrderedMap

end Atp

import Atp.HistorianQuery

/-!
The number that a query returns and the records that its visitor is passed.  The
counter counts the entries that are read past, records or not, and misses the one
at which the visitor stops.
-/

namespace Atp.QueryCount

open HistorianStore HistorianQuery

variable {σ : Type}

/-- The visitor, with a list of the records that it has been passed. -/
def recording (visit : Visitor σ) : Visitor (σ × List Record) := fun s record =>
  (((visit s.1 record).1, s.2 ++ [record]), (visit s.1 record).2)

def passed (codec : Codec Record) (visit : Visitor σ) (levelDb : LevelDb) (start stop : Text)
    (s : σ) : List Record :=
  (queryRange codec (recording visit) levelDb start stop (s, [])).2.2

/-- The query returns the number of the records passed to the visitor.  The number is
an `int`, which cannot count beyond `2 ^ 31 - 1`. -/
def CountsPassed (codec : Codec Record) (visit : Visitor σ) (levelDb : LevelDb)
    (start stop : Text) (s : σ) : Prop :=
  (queryRange codec visit levelDb start stop s).1 =
      (passed codec visit levelDb start stop s).length ∧
    (queryRange codec visit levelDb start stop s).1 < 2 ^ 31

/-- The visitor reads on after each of the records. -/
def ReadsOn (visit : Visitor σ) : σ → List Record → Prop
  | _, [] => True
  | s, record :: records => (visit s record).2 = true ∧ ReadsOn visit (visit s record).1 records

def after (visit : Visitor σ) (s : σ) (records : List Record) : σ :=
  records.foldl (fun s record => (visit s record).1) s

/-- The number of values that are no records. -/
def unreadable (codec : Codec Record) (entries : List (Text × Text)) : Nat :=
  entries.countP fun e => (codec.parseFromString e.2).isNone

/-- The visitor reads on after the records of `pre`, and stops at the next entry. -/
structure StopsAt (codec : Codec Record) (visit : Visitor σ) (s : σ)
    (pre : List (Text × Text)) (e : Text × Text) : Prop where
  readsOn : ReadsOn visit s (recordsOf codec pre)
  stops : ∃ record, codec.parseFromString e.2 = some record ∧
    (visit (after visit s (recordsOf codec pre)) (record.setKey e.1)).2 = false

/-- All values of the range are records and the visitor reads on after each; or it
stops at one, and of the values before it exactly one is no record. -/
def OneUnreadableIfStopped (codec : Codec Record) (visit : Visitor σ) (s : σ)
    (range : List (Text × Text)) : Prop :=
  (ReadsOn visit s (recordsOf codec range) ∧ unreadable codec range = 0 ∧
      range.length < 2 ^ 31) ∨
    ∃ pre e post, range = pre ++ e :: post ∧ StopsAt codec visit s pre e ∧
      unreadable codec pre = 1 ∧ pre.length < 2 ^ 31

/-! ### The loop -/

theorem length_recordsOf (codec : Codec Record) (entries : List (Text × Text)) :
    (recordsOf codec entries).length + unreadable codec entries = entries.length := by
  induction entries with
  | nil => rfl
  | cons e es ih =>
      rw [recordsOf] at ih ⊢
      rw [unreadable] at ih ⊢
      rw [List.filterMap_cons, List.countP_cons, List.length_cons]
      cases codec.parseFromString e.2 with
      | none =>
          simp only [Option.map_none, Option.isNone_none, ↓reduceIte]
          omega
      | some record =>
          simp only [Option.map_some, Option.isNone_some, List.length_cons]
          rw [if_neg Bool.false_ne_true]
          omega

section

variable (codec : Codec Record) {visit : Visitor σ} {stop : Text}

theorem queryLoop_append {pre : List (Text × Text)} (hpre : ∀ e ∈ pre, e.1 < stop) {s : σ}
    (hreads : ReadsOn visit s (recordsOf codec pre)) (rest : List (Text × Text)) (count : Nat) :
    queryLoop codec visit stop (pre ++ rest) count s =
      queryLoop codec visit stop rest (count + pre.length)
        (after visit s (recordsOf codec pre)) := by
  induction pre generalizing s count with
  | nil => rfl
  | cons e es ih =>
      rw [List.forall_mem_cons] at hpre
      rw [recordsOf, List.filterMap_cons] at hreads ⊢
      rw [List.cons_append, queryLoop, if_pos hpre.1, List.length_cons, Nat.add_comm es.length,
        ← Nat.add_assoc]
      cases hparse : codec.parseFromString e.2 with
      | none =>
          simp only [hparse, Option.map_none] at hreads ⊢
          exact ih hpre.2 hreads (count + 1)
      | some record =>
          simp only [hparse, Option.map_some] at hreads ⊢
          obtain ⟨hmore, hreads⟩ := hreads
          rw [if_pos hmore]
          exact ih hpre.2 hreads (count + 1)

theorem queryLoop_end {rest : List (Text × Text)} (hrest : ∀ e ∈ rest.head?, ¬ e.1 < stop)
    (count : Nat) (s : σ) : queryLoop codec visit stop rest count s = (count, s) := by
  cases rest with
  | nil => rfl
  | cons e es => rw [queryLoop, if_neg (hrest e rfl)]

theorem queryLoop_stop {e : Text × Text} (he : e.1 < stop) {record : Record}
    (hparse : codec.parseFromString e.2 = some record) {s : σ}
    (hstop : (visit s (record.setKey e.1)).2 = false) (rest : List (Text × Text)) (count : Nat) :
    queryLoop codec visit stop (e :: rest) count s =
      (count, (visit s (record.setKey e.1)).1) := by
  rw [queryLoop, if_pos he, hparse]
  dsimp only
  rw [if_neg (Bool.not_eq_true _ ▸ hstop)]

end

theorem recordsOf_cons_none {codec : Codec Record} {e : Text × Text}
    (hparse : codec.parseFromString e.2 = none) (es : List (Text × Text)) :
    recordsOf codec (e :: es) = recordsOf codec es := by
  rw [recordsOf, List.filterMap_cons, hparse]
  rfl

theorem recordsOf_cons_some {codec : Codec Record} {e : Text × Text} {record : Record}
    (hparse : codec.parseFromString e.2 = some record) (es : List (Text × Text)) :
    recordsOf codec (e :: es) = record.setKey e.1 :: recordsOf codec es := by
  rw [recordsOf, List.filterMap_cons, hparse]
  rfl

/-- The visitor reads on after all records, or there is one at which it stops. -/
theorem readsOn_or_stopsAt (codec : Codec Record) (visit : Visitor σ) (s : σ)
    (entries : List (Text × Text)) :
    ReadsOn visit s (recordsOf codec entries) ∨
      ∃ pre e post, entries = pre ++ e :: post ∧ StopsAt codec visit s pre e := by
  induction entries generalizing s with
  | nil => exact .inl trivial
  | cons e es ih =>
      cases hparse : codec.parseFromString e.2 with
      | none =>
          rw [recordsOf_cons_none hparse]
          refine (ih s).imp_right ?_
          rintro ⟨pre, e', post, rfl, hreads, hstops⟩
          refine ⟨e :: pre, e', post, rfl, ?_, ?_⟩
          · rwa [recordsOf_cons_none hparse]
          · rwa [recordsOf_cons_none hparse]
      | some record =>
          rw [recordsOf_cons_some hparse]
          cases hmore : (visit s (record.setKey e.1)).2 with
          | false => exact .inr ⟨[], e, es, rfl, trivial, record, hparse, hmore⟩
          | true =>
              refine (ih (visit s (record.setKey e.1)).1).imp (⟨hmore, ·⟩) ?_
              rintro ⟨pre, e', post, rfl, hreads, hstops⟩
              refine ⟨e :: pre, e', post, rfl, ?_, ?_⟩
              · rw [recordsOf_cons_some hparse]
                exact ⟨hmore, hreads⟩
              · rwa [recordsOf_cons_some hparse]

/-! ### The recording visitor -/

theorem readsOn_recording {visit : Visitor σ} {s : σ} {seen records : List Record} :
    ReadsOn (recording visit) (s, seen) records ↔ ReadsOn visit s records := by
  induction records generalizing s seen with
  | nil => rfl
  | cons record records ih => exact and_congr_right fun _ => ih

theorem after_recording (visit : Visitor σ) (s : σ) (seen records : List Record) :
    after (recording visit) (s, seen) records = (after visit s records, seen ++ records) := by
  induction records generalizing s seen with
  | nil => simp [after]
  | cons record records ih =>
      change after (recording visit) ((visit s record).1, seen ++ [record]) records = _
      rw [ih, List.append_assoc]
      rfl

/-! ### The range of a query -/

section

variable {codec : Codec Record} {visit : Visitor σ} {levelDb : LevelDb} {start stop : Text} {s : σ}

theorem queryRange_of_readsOn
    (hreads : ReadsOn visit s (recordsOf codec (levelDb.range start stop))) :
    queryRange codec visit levelDb start stop s =
      ((levelDb.range start stop).length,
        after visit s (recordsOf codec (levelDb.range start stop))) := by
  obtain ⟨rest, hseek, hbelow, hrest⟩ := levelDb.exists_seek_eq start stop
  rw [queryRange, hseek, queryLoop_append codec hbelow hreads, queryLoop_end codec hrest,
    Nat.zero_add]

theorem queryRange_of_stopsAt {pre post : List (Text × Text)} {e : Text × Text}
    {record : Record} (hrange : levelDb.range start stop = pre ++ e :: post)
    (hreads : ReadsOn visit s (recordsOf codec pre))
    (hparse : codec.parseFromString e.2 = some record)
    (hstop : (visit (after visit s (recordsOf codec pre)) (record.setKey e.1)).2 = false) :
    queryRange codec visit levelDb start stop s =
      (pre.length, (visit (after visit s (recordsOf codec pre)) (record.setKey e.1)).1) := by
  obtain ⟨rest, hseek, hbelow, -⟩ := levelDb.exists_seek_eq start stop
  rw [hrange, List.forall_mem_append, List.forall_mem_cons] at hbelow
  rw [queryRange, hseek, hrange, List.append_assoc, List.cons_append,
    queryLoop_append codec hbelow.1 hreads, queryLoop_stop codec hbelow.2.1 hparse hstop,
    Nat.zero_add]

theorem passed_of_readsOn
    (hreads : ReadsOn visit s (recordsOf codec (levelDb.range start stop))) :
    passed codec visit levelDb start stop s = recordsOf codec (levelDb.range start stop) := by
  rw [passed, queryRange_of_readsOn (readsOn_recording.mpr hreads), after_recording]
  rfl

theorem passed_of_stopsAt {pre post : List (Text × Text)} {e : Text × Text}
    {record : Record} (hrange : levelDb.range start stop = pre ++ e :: post)
    (hreads : ReadsOn visit s (recordsOf codec pre))
    (hparse : codec.parseFromString e.2 = some record)
    (hstop : (visit (after visit s (recordsOf codec pre)) (record.setKey e.1)).2 = false) :
    passed codec visit levelDb start stop s = recordsOf codec pre ++ [record.setKey e.1] := by
  have hafter := after_recording visit s [] (recordsOf codec pre)
  rw [passed, queryRange_of_stopsAt hrange (readsOn_recording.mpr hreads) hparse]
  · rw [hafter]
    rfl
  · rwa [hafter]

theorem countsPassed_iff_of_readsOn
    (hreads : ReadsOn visit s (recordsOf codec (levelDb.range start stop))) :
    CountsPassed codec visit levelDb start stop s ↔
      unreadable codec (levelDb.range start stop) = 0 ∧
        (levelDb.range start stop).length < 2 ^ 31 := by
  have hlength := length_recordsOf codec (levelDb.range start stop)
  rw [CountsPassed, queryRange_of_readsOn hreads, passed_of_readsOn hreads]
  omega

theorem countsPassed_iff_of_stopsAt {pre post : List (Text × Text)} {e : Text × Text}
    (hrange : levelDb.range start stop = pre ++ e :: post)
    (hstops : StopsAt codec visit s pre e) :
    CountsPassed codec visit levelDb start stop s ↔
      unreadable codec pre = 1 ∧ pre.length < 2 ^ 31 := by
  obtain ⟨hreads, record, hparse, hstop⟩ := hstops
  have hlength := length_recordsOf codec pre
  rw [CountsPassed, queryRange_of_stopsAt hrange hreads hparse hstop,
    passed_of_stopsAt hrange hreads hparse hstop, List.length_append, List.length_singleton]
  omega

end

/-- The number returned is that of the records passed if and only if the one record
at which the visitor stops, if it does, is made up for by one unreadable value. -/
theorem countsPassed_iff (codec : Codec Record) (visit : Visitor σ) (levelDb : LevelDb)
    (start stop : Text) (s : σ) :
    CountsPassed codec visit levelDb start stop s ↔
      OneUnreadableIfStopped codec visit s (levelDb.range start stop) := by
  constructor
  · intro hcounts
    rcases readsOn_or_stopsAt codec visit s (levelDb.range start stop) with
      hreads | ⟨pre, e, post, hrange, hstops⟩
    · exact .inl ⟨hreads, (countsPassed_iff_of_readsOn hreads).mp hcounts⟩
    · exact .inr ⟨pre, e, post, hrange, hstops,
        (countsPassed_iff_of_stopsAt hrange hstops).mp hcounts⟩
  · rintro (⟨hreads, hcount⟩ | ⟨pre, e, post, hrange, hstops, hcount⟩)
    · exact (countsPassed_iff_of_readsOn hreads).mpr hcount
    · exact (countsPassed_iff_of_stopsAt hrange hstops).mpr hcount

/-- A store whose one value is no record, as another program may have left it. -/
def foreign : LevelDb := OrderedMap.empty.put ['a'] ['?']

/-- A visitor that stops at the first record. -/
def stopAtOnce : Visitor Unit := fun s _ => (s, false)

/-- A value that is no record is counted. -/
theorem not_all_countsPassed :
    ¬ ∀ codec visit levelDb start stop s,
      @CountsPassed Unit codec visit levelDb start stop s := by
  intro hall
  have hcounts := hall RecordWire.recordCodec stopAtOnce foreign ['a'] ['b'] ()
  exact absurd hcounts.1 (by decide)

end Atp.QueryCount

import Atp.LogRecord
import Mathlib.Data.List.AList

/-!
Log lines split into maps of names and values, which may have some already.  The map of
a line is that of its record.
-/

namespace Atp.RecordMap

open FieldSplit LogRecord

abbrev NameValues := AList fun _ : Text => Text

def readPair (nvDelim : Char) (result : NameValues) (field : Text) :
    Except Failure NameValues := do
  let (key, val) ← splitPair nvDelim field
  .ok (result.insert key val)

def splitMap (line : Text) (result : NameValues) (nvDelim : Char) (pDelim : Text) :
    Except Failure (Bool × NameValues) :=
  let nvpairs := line.splitOnP (· ∈ pDelim)
  if nvpairs = [] then .ok (false, result)
  else (fun result => (true, result)) <$> nvpairs.foldlM (readPair nvDelim) result

def lineToRecord := splitMap

def parseMap := splitMap

structure Delimiters where
  nvDelim : Char
  pDelim : Char
  ne : nvDelim ≠ pDelim

/-- The delimiters of a log line. -/
def lineDelimiters : Delimiters := ⟨'=', ',', by decide⟩

/-- The delimiters of a contract in a log line. -/
def contractDelimiters : Delimiters := ⟨':', ';', by decide⟩

def Delimiters.text (d : Delimiters) (pairs : List (Text × Text)) : Text :=
  pairsText d.nvDelim d.pDelim pairs

/-! ### The map of a record -/

/-- The pairs of a record, the latest of which are inserted last. -/
def ofRecord (nv : LogRecord) : NameValues := nv.foldr (fun p result => result.insert p.1 p.2) ∅

theorem lookup_ofRecord (nv : LogRecord) (name : Text) :
    (ofRecord nv).lookup name = LogRecord.find nv name := by
  induction nv with
  | nil => exact AList.lookup_empty name
  | cons p nv ih =>
      change ((ofRecord nv).insert p.1 p.2).lookup name = _
      rw [LogRecord.find, List.lookup_cons]
      by_cases hname : name = p.1
      · rw [hname, AList.lookup_insert, beq_self_eq_true]
      · rw [AList.lookup_insert_ne hname, ih, beq_false_of_ne hname]
        rfl

theorem readPairs_eq (nvDelim : Char) (fields : List Text) (result : NameValues) :
    fields.foldlM (readPair nvDelim) result =
      (fun pairs => pairs.foldl (fun result p => result.insert p.1 p.2) result) <$>
        fields.mapM (splitPair nvDelim) := by
  induction fields generalizing result with
  | nil => rfl
  | cons field fields ih =>
      rw [List.foldlM_cons, List.mapM_cons, readPair]
      cases splitPair nvDelim field with
      | error e => rfl
      | ok p =>
          rw [ok_bind, ok_bind, ok_bind, ih]
          cases fields.mapM (splitPair nvDelim) with
          | error e => rfl
          | ok pairs => rfl

theorem splitMap_of_ne_nil (line : Text) (result : NameValues) (nvDelim pDelim : Char) :
    splitMap line result nvDelim [pDelim] =
      (fun result => (true, result)) <$>
        (line.splitOn pDelim).foldlM (readPair nvDelim) result := by
  have hsplit : line.splitOnP (· ∈ [pDelim]) = line.splitOn pDelim := by
    rw [List.splitOn_eq_splitOnP]
    refine congrArg (List.splitOnP · line) (funext fun c => ?_)
    rw [Bool.eq_iff_iff, decide_eq_true_iff, List.mem_singleton, beq_iff_eq]
  have hne : line.splitOn pDelim ≠ [] := by
    rw [List.splitOn_eq_splitOnP]
    exact List.splitOnP_ne_nil _ line
  rw [splitMap, hsplit]
  exact if_neg hne

/-- A line is split into the map of its record, and throws where that does. -/
theorem splitMap_eq_lineToRecord (line : Text) (nvDelim pDelim : Char) :
    splitMap line ∅ nvDelim [pDelim] =
      (fun nv => (true, ofRecord nv)) <$> LogRecord.lineToRecord nvDelim pDelim line := by
  rw [splitMap_of_ne_nil, readPairs_eq, LogRecord.lineToRecord]
  cases (line.splitOn pDelim).mapM (splitPair nvDelim) with
  | error e => rfl
  | ok pairs =>
      change Except.ok (true, pairs.foldl _ ∅) = .ok (true, pairs.reverse.foldr _ ∅)
      rw [List.foldr_reverse]

/-! ### The text of a list of pairs -/

/-- Names and values that the delimiters separate. -/
structure Separated (d : Delimiters) (pairs : List (Text × Text)) : Prop where
  ne_nil : pairs ≠ []
  nodup : (pairs.map Prod.fst).Nodup
  names : ∀ p ∈ pairs, d.nvDelim ∉ p.1 ∧ d.pDelim ∉ p.1
  values : ∀ p ∈ pairs, d.pDelim ∉ p.2

/-- Each name stands for its value where no name stands for two. -/
theorem find_eq_some_iff {pairs : List (Text × Text)} (hnodup : (pairs.map Prod.fst).Nodup)
    {name value : Text} :
    LogRecord.find pairs name = some value ↔ (name, value) ∈ pairs := by
  induction pairs with
  | nil => simp [LogRecord.find]
  | cons p pairs ih =>
      rw [List.map_cons, List.nodup_cons] at hnodup
      rw [LogRecord.find, List.lookup_cons, List.mem_cons]
      change (match name == p.1 with
        | true => some p.2
        | false => LogRecord.find pairs name) = some value ↔ _
      cases hname : name == p.1 with
      | true =>
          obtain rfl := eq_of_beq hname
          have hother : (p.1, value) ∉ pairs := fun hmem =>
            hnodup.1 (List.mem_map.mpr ⟨_, hmem, rfl⟩)
          rw [or_iff_left hother, Option.some.injEq]
          exact ⟨fun heq => congrArg (Prod.mk p.1) heq.symm,
            fun heq => (congrArg Prod.snd heq).symm⟩
      | false =>
          have hother : (name, value) ≠ p := fun heq =>
            ne_of_beq_false hname (congrArg Prod.fst heq)
          rw [or_iff_right hother]
          exact ih hnodup.2

/-- `split` returns true, and the map is exactly the map of the pairs. -/
def Recovers
    (split : Text → NameValues → Char → Text → Except Failure (Bool × NameValues))
    (d : Delimiters) (pairs : List (Text × Text)) : Prop :=
  ∃ result, split (d.text pairs) ∅ d.nvDelim [d.pDelim] = .ok (true, result) ∧
    ∀ name value, result.lookup name = some value ↔ (name, value) ∈ pairs

section

variable {d : Delimiters} {pairs : List (Text × Text)} (h : Separated d pairs)

include h

theorem recovers_of_short (hshort : ∀ p ∈ pairs, p.1.length < 2147483647) :
    Recovers splitMap d pairs := by
  have hread := lineToRecord_pairsText d.ne h.ne_nil h.names h.values hshort
  refine ⟨ofRecord pairs.reverse, ?_, fun name value => ?_⟩
  · rw [Delimiters.text, splitMap_eq_lineToRecord, hread]
    rfl
  · have hnodup : (pairs.reverse.map Prod.fst).Nodup := by
      rw [List.map_reverse]
      exact List.nodup_reverse.mpr h.nodup
    rw [lookup_ofRecord, find_eq_some_iff hnodup, List.mem_reverse]

theorem short_of_recovers (hrecovers : Recovers splitMap d pairs) :
    ∀ p ∈ pairs, p.1.length < 2147483647 := by
  obtain ⟨result, hsplit, hlookup⟩ := hrecovers
  rw [splitMap_eq_lineToRecord] at hsplit
  cases hread : LogRecord.lineToRecord d.nvDelim d.pDelim (d.text pairs) with
  | error e =>
      rw [hread] at hsplit
      cases hsplit
  | ok nv =>
      rw [hread] at hsplit
      obtain rfl : ofRecord nv = result := (Prod.mk.inj (Except.ok.inj hsplit)).2
      intro p hp
      have hfind := (hlookup p.1 p.2).mpr hp
      rw [lookup_ofRecord] at hfind
      obtain ⟨front, back, hnv, -⟩ := List.lookup_eq_some_iff.mp hfind
      have hmem : (p.1, p.2) ∈ nv := by
        rw [hnv]
        exact List.mem_append_right front List.mem_cons_self
      obtain ⟨field, hfield, hpair⟩ := mem_of_lineToRecord hread hmem
      rw [Delimiters.text, splitOn_pairsText d.ne h.ne_nil h.names h.values] at hfield
      obtain ⟨q, -, rfl⟩ := List.mem_map.mp hfield
      have hdelim : d.nvDelim ∈ q.1 ++ d.nvDelim :: q.2 :=
        List.mem_append_right _ List.mem_cons_self
      rcases name_of_splitPair hdelim hpair with hshort | hmem
      · exact hshort
      · exact absurd hmem (h.names p hp).1

end

theorem line_to_record_recovers_iff {d : Delimiters} {pairs : List (Text × Text)}
    (h : Separated d pairs) :
    (Recovers lineToRecord d pairs ∧ Recovers parseMap d pairs) ↔
      ∀ p ∈ pairs, p.1.length < 2147483647 := by
  constructor
  · rintro ⟨hline, -⟩
    exact short_of_recovers h hline
  · intro hshort
    exact ⟨recovers_of_short h hshort, recovers_of_short h hshort⟩

theorem line_to_record_recovers_event :
    (Recovers lineToRecord lineDelimiters
        [("event".toList, "price=1".toList), ("id".toList, []), ("ts".toList, "5".toList)] ∧
      Recovers parseMap lineDelimiters
        [("event".toList, "price=1".toList), ("id".toList, []), ("ts".toList, "5".toList)]) ∧
    (Recovers lineToRecord contractDelimiters
        [("symbol".toList, "A:B".toList), ("right".toList, [])] ∧
      Recovers parseMap contractDelimiters
        [("symbol".toList, "A:B".toList), ("right".toList, [])]) :=
  ⟨(line_to_record_recovers_iff ⟨by decide, by decide, by decide, by decide⟩).mpr (by decide),
    (line_to_record_recovers_iff ⟨by decide, by decide, by decide, by decide⟩).mpr (by decide)⟩

theorem separated_replicate (n : Nat) (value : Text) (hvalue : ',' ∉ value) :
    Separated lineDelimiters [(List.replicate n 'a', value)] where
  ne_nil := List.cons_ne_nil _ _
  nodup := List.nodup_singleton _
  names := by
    rintro p hp
    obtain rfl := List.mem_singleton.mp hp
    exact ⟨fun hmem => absurd (List.eq_of_mem_replicate hmem) (by decide),
      fun hmem => absurd (List.eq_of_mem_replicate hmem) (by decide)⟩
  values := by
    rintro p hp
    obtain rfl := List.mem_singleton.mp hp
    exact hvalue

theorem lineToRecord_replicate {n : Nat} (hlong : 2147483648 ≤ n ∧ n < 4294967295)
    {value : Text} (hvalue : ',' ∉ value) :
    lineToRecord (lineDelimiters.text [(List.replicate n 'a', value)]) ∅ '=' [','] =
      .error .outOfRange := by
  have hseparated := separated_replicate n value hvalue
  have hsplit : splitPair '=' (List.replicate n 'a' ++ '=' :: value) = .error .outOfRange :=
    splitPair_of_long (hseparated.names _ List.mem_cons_self).1 value
      (by rwa [List.length_replicate])
  have hfields : (lineDelimiters.text [(List.replicate n 'a', value)]).splitOn ',' =
      [List.replicate n 'a' ++ '=' :: value] :=
    splitOn_pairsText lineDelimiters.ne hseparated.ne_nil hseparated.names hseparated.values
  rw [lineToRecord, splitMap_eq_lineToRecord, LogRecord.lineToRecord, hfields, List.mapM_cons,
    hsplit]
  rfl

/-- A name of `2 ^ 31` characters. -/
theorem line_to_record_long_name :
    Separated lineDelimiters [(List.replicate 2147483648 'a', ['1'])] ∧
      lineToRecord (lineDelimiters.text [(List.replicate 2147483648 'a', ['1'])]) ∅ '=' [','] =
        .error .outOfRange ∧
      ¬ Recovers lineToRecord lineDelimiters [(List.replicate 2147483648 'a', ['1'])] := by
  have hvalue : ',' ∉ ['1'] := by decide
  have herror := lineToRecord_replicate (n := 2147483648) ⟨by decide, by decide⟩ hvalue
  refine ⟨separated_replicate 2147483648 ['1'] hvalue, herror, ?_⟩
  rintro ⟨result, hok, -⟩
  cases herror.symm.trans hok

end Atp.RecordMap

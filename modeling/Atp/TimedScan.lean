import Mathlib.Data.List.Basic

/-!
A scan of timed entries that ends with a window.  The window is anchored at the entry
that follows the first result, and may therefore be longer than the one anchored at
the first result.
-/

namespace Atp.TimedScan

variable {ε α : Type*}

/-- What a scan meets: an entry that cannot be read, or one with a time whose
conversion fails, or gives a result or nothing. -/
inductive Entry (ε α : Type*) where
  | broken (e : ε)
  | event (t : Int) (converted : Except ε (Option α))

namespace Entry

def time? : Entry ε α → Option Int
  | broken _ => none
  | event t _ => some t

def hit? : Entry ε α → Option (Int × α)
  | broken _ => none
  | event _ (.error _) => none
  | event t (.ok a) => a.map (t, ·)

def Fails : Entry ε α → Prop
  | broken _ => True
  | event _ (.error _) => True
  | event _ (.ok _) => False

def Quiet (entry : Entry ε α) : Prop := ∃ t, entry = event t (.ok none)

end Entry

open Entry

/-- The window is anchored at the first entry that finds one result. -/
def anchor (first : Option Int) (as : List α) (t : Int) : Option Int :=
  if first = none ∧ as.length = 1 then some t else first

def scan (d : Int) : Option Int → List α → List (Entry ε α) → Except ε (List α)
  | _, as, [] => .ok as
  | _, _, .broken e :: _ => .error e
  | first, as, .event t converted :: es =>
      if ∃ f ∈ anchor first as t, f + d < t then .ok as
      else match converted with
        | .error e => .error e
        | .ok a => scan d (anchor first as t) (as ++ a.toList) es

def hits (es : List (Entry ε α)) : List (Int × α) := es.filterMap hit?

/-- The results within `d` of the first. -/
def within (d : Int) (es : List (Entry ε α)) : List α :=
  match hits es with
  | [] => []
  | (t, _) :: _ => ((hits es).filter fun h => h.1 ≤ t + d).map Prod.snd

def Chronological (es : List (Entry ε α)) : Prop :=
  (es.filterMap time?).Pairwise (· ≤ ·)

def before (limit : Int) (es : List (Entry ε α)) : List (Entry ε α) :=
  es.takeWhile fun e => decide (∀ t ∈ e.time?, t ≤ limit)

/-- What is read of the entries that follow the first result. -/
def scope (d : Int) (es : List (Entry ε α)) : List (Entry ε α) :=
  match es.head?.bind time? with
  | none => es
  | some t => before (t + d) es

/-- There is no result and no failure; or no entry fails that is read, and no result
that is read is later than `d` after the first. -/
def KeepsWindow (d : Int) (es : List (Entry ε α)) : Prop :=
  (∀ e ∈ es, e.Quiet) ∨
    ∃ pre t a post, es = pre ++ .event t (.ok (some a)) :: post ∧ (∀ e ∈ pre, e.Quiet) ∧
      0 ≤ d ∧ (∀ e ∈ scope d post, ¬ e.Fails) ∧ ∀ h ∈ hits (scope d post), h.1 ≤ t + d

/-! ### Reading to the end -/

def collect : List (Entry ε α) → Except ε (List α)
  | [] => .ok []
  | .broken e :: _ => .error e
  | .event _ (.error e) :: _ => .error e
  | .event _ (.ok a) :: es => (collect es).map (a.toList ++ ·)

theorem hits_cons_event (t : Int) (a : Option α) (es : List (Entry ε α)) :
    hits (.event t (.ok a) :: es) = (a.map (t, ·)).toList ++ hits es := by
  cases a <;> rfl

theorem map_eq_ok_iff {β γ : Type*} {x : Except ε β} {f : β → γ} {y : γ} :
    x.map f = .ok y ↔ ∃ b, x = .ok b ∧ f b = y := by
  cases x with
  | error e => simp [Except.map]
  | ok b => simp [Except.map]

theorem collect_eq_ok_iff {es : List (Entry ε α)} {as : List α} :
    collect es = .ok as ↔ (∀ e ∈ es, ¬ e.Fails) ∧ (hits es).map Prod.snd = as := by
  induction es generalizing as with
  | nil => simp [collect, hits]
  | cons entry es ih =>
      rw [List.forall_mem_cons]
      match entry with
      | .broken e => simp [collect, Fails]
      | .event t (.error e) => simp [collect, Fails]
      | .event t (.ok a) =>
          rw [collect, map_eq_ok_iff, hits_cons_event, List.map_append]
          simp only [ih, Fails, not_false_eq_true, true_and]
          have hhead : ((a.map (t, ·)).toList.map Prod.snd) = a.toList := by
            cases a <;> rfl
          rw [hhead]
          constructor
          · rintro ⟨bs, ⟨hfails, rfl⟩, rfl⟩
            exact ⟨hfails, rfl⟩
          · rintro ⟨hfails, rfl⟩
            exact ⟨_, ⟨hfails, rfl⟩, rfl⟩

theorem before_cons_of_le {limit : Int} {entry : Entry ε α}
    (hin : ∀ t ∈ entry.time?, t ≤ limit) (es : List (Entry ε α)) :
    before limit (entry :: es) = entry :: before limit es :=
  List.takeWhile_cons_of_pos (by simpa using hin)

theorem before_cons_of_lt {limit t : Int} {entry : Entry ε α} (ht : entry.time? = some t)
    (hlate : limit < t) (es : List (Entry ε α)) : before limit (entry :: es) = [] :=
  List.takeWhile_cons_of_neg (by simpa [ht] using hlate)

@[simp] theorem anchor_some (f : Int) (as : List α) (t : Int) : anchor (some f) as t = some f :=
  if_neg (by simp)

@[simp] theorem anchor_nil (first : Option Int) (t : Int) : anchor first ([] : List α) t = first :=
  if_neg (by simp)

@[simp] theorem anchor_singleton (a : α) (t : Int) : anchor none [a] t = some t := rfl

theorem scan_cons_event (d : Int) (first : Option Int) (as : List α) (t : Int)
    (converted : Except ε (Option α)) (es : List (Entry ε α)) :
    scan d first as (.event t converted :: es) =
      if ∃ f ∈ anchor first as t, f + d < t then .ok as
      else match converted with
        | .error e => .error e
        | .ok a => scan d (anchor first as t) (as ++ a.toList) es := by
  cases converted <;> rfl

theorem scan_anchored (d f : Int) (as : List α) (es : List (Entry ε α)) :
    scan d (some f) as es = (collect (before (f + d) es)).map (as ++ ·) := by
  induction es generalizing as with
  | nil => simp [scan, before, collect, Except.map]
  | cons entry es ih =>
      match entry with
      | .broken e =>
          rw [before_cons_of_le (by simp [time?])]
          rfl
      | .event t converted =>
          by_cases hlate : f + d < t
          · rw [before_cons_of_lt rfl hlate]
            simp [scan, collect, Except.map, hlate]
          · rw [before_cons_of_le (by simpa [time?] using hlate)]
            match converted with
            | .error e => simp [scan, collect, Except.map, hlate]
            | .ok a =>
                rw [collect, scan]
                simp only [anchor_some, Option.mem_def, Option.some.injEq, exists_eq_left', hlate,
                  if_false, ih]
                cases collect (before (f + d) es) with
                | error e => rfl
                | ok bs => simp [Except.map]

/-! ### The first result -/

section

variable (d : Int)

theorem scan_quiet {pre : List (Entry ε α)} (hpre : ∀ e ∈ pre, e.Quiet)
    (es : List (Entry ε α)) : scan d none [] (pre ++ es) = scan d none [] es := by
  induction pre with
  | nil => rfl
  | cons entry pre ih =>
      rw [List.forall_mem_cons] at hpre
      obtain ⟨⟨t, rfl⟩, hpre⟩ := hpre
      rw [List.cons_append, scan]
      simpa using ih hpre

theorem scan_first (t : Int) (a : α) (es : List (Entry ε α)) :
    scan d none [] (.event t (.ok (some a)) :: es) =
      (collect (scope d es)).map (a :: ·) := by
  have hfirst : scan d none [] (.event t (.ok (some a)) :: es) = scan d none [a] es := by
    rw [scan]
    simp
  rw [hfirst]
  match es with
  | [] => rfl
  | .broken e :: es => rfl
  | .event t' converted :: es =>
      have hanchor : scan d none [a] (.event t' converted :: es) =
          scan d (some t') [a] (.event t' converted :: es) := by
        simp [scan]
      rw [hanchor, scan_anchored]
      rfl

theorem scan_ne_ok {pre : List (Entry ε α)} (hpre : ∀ e ∈ pre, e.Quiet) {entry : Entry ε α}
    (hfails : entry.Fails) (post : List (Entry ε α)) (as : List α) :
    scan d none [] (pre ++ entry :: post) ≠ .ok as := by
  rw [scan_quiet d hpre]
  match entry with
  | .broken e => exact nofun
  | .event t (.error e) => simp [scan]
  | .event t (.ok a) => exact hfails.elim

end

/-- All entries are quiet, or there is a first one that is not. -/
theorem quiet_or_exists (es : List (Entry ε α)) :
    (∀ e ∈ es, e.Quiet) ∨
      (∃ pre e post, es = pre ++ e :: post ∧ (∀ e ∈ pre, e.Quiet) ∧ e.Fails) ∨
      ∃ pre t a post, es = pre ++ .event t (.ok (some a)) :: post ∧ ∀ e ∈ pre, e.Quiet := by
  induction es with
  | nil => exact .inl (by simp)
  | cons entry es ih =>
      match entry with
      | .broken e => exact .inr (.inl ⟨[], _, es, rfl, by simp, trivial⟩)
      | .event t (.error e) => exact .inr (.inl ⟨[], _, es, rfl, by simp, trivial⟩)
      | .event t (.ok (some a)) => exact .inr (.inr ⟨[], t, a, es, rfl, by simp⟩)
      | .event t (.ok none) =>
          have hquiet : (event t (.ok none) : Entry ε α).Quiet := ⟨t, rfl⟩
          rcases ih with hall | ⟨pre, e, post, rfl, hpre, hfails⟩ | ⟨pre, t', a, post, rfl, hpre⟩
          · exact .inl (List.forall_mem_cons.mpr ⟨hquiet, hall⟩)
          · exact .inr (.inl ⟨_ :: pre, e, post, rfl,
              List.forall_mem_cons.mpr ⟨hquiet, hpre⟩, hfails⟩)
          · exact .inr (.inr ⟨_ :: pre, t', a, post, rfl,
              List.forall_mem_cons.mpr ⟨hquiet, hpre⟩⟩)

theorem hits_eq_nil_of_quiet {es : List (Entry ε α)} (hquiet : ∀ e ∈ es, e.Quiet) :
    hits es = [] := by
  refine List.filterMap_eq_nil_iff.mpr fun e he => ?_
  obtain ⟨t, rfl⟩ := hquiet e he
  rfl

/-! ### Entries in the order of their times -/

theorem fst_mem_times {es : List (Entry ε α)} {h : Int × α} (hh : h ∈ hits es) :
    h.1 ∈ es.filterMap time? := by
  obtain ⟨entry, hentry, hhit⟩ := List.mem_filterMap.mp hh
  refine List.mem_filterMap.mpr ⟨entry, hentry, ?_⟩
  match entry with
  | .event t (.ok a) =>
      obtain ⟨a, rfl, rfl⟩ := Option.map_eq_some_iff.mp hhit
      rfl

theorem filter_hits_before {c limit : Int} (hle : c ≤ limit) {es : List (Entry ε α)}
    (horder : Chronological es) :
    (hits (before limit es)).filter (fun h => h.1 ≤ c) =
      (hits es).filter fun h => h.1 ≤ c := by
  induction es with
  | nil => rfl
  | cons entry es ih =>
      by_cases hin : ∀ t ∈ entry.time?, t ≤ limit
      · have hrest : Chronological es :=
          horder.sublist ((List.sublist_cons_self entry es).filterMap time?)
        rw [before_cons_of_le hin, hits, hits,
          List.filterMap_cons, List.filterMap_cons, ← hits, ← hits]
        cases entry.hit? with
        | none => exact ih hrest
        | some h =>
            dsimp only
            rw [List.filter_cons, List.filter_cons, ih hrest]
      · simp only [not_forall, Int.not_le] at hin
        obtain ⟨t, ht, hlate⟩ := hin
        rw [Option.mem_def] at ht
        rw [before_cons_of_lt ht hlate]
        refine (List.filter_eq_nil_iff.mpr fun h hh => ?_).symm
        rw [Chronological, List.filterMap_cons_some ht, List.pairwise_cons] at horder
        have htime := fst_mem_times hh
        rw [List.filterMap_cons_some ht] at htime
        have hle' : t ≤ h.1 := by
          rcases List.mem_cons.mp htime with heq | hmem
          · exact Int.le_of_eq heq.symm
          · exact horder.1 _ hmem
        rw [decide_eq_true_iff]
        omega

theorem filter_hits_scope {d t : Int} {es : List (Entry ε α)} (horder : Chronological es)
    (hafter : ∀ t' ∈ es.filterMap time?, t ≤ t') :
    (hits (scope d es)).filter (fun h => h.1 ≤ t + d) =
      (hits es).filter fun h => h.1 ≤ t + d := by
  unfold scope
  split
  · rfl
  · rename_i t' ht'
    refine filter_hits_before ?_ horder
    obtain ⟨entry, hhead, htime⟩ := Option.bind_eq_some_iff.mp ht'
    have hmem : t' ∈ es.filterMap time? :=
      List.mem_filterMap.mpr ⟨entry, List.mem_of_head? hhead, htime⟩
    have hle := hafter t' hmem
    omega

theorem hits_append_event {pre : List (Entry ε α)} (hpre : ∀ e ∈ pre, e.Quiet) (t : Int) (a : α)
    (post : List (Entry ε α)) :
    hits (pre ++ .event t (.ok (some a)) :: post) = (t, a) :: hits post := by
  rw [hits, List.filterMap_append, ← hits, ← hits, hits_eq_nil_of_quiet hpre, hits_cons_event]
  rfl

section

variable {d t : Int} {a : α} {pre post : List (Entry ε α)}
  (horder : Chronological (pre ++ .event t (.ok (some a)) :: post))
  (hpre : ∀ e ∈ pre, e.Quiet)

include hpre

theorem scan_of_first : scan d none [] (pre ++ .event t (.ok (some a)) :: post) =
    (collect (scope d post)).map (a :: ·) := by
  rw [scan_quiet d hpre, scan_first]

include horder

theorem within_of_first : within d (pre ++ .event t (.ok (some a)) :: post) =
    if 0 ≤ d then a :: ((hits (scope d post)).filter fun h => h.1 ≤ t + d).map Prod.snd
    else [] := by
  have htimes : (event t (.ok (some a)) :: post).filterMap time? = t :: post.filterMap time? :=
    rfl
  rw [Chronological, List.filterMap_append, htimes, List.pairwise_append,
    List.pairwise_cons] at horder
  obtain ⟨-, ⟨hafter, horder⟩, -⟩ := horder
  rw [within, hits_append_event hpre]
  dsimp only
  split_ifs with hd
  · have hfirst : t ≤ t + d := by omega
    rw [List.filter_cons_of_pos (by simpa using hfirst), filter_hits_scope horder hafter]
    rfl
  · rw [List.map_eq_nil_iff, List.filter_eq_nil_iff]
    intro h hh
    rw [decide_eq_true_iff]
    rcases List.mem_cons.mp hh with rfl | hmem
    · omega
    · have hle := hafter h.1 (fst_mem_times hmem)
      omega

theorem within_sublist_of_first {as : List α}
    (hscan : scan d none [] (pre ++ .event t (.ok (some a)) :: post) = .ok as) :
    (within d (pre ++ .event t (.ok (some a)) :: post)).Sublist as := by
  rw [scan_of_first hpre, map_eq_ok_iff] at hscan
  obtain ⟨bs, hcollect, rfl⟩ := hscan
  obtain ⟨-, rfl⟩ := collect_eq_ok_iff.mp hcollect
  rw [within_of_first horder hpre]
  split_ifs
  · exact List.Sublist.cons_cons a (List.filter_sublist.map Prod.snd)
  · exact List.nil_sublist _

theorem scan_eq_within_iff_of_first :
    scan d none [] (pre ++ .event t (.ok (some a)) :: post) =
        .ok (within d (pre ++ .event t (.ok (some a)) :: post)) ↔
      0 ≤ d ∧ (∀ e ∈ scope d post, ¬ e.Fails) ∧ ∀ h ∈ hits (scope d post), h.1 ≤ t + d := by
  rw [scan_of_first hpre, map_eq_ok_iff, within_of_first horder hpre]
  by_cases hd : 0 ≤ d
  · rw [if_pos hd, and_iff_right hd]
    simp only [collect_eq_ok_iff, List.cons.injEq, true_and]
    constructor
    · rintro ⟨as, ⟨hfails, rfl⟩, heq⟩
      refine ⟨hfails, fun h hh => ?_⟩
      have hlength := congrArg List.length heq
      rw [List.length_map, List.length_map, eq_comm, List.length_filter_eq_length_iff] at hlength
      simpa using hlength h hh
    · rintro ⟨hfails, hall⟩
      refine ⟨_, ⟨hfails, rfl⟩, ?_⟩
      rw [List.filter_eq_self.mpr]
      simpa using hall
  · rw [if_neg hd]
    refine iff_of_false ?_ fun h => hd h.1
    rintro ⟨as, -, heq⟩
    cases heq

end

theorem scan_of_quiet (d : Int) {es : List (Entry ε α)} (hall : ∀ e ∈ es, e.Quiet) :
    scan d none [] es = .ok [] := by
  have hscan := scan_quiet d hall []
  rwa [List.append_nil] at hscan

theorem within_of_quiet (d : Int) {es : List (Entry ε α)} (hall : ∀ e ∈ es, e.Quiet) :
    within d es = [] := by
  rw [within, hits_eq_nil_of_quiet hall]

/-- The results within `d` of the first are among those that the scan gives. -/
theorem within_sublist_of_scan {d : Int} {es : List (Entry ε α)} (horder : Chronological es)
    {as : List α} (hscan : scan d none [] es = .ok as) : (within d es).Sublist as := by
  rcases quiet_or_exists es with hall | ⟨pre, e, post, rfl, hpre, hfails⟩ |
    ⟨pre, t, a, post, rfl, hpre⟩
  · rw [within_of_quiet d hall]
    exact List.nil_sublist as
  · exact absurd hscan (scan_ne_ok d hpre hfails post as)
  · exact within_sublist_of_first horder hpre hscan

/-- The scan gives the results within `d` of the first if and only if none but these
lie in the window that it reads, and no entry that it reads fails. -/
theorem scan_eq_within_iff {d : Int} {es : List (Entry ε α)} (horder : Chronological es) :
    scan d none [] es = .ok (within d es) ↔ KeepsWindow d es := by
  constructor
  · intro hscan
    rcases quiet_or_exists es with hall | ⟨pre, e, post, rfl, hpre, hfails⟩ |
      ⟨pre, t, a, post, rfl, hpre⟩
    · exact .inl hall
    · exact absurd hscan (scan_ne_ok d hpre hfails post _)
    · exact .inr ⟨pre, t, a, post, rfl, hpre, (scan_eq_within_iff_of_first horder hpre).mp hscan⟩
  · rintro (hall | ⟨pre, t, a, post, rfl, hpre, hkeeps⟩)
    · rw [scan_of_quiet d hall, within_of_quiet d hall]
    · exact (scan_eq_within_iff_of_first horder hpre).mpr hkeeps

end Atp.TimedScan

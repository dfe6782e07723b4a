import Atp.FieldSplit
import Mathlib.Data.List.TakeWhile

/-!
Log lines as records of names and values, and the text of a log as the tokens
between white space.
-/

namespace Atp

/-- `log_record_t`, with the latest pair first: the first pair with a name gives
its value. -/
abbrev LogRecord := List (Text × Text)

namespace LogRecord

open FieldSplit (splitPair)

def find (nv : LogRecord) (name : Text) : Option Text := List.lookup name nv

def pairsText (assign sep : Char) (pairs : List (Text × Text)) : Text :=
  [sep].intercalate (pairs.map fun p => p.1 ++ assign :: p.2)

/-- One field, split at the first delimiter.  Without one, the whole field is
both the name and the value. -/
def nameValue (assign : Char) (field : Text) : Text × Text :=
  if assign ∈ field then
    (field.takeWhile (· ≠ assign), (field.dropWhile (· ≠ assign)).drop 1)
  else (field, field)

/-- `line_to_record`.  A field that cannot be split throws. -/
def lineToRecord (assign sep : Char) (line : Text) : Except FieldSplit.Failure LogRecord :=
  List.reverse <$> (line.splitOn sep).mapM (splitPair assign)

/-- The fields after the first separator. -/
def laterFields (assign sep : Char) (line : Text) : Except FieldSplit.Failure LogRecord :=
  List.reverse <$> (line.splitOn sep).tail.mapM (splitPair assign)

/-- The fields of a line, each split at its first delimiter. -/
def fields (assign sep : Char) (line : Text) : LogRecord :=
  ((line.splitOn sep).map (nameValue assign)).reverse

/-- The positions of the delimiters fit into an `int`, and so do those after them. -/
def Short (assign sep : Char) (line : Text) : Prop :=
  ∀ field ∈ line.splitOn sep, assign ∈ field → field.idxOf assign < 2147483647

instance (assign sep : Char) (line : Text) : Decidable (Short assign sep line) :=
  inferInstanceAs (Decidable (∀ field ∈ line.splitOn sep, _))

def isSpace (c : Char) : Bool :=
  c = ' ' ∨ c = '\t' ∨ c = '\n' ∨ c = '\x0b' ∨ c = '\x0c' ∨ c = '\r'

/-- The tokens that `infile >> std::skipws >> line` reads. -/
def tokens (text : Text) : List Text := (text.splitOnP isSpace).filter (· ≠ [])

def firstWord (s : Text) : Text := s.takeWhile fun c => !isSpace c

/-! ### Records -/

theorem nameValue_append {assign : Char} {name : Text} (hname : assign ∉ name) (value : Text) :
    nameValue assign (name ++ assign :: value) = (name, value) := by
  have hne := Text.forall_ne_of_not_mem hname
  rw [nameValue, if_pos (List.mem_append_right _ List.mem_cons_self),
    Text.takeWhile_append_cons hne (by simp), Text.dropWhile_append_cons hne (by simp)]
  rfl

/-- Where the position fits into an `int`, the field is split at the delimiter. -/
theorem splitPair_eq_nameValue {assign : Char} {field : Text}
    (hshort : assign ∈ field → field.idxOf assign < 2147483647) :
    splitPair assign field = .ok (nameValue assign field) := by
  by_cases hmem : assign ∈ field
  · obtain ⟨name, value, rfl, hname⟩ := List.eq_append_cons_of_mem hmem
    have hlength := hshort hmem
    rw [List.idxOf_append_of_notMem hname, List.idxOf_cons_self, Nat.add_zero] at hlength
    rw [FieldSplit.splitPair_append hname value hlength, nameValue_append hname]
  · rw [FieldSplit.splitPair_of_not_mem hmem, nameValue, if_neg hmem]

theorem mem_and_not_of_mem_splitOnP {p : Char → Bool} {s part : Text}
    (hpart : part ∈ s.splitOnP p) {c : Char} (hc : c ∈ part) : c ∈ s ∧ p c = false := by
  induction s generalizing part with
  | nil =>
      rw [List.splitOnP_nil, List.mem_singleton] at hpart
      rw [hpart] at hc
      cases hc
  | cons d s ih =>
      obtain ⟨first, rest, hsplit⟩ := List.exists_cons_of_ne_nil (List.splitOnP_ne_nil p s)
      rw [List.splitOnP_cons_eq_if_modifyHead, hsplit, List.modifyHead_cons] at hpart
      rw [hsplit] at ih
      have htail : ∀ part ∈ first :: rest, c ∈ part → c ∈ d :: s ∧ p c = false :=
        fun part hpart hc => ⟨List.mem_cons_of_mem d (ih hpart hc).1, (ih hpart hc).2⟩
      split_ifs at hpart with hd
      · rcases List.mem_cons.mp hpart with rfl | hpart
        · cases hc
        · exact htail part hpart hc
      · rcases List.mem_cons.mp hpart with rfl | hpart
        · rcases List.mem_cons.mp hc with rfl | hc
          · exact ⟨List.mem_cons_self, Bool.eq_false_iff.mpr hd⟩
          · exact htail first List.mem_cons_self hc
        · exact htail part (List.mem_cons_of_mem first hpart) hc

theorem mem_of_mem_splitOnP {p : Char → Bool} {s part : Text} (hpart : part ∈ s.splitOnP p)
    {c : Char} (hc : c ∈ part) : c ∈ s :=
  (mem_and_not_of_mem_splitOnP hpart hc).1

theorem mapM_splitPair {assign : Char} {parts : List Text}
    (hshort : ∀ field ∈ parts, assign ∈ field → field.idxOf assign < 2147483647) :
    parts.mapM (splitPair assign) = .ok (parts.map (nameValue assign)) := by
  induction parts with
  | nil => rfl
  | cons field parts ih =>
      rw [List.forall_mem_cons] at hshort
      rw [List.mapM_cons, splitPair_eq_nameValue hshort.1, ok_bind, ih hshort.2, ok_bind]
      rfl

theorem lineToRecord_of_short {assign sep : Char} {line : Text} (hshort : Short assign sep line) :
    lineToRecord assign sep line = .ok (fields assign sep line) := by
  rw [lineToRecord, mapM_splitPair hshort]
  rfl

/-- A line is split where it is cut at a separator. -/
theorem lineToRecord_append (assign sep : Char) (line line' : Text) :
    lineToRecord assign sep (line ++ sep :: line') =
      lineToRecord assign sep line >>= fun nv =>
        lineToRecord assign sep line' >>= fun nv' => .ok (nv' ++ nv) := by
  rw [lineToRecord, lineToRecord, lineToRecord, List.splitOn_append_cons_self, List.mapM_append]
  cases (line.splitOn sep).mapM (splitPair assign) with
  | error e => rfl
  | ok nv =>
      cases (line'.splitOn sep).mapM (splitPair assign) with
      | error e => rfl
      | ok nv' => exact congrArg Except.ok (List.reverse_append)

theorem mem_of_lineToRecord {assign sep : Char} {line : Text} {nv : LogRecord}
    (hread : lineToRecord assign sep line = .ok nv) {p : Text × Text} (hp : p ∈ nv) :
    ∃ field ∈ line.splitOn sep, splitPair assign field = .ok p := by
  rw [lineToRecord] at hread
  cases hparts : (line.splitOn sep).mapM (splitPair assign) with
  | error e =>
      rw [hparts] at hread
      cases hread
  | ok parts =>
      rw [hparts] at hread
      obtain rfl : parts.reverse = nv := Except.ok.inj hread
      exact exists_of_mem_mapM hparts (List.mem_reverse.mp hp)

/-- A value is a part of the line between two delimiters. -/
theorem mem_and_ne_of_mem_value {assign sep c : Char} {line : Text} {nv : LogRecord}
    (hread : lineToRecord assign sep line = .ok nv) {p : Text × Text} (hp : p ∈ nv)
    (hc : c ∈ p.2) : c ∈ line ∧ c ≠ sep := by
  obtain ⟨field, hfield, hsplit⟩ := mem_of_lineToRecord hread hp
  rw [List.splitOn_eq_splitOnP] at hfield
  obtain ⟨hline, hsep⟩ :=
    mem_and_not_of_mem_splitOnP hfield (FieldSplit.mem_of_splitPair hsplit (.inr hc))
  exact ⟨hline, ne_of_beq_false hsep⟩

/-! ### The first field and those after it -/

theorem splitOn_append_left {sep : Char} {x : Text} (hx : sep ∉ x) (y : Text) :
    (x ++ y).splitOn sep = (x ++ y.takeWhile (· ≠ sep)) :: (y.splitOn sep).tail := by
  by_cases hmem : sep ∈ y
  · obtain ⟨first, rest, rfl, hfirst⟩ := List.eq_append_cons_of_mem hmem
    have htake : (first ++ sep :: rest).takeWhile (· ≠ sep) = first :=
      Text.takeWhile_append_cons (Text.forall_ne_of_not_mem hfirst) (by simp) rest
    rw [htake, ← List.append_assoc, List.splitOn_append_cons_self_of_not_mem,
      List.splitOn_append_cons_self_of_not_mem hfirst, List.tail_cons]
    rw [List.mem_append, not_or]
    exact ⟨hx, hfirst⟩
  · have htake : y.takeWhile (· ≠ sep) = y :=
      List.takeWhile_eq_self_iff.mpr (Text.forall_ne_of_not_mem hmem)
    rw [htake, List.splitOn_eq_singleton, List.splitOn_eq_singleton hmem, List.tail_cons]
    rw [List.mem_append, not_or]
    exact ⟨hx, hmem⟩

theorem laterFields_append_left {sep : Char} {x : Text} (hx : sep ∉ x) (assign : Char) (y : Text) :
    laterFields assign sep (x ++ y) = laterFields assign sep y := by
  rw [laterFields, splitOn_append_left hx, List.tail_cons]
  rfl

/-- A line that begins with a name: its value goes up to the first separator. -/
theorem lineToRecord_field {assign sep : Char} (hne : assign ≠ sep) {name : Text}
    (hassign : assign ∉ name) (hsep : sep ∉ name) (hshort : name.length < 2147483647)
    (value : Text) :
    lineToRecord assign sep (name ++ assign :: value) =
      laterFields assign sep value >>= fun nv =>
        .ok (nv ++ [(name, value.takeWhile (· ≠ sep))]) := by
  have hfront : sep ∉ name ++ [assign] := by
    rw [List.mem_append, List.mem_singleton, not_or]
    exact ⟨hsep, hne.symm⟩
  rw [lineToRecord, List.append_cons, splitOn_append_left hfront, ← List.append_cons,
    List.mapM_cons, FieldSplit.splitPair_append hassign _ hshort, ok_bind, laterFields]
  cases (value.splitOn sep).tail.mapM (splitPair assign) with
  | error e => rfl
  | ok nv => exact congrArg Except.ok List.reverse_cons

/-- Without delimiters, every field is its own name. -/
theorem exists_laterFields {assign : Char} (sep : Char) {line : Text} (hline : assign ∉ line) :
    ∃ nv, laterFields assign sep line = .ok nv ∧ ∀ p ∈ nv, ∀ c ∈ p.1, c ∈ line := by
  have hmem : ∀ field ∈ (line.splitOn sep).tail, ∀ c ∈ field, c ∈ line := by
    intro field hfield c hc
    have hsplit := List.mem_of_mem_tail hfield
    rw [List.splitOn_eq_splitOnP] at hsplit
    exact mem_of_mem_splitOnP hsplit hc
  have hnone : ∀ field ∈ (line.splitOn sep).tail, assign ∉ field := fun field hfield hassign =>
    hline (hmem field hfield assign hassign)
  refine ⟨((line.splitOn sep).tail.map (nameValue assign)).reverse, ?_, ?_⟩
  · rw [laterFields, mapM_splitPair fun field hfield hassign =>
      absurd hassign (hnone field hfield)]
    rfl
  · intro p hp c hc
    obtain ⟨field, hfield, rfl⟩ := List.mem_map.mp (List.mem_reverse.mp hp)
    rw [nameValue, if_neg (hnone field hfield)] at hc
    exact hmem field hfield c hc

theorem find_append (nv nv' : LogRecord) (name : Text) :
    find (nv ++ nv') name = (find nv name).or (find nv' name) := List.lookup_append

theorem forall_mem_intercalate {P : Char → Prop} {sep : Char} (hsep : P sep)
    {fields : List Text} (hfields : ∀ field ∈ fields, ∀ c ∈ field, P c) :
    ∀ c ∈ [sep].intercalate fields, P c := by
  induction fields with
  | nil => exact fun c hc => absurd hc List.not_mem_nil
  | cons field fields ih =>
      rw [List.forall_mem_cons] at hfields
      cases fields with
      | nil =>
          rw [List.intercalate_singleton]
          exact hfields.1
      | cons field' fields =>
          rw [List.intercalate_cons_cons]
          intro c hc
          rcases List.mem_append.mp hc with hc | hc
          · rcases List.mem_append.mp hc with hc | hc
            · exact hfields.1 c hc
            · exact List.mem_singleton.mp hc ▸ hsep
          · exact ih hfields.2 c hc

theorem forall_mem_pairsText {P : Char → Prop} {assign sep : Char} (hassign : P assign)
    (hsep : P sep) {pairs : List (Text × Text)}
    (hpairs : ∀ p ∈ pairs, (∀ c ∈ p.1, P c) ∧ ∀ c ∈ p.2, P c) :
    ∀ c ∈ pairsText assign sep pairs, P c := by
  refine forall_mem_intercalate hsep fun field hfield => ?_
  obtain ⟨p, hp, rfl⟩ := List.mem_map.mp hfield
  exact List.forall_mem_append.mpr
    ⟨(hpairs p hp).1, List.forall_mem_cons.mpr ⟨hassign, (hpairs p hp).2⟩⟩

theorem pairsText_singleton (assign sep : Char) (p : Text × Text) :
    pairsText assign sep [p] = p.1 ++ assign :: p.2 := List.intercalate_singleton

theorem pairsText_cons (assign sep : Char) (p : Text × Text) {pairs : List (Text × Text)}
    (hpairs : pairs ≠ []) :
    pairsText assign sep (p :: pairs) =
      p.1 ++ assign :: p.2 ++ sep :: pairsText assign sep pairs := by
  rw [pairsText, List.map_cons, List.intercalate_cons_of_ne_nil (by simpa using hpairs)]
  exact List.append_assoc _ _ _

theorem pairsText_append (assign sep : Char) {pairs pairs' : List (Text × Text)}
    (hpairs : pairs ≠ []) (hpairs' : pairs' ≠ []) :
    pairsText assign sep (pairs ++ pairs') =
      pairsText assign sep pairs ++ sep :: pairsText assign sep pairs' := by
  induction pairs with
  | nil => exact absurd rfl hpairs
  | cons p pairs ih =>
      cases pairs with
      | nil =>
          rw [List.singleton_append, pairsText_cons assign sep p hpairs', pairsText_singleton]
      | cons q pairs =>
          have hq : q :: pairs ≠ [] := List.cons_ne_nil q pairs
          rw [List.cons_append,
            pairsText_cons assign sep p (List.append_ne_nil_of_left_ne_nil hq pairs'),
            pairsText_cons assign sep p hq, ih hq]
          simp only [List.append_assoc, List.cons_append]

section

variable {assign sep : Char} {pairs : List (Text × Text)} (hne : assign ≠ sep)
  (hpairs : pairs ≠ []) (hnames : ∀ p ∈ pairs, assign ∉ p.1 ∧ sep ∉ p.1)
  (hvalues : ∀ p ∈ pairs, sep ∉ p.2)

include hne hpairs hnames hvalues

theorem splitOn_pairsText :
    (pairsText assign sep pairs).splitOn sep = pairs.map fun p => p.1 ++ assign :: p.2 := by
  refine List.splitOn_intercalate _ ?_ (by simpa using hpairs)
  intro field hfield
  obtain ⟨p, hp, rfl⟩ := List.mem_map.mp hfield
  rw [List.mem_append, List.mem_cons, not_or, not_or]
  exact ⟨(hnames p hp).2, hne.symm, hvalues p hp⟩

theorem short_pairsText (hshort : ∀ p ∈ pairs, p.1.length < 2147483647) :
    Short assign sep (pairsText assign sep pairs) := by
  rw [Short, splitOn_pairsText hne hpairs hnames hvalues, List.forall_mem_map]
  intro p hp _
  rw [List.idxOf_append_of_notMem (hnames p hp).1, List.idxOf_cons_self]
  exact hshort p hp

theorem fields_pairsText : fields assign sep (pairsText assign sep pairs) = pairs.reverse := by
  rw [fields, splitOn_pairsText hne hpairs hnames hvalues, List.map_map]
  refine congrArg List.reverse ((List.map_congr_left fun p hp => ?_).trans (List.map_id pairs))
  exact nameValue_append (hnames p hp).1 p.2

theorem lineToRecord_pairsText (hshort : ∀ p ∈ pairs, p.1.length < 2147483647) :
    lineToRecord assign sep (pairsText assign sep pairs) = .ok pairs.reverse := by
  rw [lineToRecord_of_short (short_pairsText hne hpairs hnames hvalues hshort),
    fields_pairsText hne hpairs hnames hvalues]

end

/-! ### Tokens -/

theorem tokens_append (a b : Text) {c : Char} (hc : isSpace c = true) :
    tokens (a ++ c :: b) = tokens a ++ tokens b := by
  rw [tokens, List.splitOnP_append_cons _ _ hc, List.filter_append]
  rfl

theorem tokens_of_not_space {s : Text} (hne : s ≠ []) (hs : ∀ c ∈ s, isSpace c = false) :
    tokens s = [s] := by
  rw [tokens, List.splitOnP_eq_singleton hs, List.filter_cons_of_pos (by simpa using hne)]
  rfl

theorem mem_of_mem_tokens {s token : Text} (htoken : token ∈ tokens s) {c : Char}
    (hc : c ∈ token) : c ∈ s :=
  mem_of_mem_splitOnP (List.mem_of_mem_filter htoken) hc

theorem isSpace_of_mem_tokens {s token : Text} (htoken : token ∈ tokens s) {c : Char}
    (hc : c ∈ token) : isSpace c = false :=
  (mem_and_not_of_mem_splitOnP (List.mem_of_mem_filter htoken) hc).2

/-- A text without white space goes on to the next white space, as one token. -/
theorem tokens_first {a : Text} (ha : a ≠ []) (hspace : ∀ c ∈ a, isSpace c = false)
    (b : Text) :
    tokens (a ++ b) = (a ++ firstWord b) :: tokens (b.dropWhile fun c => !isSpace c) := by
  induction b generalizing a with
  | nil =>
      rw [List.append_nil, tokens_of_not_space ha hspace]
      exact congrArg (· :: []) (List.append_nil a).symm
  | cons c b ih =>
      unfold firstWord at ih ⊢
      rw [List.takeWhile_cons, List.dropWhile_cons]
      cases hc : isSpace c with
      | true =>
          rw [tokens_append a b hc, tokens_of_not_space ha hspace]
          change _ = (a ++ []) :: tokens ([] ++ c :: b)
          rw [tokens_append [] b hc, List.append_nil]
          rfl
      | false =>
          have hspace' : ∀ d ∈ a ++ [c], isSpace d = false := by
            intro d hd
            rcases List.mem_append.mp hd with hd | hd
            · exact hspace d hd
            · exact List.mem_singleton.mp hd ▸ hc
          rw [List.append_cons, ih (List.append_ne_nil_of_left_ne_nil ha [c]) hspace',
            List.append_assoc]
          rfl

theorem firstWord_eq_self {s : Text} (hs : ∀ c ∈ s, isSpace c = false) : firstWord s = s := by
  refine List.takeWhile_eq_self_iff.mpr fun c hc => ?_
  rw [hs c hc]
  rfl

theorem mem_of_mem_firstWord {s : Text} {c : Char} (hc : c ∈ firstWord s) : c ∈ s :=
  (List.takeWhile_prefix _).subset hc

end LogRecord

end Atp

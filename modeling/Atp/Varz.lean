import Atp.OrderedMap
import Atp.PrintfNumber

/-!
The variables of a process, and the answer of its server to a request for all of
them.  The server prints names and values between the marks of a JSON object.
-/

namespace Atp.Varz

inductive VarzValue where
  | bool (v : Bool)
  | int32 (v : Int32)
  | int64 (v : Int64)
  | uint64 (v : UInt64)
  | double (v : Double)
  | string (v : Text)
deriving DecidableEq

/-- What a buffer of some size holds of a text, before the character that ends it. -/
def snprintf (size : Nat) (s : Text) : Text := s.take (size - 1)

/-- A string up to the character that ends it. -/
def cStr (s : Text) : Text := s.takeWhile (· ≠ '\x00')

namespace VarzValue

def typeName : VarzValue → Text
  | bool _ => ['b', 'o', 'o', 'l']
  | int32 _ => ['i', 'n', 't', '3', '2']
  | int64 _ => ['i', 'n', 't', '6', '4']
  | uint64 _ => ['u', 'i', 'n', 't', '6', '4']
  | double _ => ['d', 'o', 'u', 'b', 'l', 'e']
  | string _ => ['s', 't', 'r', 'i', 'n', 'g']

def toString : VarzValue → Text
  | bool v => if v then ['t', 'r', 'u', 'e'] else ['f', 'a', 'l', 's', 'e']
  | int32 v => snprintf 64 (integer v.toInt)
  | int64 v => snprintf 64 (integer v.toInt)
  | uint64 v => snprintf 64 (decimal v.toNat)
  | double v => snprintf 64 (v.textTo 17)
  | string v => v

end VarzValue

/-- A variable.  Both of its values are made for one type, and its name is a part of an
identifier. -/
structure VarzHolder where
  name : Text
  help : Text
  file : Text
  initvalue : VarzValue
  current : VarzValue
  sameType : initvalue.typeName = current.typeName
  identifier : ∀ c ∈ name, c.isAlphanum = true ∨ c = '_' ∨ c = '$'

structure VarzInfo where
  name : Text
  type : Text
  description : Text
  filename : Text
  currentValue : Text
  initialValue : Text

structure VarzRegistry where
  varzs : OrderedMap Text VarzHolder
  named : ∀ entry ∈ varzs.entries, entry.1 = entry.2.name

namespace VarzRegistry

def empty : VarzRegistry := ⟨.empty, fun _ h => absurd h List.not_mem_nil⟩

/-- The process ends when there is a variable of the name. -/
def registerVarz (registry : VarzRegistry) (varz : VarzHolder) : Option VarzRegistry :=
  if (registry.varzs.get? varz.name).isSome then none
  else some ⟨registry.varzs.put varz.name varz, fun entry hentry =>
    (OrderedMap.mem_insertEntry hentry).elim (fun heq => by rw [heq]) (registry.named entry)⟩

def holders (registry : VarzRegistry) : List VarzHolder := registry.varzs.entries.map Prod.snd

theorem holders_registerVarz {registry registry' : VarzRegistry} {varz : VarzHolder}
    (hregister : registry.registerVarz varz = some registry') :
    registry'.holders.Perm (varz :: registry.holders) := by
  unfold registerVarz at hregister
  split_ifs at hregister with hpresent
  obtain rfl := Option.some.inj hregister
  have hnew : ∀ entry ∈ registry.varzs.entries, entry.1 ≠ varz.name := by
    rw [OrderedMap.get?, Option.isSome_map, List.find?_isSome] at hpresent
    intro entry hentry hname
    exact hpresent ⟨entry, hentry, by simpa using hname⟩
  exact (OrderedMap.insertEntry_perm varz hnew).map Prod.snd

theorem nodup_names (registry : VarzRegistry) :
    (registry.holders.map VarzHolder.name).Nodup := by
  have hnames : registry.holders.map VarzHolder.name = registry.varzs.entries.map Prod.fst := by
    rw [holders, List.map_map]
    exact List.map_congr_left fun entry hentry => (registry.named entry hentry).symm
  rw [hnames, List.Nodup, List.pairwise_map]
  exact registry.varzs.sorted.imp fun hlt => hlt.ne

end VarzRegistry

/-- The function returns the characters of a string that is gone, so it may name any
file. -/
abbrev CleanFileName := VarzHolder → Text

def fillVarzInfo (cleanFileName : CleanFileName) (varz : VarzHolder) : VarzInfo where
  name := varz.name
  type := varz.initvalue.typeName
  description := varz.help
  filename := cleanFileName varz
  currentValue := varz.current.toString
  initialValue := varz.initvalue.toString

def filenameVarznameCmp (a b : VarzInfo) : Bool :=
  if a.filename = b.filename then a.name < b.name else a.filename < b.filename

def getAllVarzs (cleanFileName : CleanFileName) (registry : VarzRegistry) : List VarzInfo :=
  (registry.holders.map (fillVarzInfo cleanFileName)).mergeSort
    fun a b => !filenameVarznameCmp b a

/-! ### The server -/

inductive MgEvent where
  | newRequest | other
deriving DecidableEq

structure MgRequestInfo where
  uri : Text
  queryString : Option Text

/-- The functions of the server library, and what was sent on a connection. -/
structure Mongoose (Connection : Type) where
  printf : Connection → Text → Connection
  getVar : (queryString name : Text) → (size : Nat) → Text
  sent : Connection → Text

/-- A formatted text is sent as a whole. -/
def Mongoose.Documented {Connection : Type} (mg : Mongoose Connection) : Prop :=
  ∀ conn s, mg.sent (mg.printf conn s) = mg.sent conn ++ s

def http200 : Text :=
  ("HTTP/1.1 200 OK\r\n" ++ "Cache: no-cache\r\n" ++
    "Content-Type: application/json; charset=utf-8\r\n" ++ "\r\n").toList

/-- A member as the formats of the loop print it. -/
def formatVarz (separator : Text) (varz : VarzInfo) : Text :=
  if varz.type = ['s', 't', 'r', 'i', 'n', 'g'] then
    separator ++ '"' :: (cStr varz.name ++ '"' :: ' ' :: ':' :: ' ' :: '"' ::
      (cStr varz.currentValue ++ ['"']))
  else separator ++ '"' :: (cStr varz.name ++ '"' :: ' ' :: ':' :: ' ' :: cStr varz.currentValue)

section

variable {Connection : Type} (mg : Mongoose Connection)

def printVarzs : List VarzInfo → Nat → Connection → Connection
  | [], _, conn => conn
  | varz :: varzs, i, conn =>
      printVarzs varzs (i + 1)
        (mg.printf conn (formatVarz (if i = 0 then ['\n'] else [',', '\n']) varz))

/-- Whether the request is processed, and the connection after it. -/
def eventHandler (cleanFileName : CleanFileName) (registry : VarzRegistry) (event : MgEvent)
    (conn : Connection) (requestInfo : MgRequestInfo) : Bool × Connection :=
  if event = .newRequest then
    if requestInfo.uri = ['/', 'e', 'c', 'h', 'o'] then
      let message := mg.getVar (requestInfo.queryString.getD []) "message".toList 256
      let conn := mg.printf conn http200
      (true, mg.printf conn ('{' :: " \"message\" : \"".toList ++ cStr message ++
        "\" ".toList ++ ['}', '\n']))
    else if requestInfo.uri = ['/', 'v', 'a', 'r', 'z'] then
      let conn := mg.printf conn http200
      let conn := mg.printf conn ['{']
      let conn := printVarzs mg (getAllVarzs cleanFileName registry) 0 conn
      (true, mg.printf conn ['\n', '}', '\n'])
    else (false, conn)
  else (false, conn)

end

/-! ### The text of a value -/

theorem cStr_front (s : Text) : cStr s <+: s := List.takeWhile_prefix _

theorem cStr_eq_self {s : Text} (hs : ∀ c ∈ s, 0 < c.toNat) : cStr s = s := by
  apply List.takeWhile_eq_self_iff.mpr
  intro c hc
  apply decide_eq_true
  rintro rfl
  exact absurd (hs _ hc) (by decide)

theorem cStr_eq_of_plain {s : Text} (hs : Json.Plain s) : cStr s = s :=
  cStr_eq_self fun c hc => Nat.lt_of_lt_of_le (by decide) (hs c hc).2.2

theorem snprintf_eq_self {s : Text} (hs : s.length ≤ 63) : snprintf 64 s = s :=
  List.take_of_length_le hs

theorem length_integer_le {v : Int} (hv : v.natAbs < 10 ^ 20) : (integer v).length ≤ 63 := by
  have hlength : (decimal v.natAbs).length ≤ 20 := (Text.length_decimal_le_iff (by decide)).mpr hv
  unfold integer
  split_ifs
  · rw [List.length_cons]
    omega
  · omega

/-- The buffer holds even the biggest number. -/
theorem toString_int32 (v : Int32) : (VarzValue.int32 v).toString = integer v.toInt := by
  have hlow := v.le_toInt
  have hhigh := v.toInt_lt
  exact snprintf_eq_self (length_integer_le (by omega))

theorem toString_int64 (v : Int64) : (VarzValue.int64 v).toString = integer v.toInt := by
  have hlow := v.le_toInt
  have hhigh := v.toInt_lt
  exact snprintf_eq_self (length_integer_le (by omega))

theorem toString_uint64 (v : UInt64) : (VarzValue.uint64 v).toString = decimal v.toNat := by
  have hhigh := v.toNat_lt
  have hlength : (decimal v.toNat).length ≤ 20 :=
    (Text.length_decimal_le_iff (by decide)).mpr (by omega)
  exact snprintf_eq_self (hlength.trans (by decide))

theorem toString_double (v : Double) : (VarzValue.double v).toString = v.textTo 17 :=
  snprintf_eq_self ((Double.length_textTo_le (by decide) v).trans (by decide))

/-- A string is UTF-8 whose characters all stand for themselves, and a number is finite. -/
def Printable : VarzValue → Prop
  | .string s => Json.Plain s ∧ Utf8.Valid s
  | .double v => v.isFinite = true
  | _ => True

/-- The text of a value that is no string: a word or a number. -/
inductive Bare : VarzValue → Prop where
  | true : Bare (.bool true)
  | false : Bare (.bool false)
  | number {value : VarzValue} (hstring : ∀ s, value ≠ .string s) (hvalue : Printable value)
      (htext : Json.Number value.toString) : Bare value
  | notFinite {v : Double} (hv : v.isFinite = Bool.false) : Bare (.double v)

theorem Bare.ne_string {value : VarzValue} (hvalue : Bare value) : ¬ ∃ s, value = .string s := by
  rintro ⟨s, rfl⟩
  cases hvalue with
  | number hstring => exact hstring s rfl

theorem bare_or_string (value : VarzValue) : Bare value ∨ ∃ s, value = .string s := by
  cases value with
  | bool v =>
      left
      cases v with
      | true => exact .true
      | false => exact .false
  | int32 v =>
      exact .inl (.number (fun _ => VarzValue.noConfusion) trivial
        (toString_int32 v ▸ Json.number_integer _))
  | int64 v =>
      exact .inl (.number (fun _ => VarzValue.noConfusion) trivial
        (toString_int64 v ▸ Json.number_integer _))
  | uint64 v =>
      exact .inl (.number (fun _ => VarzValue.noConfusion) trivial
        (toString_uint64 v ▸ Json.number_decimal _))
  | double v =>
      left
      cases hv : v.isFinite with
      | true =>
          exact .number (fun _ => VarzValue.noConfusion) hv
            (toString_double v ▸ Json.number_textTo 17 hv)
      | false => exact .notFinite hv
  | string s => exact .inr ⟨s, rfl⟩

def isAscii (c : Char) : Bool := 0 < c.toNat && c.toNat < 128

theorem isAscii_of_isNumeric {c : Char} (hc : Json.isNumeric c = true) : isAscii c = true := by
  rcases Bool.or_eq_true_iff.mp hc with hdigit | hmem
  · have hrange : 48 ≤ c.toNat ∧ c.toNat ≤ 57 := Char.isDigit_iff_toNat.mp hdigit
    rw [isAscii, Bool.and_eq_true, decide_eq_true_eq, decide_eq_true_eq]
    omega
  · have hmarks : ['+', '-', '.', 'e', 'E'].all isAscii = true := rfl
    exact List.all_eq_true.mp hmarks c (of_decide_eq_true hmem)

theorem isAscii_toString {value : VarzValue} (hvalue : Bare value) :
    value.toString.all isAscii = true := by
  cases hvalue with
  | true => rfl
  | false => rfl
  | number _ _ htext =>
      exact List.all_eq_true.mpr fun c hc =>
        isAscii_of_isNumeric (Json.isNumeric_of_number htext c hc)
  | notFinite hv =>
      rw [toString_double, Double.textTo, hv, Bool.not_false, if_pos rfl]
      split_ifs <;> rfl

theorem toNat_toString {value : VarzValue} (hvalue : Bare value) {c : Char}
    (hc : c ∈ value.toString) : 0 < c.toNat ∧ c.toNat < 128 := by
  have hascii := List.all_eq_true.mp (isAscii_toString hvalue) c hc
  rwa [isAscii, Bool.and_eq_true, decide_eq_true_eq, decide_eq_true_eq] at hascii

def shown : VarzValue → Text
  | .string s => '"' :: (cStr s ++ ['"'])
  | value => value.toString

theorem shown_of_bare {value : VarzValue} (hvalue : Bare value) :
    shown value = value.toString := by
  cases value with
  | string s => exact absurd ⟨s, rfl⟩ hvalue.ne_string
  | _ => rfl

theorem exists_cons_shown (value : VarzValue) :
    ∃ c s, shown value = c :: s ∧ Json.isSpace c = false := by
  rcases bare_or_string value with hvalue | ⟨s, rfl⟩
  · rw [shown_of_bare hvalue]
    cases hvalue with
    | true => exact ⟨'t', _, rfl, rfl⟩
    | false => exact ⟨'f', _, rfl, rfl⟩
    | number _ _ htext =>
        obtain ⟨c, u, -, heq | heq⟩ := Json.exists_digit_of_number htext
        · refine ⟨c, u, heq, Bool.not_eq_true _ ▸ fun hspace => ?_⟩
          have hnumeric := Json.isNumeric_of_number htext c (heq ▸ List.mem_cons_self)
          exact Bool.false_ne_true ((Json.isNumeric_of_isSpace hspace).symm.trans hnumeric)
        · exact ⟨'-', c :: u, heq, rfl⟩
    | notFinite hv =>
        rw [toString_double, Double.textTo, hv, Bool.not_false, if_pos rfl]
        split_ifs <;> exact ⟨_, _, rfl, rfl⟩
  · exact ⟨'"', _, rfl, rfl⟩

theorem skipSpace_shown (value : VarzValue) (rest : Text) :
    Json.skipSpace (shown value ++ rest) = shown value ++ rest := by
  obtain ⟨c, s, heq, hc⟩ := exists_cons_shown value
  rw [heq, List.cons_append, Json.skipSpace_cons hc]

theorem exists_value {value : VarzValue} (hvalue : Printable value) (rest : Text) :
    ∃ v, Json.Value (shown value ++ rest) v rest ∧ ∀ s, value = .string s → v = .string s := by
  rcases bare_or_string value with hbare | ⟨s, rfl⟩
  · rw [shown_of_bare hbare]
    cases hbare with
    | true => exact ⟨_, .true rfl, fun _ => VarzValue.noConfusion⟩
    | false => exact ⟨_, .false rfl, fun _ => VarzValue.noConfusion⟩
    | number hstring _ htext => exact ⟨_, .number htext rfl, fun s hs => absurd hs (hstring s)⟩
    | notFinite hv => exact absurd (hv.symm.trans hvalue) Bool.false_ne_true
  · have hcut := cStr_eq_of_plain hvalue.1
    have hread := Json.readString_of_plain hvalue.1 rest
    refine ⟨_, .string (u := s ++ '"' :: rest) ?_ hread, fun s' hs' => ?_⟩
    · rw [shown, hcut, List.cons_append, List.append_assoc]
      rfl
    · obtain rfl := VarzValue.string.inj hs'
      rw [Json.decode_map_char]

/-- What stands between a value and the end of its line. -/
structure Line (between after rest : Text) : Prop where
  eq : rest = between ++ '\n' :: after
  comma : between = [] ∨ between = [',']

theorem Line.ends {between after rest : Text} (hline : Line between after rest) :
    Json.Ends rest := by
  obtain ⟨rfl, rfl | rfl⟩ := hline
  · rintro c ⟨⟩
    rfl
  · rintro c ⟨⟩
    rfl

theorem Line.not_mem {between after rest : Text} (hline : Line between after rest) :
    '"' ∉ between := by
  rcases hline.comma with rfl | rfl <;> simp

/-- A value that is read where it was printed is read in full. -/
theorem printable_of_value {value : VarzValue} {between after rest t : Text} {v : Json}
    (hline : Line between after rest) (hends : Json.Ends t)
    (hv : Json.Value (shown value ++ rest) v t)
    (hstring : ∀ s, value = .string s → v = .string s ∧ Utf8.Valid (cStr s)) :
    Printable value ∧ t = rest := by
  rcases bare_or_string value with hbare | ⟨s, rfl⟩
  · rw [shown_of_bare hbare] at hv
    cases hbare with
    | true => exact ⟨trivial, Json.value_true hv⟩
    | false => exact ⟨trivial, Json.value_false hv⟩
    | number _ hvalue htext =>
        obtain ⟨text', htext', heq⟩ := Json.value_number htext hv
        have hrest := (Json.append_number_inj (Json.isNumeric_of_number htext)
          (Json.isNumeric_of_number htext') hline.ends hends heq).2
        exact ⟨hvalue, hrest.symm⟩
    | notFinite hx =>
        rw [toString_double] at hv
        exact absurd hv (Json.not_value_textTo 17 hx _ _ _)
  · obtain ⟨rfl, hvalid⟩ := hstring s rfl
    rw [shown, List.cons_append, List.append_assoc] at hv
    obtain ⟨pieces, hread, hdecode⟩ := Json.value_string hv
    have hnot := hline.not_mem
    obtain ⟨rfl, -⟩ := hline
    obtain ⟨hplain, hcut, rfl⟩ := Json.plain_of_readString (cStr_front s) hnot hread
      (Json.string.inj hdecode).symm
    exact ⟨⟨hplain, hcut ▸ hvalid⟩, rfl⟩

/-! ### Members -/

def member (varz : VarzHolder) : Text :=
  '"' :: (varz.name ++ '"' :: ' ' :: ':' :: ' ' :: shown varz.current)

/-- What follows a member: the other members, and the end. -/
def remaining : List VarzHolder → Text
  | [] => ['\n', '}', '\n']
  | varz :: varzs => ',' :: '\n' :: (member varz ++ remaining varzs)

def body : List VarzHolder → Text
  | [] => '{' :: ['\n', '}', '\n']
  | varz :: varzs => '{' :: '\n' :: (member varz ++ remaining varzs)

theorem exists_line (varzs : List VarzHolder) :
    ∃ between after, Line between after (remaining varzs) := by
  cases varzs with
  | nil => exact ⟨[], ['}', '\n'], rfl, .inl rfl⟩
  | cons varz varzs => exact ⟨[','], member varz ++ remaining varzs, rfl, .inr rfl⟩

theorem toNat_of_isAlphanum {c : Char} (hc : c.isAlphanum = true) :
    48 ≤ c.toNat ∧ c.toNat ≤ 122 := by
  have hdigit : c.isDigit = true → 48 ≤ c.toNat ∧ c.toNat ≤ 57 := Char.isDigit_iff_toNat.mp
  simp only [Char.isAlphanum, Char.isAlpha, Char.isUpper, Char.isLower, Bool.or_eq_true,
    Bool.and_eq_true, decide_eq_true_eq, UInt32.le_iff_toNat_le, ge_iff_le] at hc
  change ((65 ≤ c.toNat ∧ c.toNat ≤ 90) ∨ (97 ≤ c.toNat ∧ c.toNat ≤ 122)) ∨ _ at hc
  rcases hc with (hc | hc) | hc
  · omega
  · omega
  · have := hdigit hc
    omega

/-- Letters stand for themselves in a string. -/
theorem name_char (varz : VarzHolder) {c : Char} (hc : c ∈ varz.name) :
    c ≠ '"' ∧ c ≠ '\\' ∧ 32 ≤ c.toNat ∧ c.toNat < 128 := by
  rcases varz.identifier c hc with halnum | rfl | rfl
  · have hrange := toNat_of_isAlphanum halnum
    refine ⟨?_, ?_, by omega, by omega⟩
    · rintro rfl
      cases halnum
    · rintro rfl
      cases halnum
  · decide
  · decide

theorem plain_name (varz : VarzHolder) : Json.Plain varz.name := by
  intro c hc
  obtain ⟨hquote, hbackslash, hlow, -⟩ := name_char varz hc
  exact ⟨hquote, hbackslash, hlow⟩

theorem valid_shown_iff (value : VarzValue) (rest : Text) : Utf8.Valid (shown value ++ rest) ↔
    (∀ s, value = .string s → Utf8.Valid (cStr s)) ∧ Utf8.Valid rest := by
  rcases bare_or_string value with hbare | ⟨s, rfl⟩
  · have hascii : ∀ c ∈ value.toString, c.toNat < 128 := fun c hc =>
      (toNat_toString hbare hc).2
    rw [shown_of_bare hbare, Utf8.valid_ascii_append hascii,
      and_iff_right fun s hs => absurd ⟨s, hs⟩ hbare.ne_string]
  · have hquote : ∀ s t, Utf8.Valid (s ++ '"' :: t) ↔ Utf8.Valid s ∧ Utf8.Valid t :=
      Utf8.valid_append_cons_iff (by decide)
    rw [shown, List.cons_append, List.append_assoc, ← List.nil_append ('"' :: _), hquote,
      and_iff_right (show Utf8.Valid [] from rfl), List.singleton_append, hquote]
    simp

theorem valid_member_iff (varz : VarzHolder) (rest : Text) : Utf8.Valid (member varz ++ rest) ↔
    (∀ s, varz.current = .string s → Utf8.Valid (cStr s)) ∧ Utf8.Valid rest := by
  have hmember : member varz ++ rest =
      ('"' :: (varz.name ++ ['"', ' ', ':', ' '])) ++ (shown varz.current ++ rest) := by
    simp [member]
  have hascii : ∀ c ∈ '"' :: (varz.name ++ ['"', ' ', ':', ' ']), c.toNat < 128 := by
    refine List.forall_mem_cons.mpr ⟨by decide, List.forall_mem_append.mpr ⟨fun c hc => ?_, ?_⟩⟩
    · exact (name_char varz hc).2.2.2
    · simp
  rw [hmember, Utf8.valid_ascii_append hascii, valid_shown_iff]

theorem member_iff (varz : VarzHolder) (rest : Text) (m : Text × Json) (t : Text) :
    Json.Member (member varz ++ rest) m t ↔
      m.1 = varz.name ∧ Json.Value (shown varz.current ++ rest) m.2 t := by
  rw [member, List.cons_append, List.append_assoc, List.cons_append,
    Json.member_plain_iff (plain_name varz)]
  refine and_congr_right fun _ => ?_
  rw [List.cons_append, List.cons_append, List.cons_append,
    Json.skipSpace_cons_of_space rfl, Json.skipSpace_cons rfl]
  constructor
  · rintro ⟨u, hu, hv⟩
    obtain rfl := (List.cons.inj hu).2
    rwa [Json.skipSpace_cons_of_space rfl, skipSpace_shown] at hv
  · intro hv
    refine ⟨_, rfl, ?_⟩
    rwa [Json.skipSpace_cons_of_space rfl, skipSpace_shown]

/-- The members have the names and the strings of the variables. -/
structure Faithful (varzs : List VarzHolder) (members : List (Text × Json)) : Prop where
  names : (members.map Prod.fst).Perm (varzs.map VarzHolder.name)
  strings : ∀ varz ∈ varzs, ∀ s, varz.current = .string s → (varz.name, .string s) ∈ members

theorem skipSpace_member (varz : VarzHolder) (rest : Text) :
    Json.skipSpace ('\n' :: (member varz ++ rest)) = member varz ++ rest := by
  rw [Json.skipSpace_cons_of_space rfl, member, List.cons_append, Json.skipSpace_cons rfl]

theorem exists_members (varz : VarzHolder) {varzs : List VarzHolder}
    (hvarzs : ∀ other ∈ varz :: varzs, Printable other.current) :
    ∃ members, Json.Members (member varz ++ remaining varzs) members ['\n'] ∧
      Faithful (varz :: varzs) members := by
  -- by induction on the variables that are still to be printed
  induction varzs generalizing varz with
  | nil =>
      obtain ⟨v, hv, hstring⟩ := exists_value (hvarzs varz List.mem_cons_self) (remaining [])
      refine ⟨[(varz.name, v)], .last ((member_iff varz _ _ _).mpr ⟨rfl, hv⟩) rfl, .refl _, ?_⟩
      rintro other hother s hs
      obtain rfl := List.mem_singleton.mp hother
      rw [hstring s hs]
      exact List.mem_singleton.mpr rfl
  | cons next varzs ih =>
      rw [List.forall_mem_cons] at hvarzs
      obtain ⟨v, hv, hstring⟩ := exists_value hvarzs.1 (remaining (next :: varzs))
      obtain ⟨members, hmembers, hfaithful⟩ := ih next hvarzs.2
      refine ⟨(varz.name, v) :: members, .cons ((member_iff varz _ _ _).mpr ⟨rfl, hv⟩)
        (Json.skipSpace_cons rfl _) ?_, hfaithful.names.cons _, ?_⟩
      · rwa [skipSpace_member]
      · refine List.forall_mem_cons.mpr ⟨fun s hs => ?_, fun other hother s hs => ?_⟩
        · rw [hstring s hs]
          exact List.mem_cons_self
        · exact List.mem_cons_of_mem _ (hfaithful.strings other hother s hs)

theorem valid_remaining_cons_iff (varz : VarzHolder) (varzs : List VarzHolder) :
    Utf8.Valid (remaining (varz :: varzs)) ↔ Utf8.Valid (member varz ++ remaining varzs) :=
  Utf8.valid_ascii_append (s := [',', '\n']) (by simp) _

namespace Faithful

variable {varz : VarzHolder} {varzs : List VarzHolder} {m : Text × Json}
  {members : List (Text × Json)} (hfaithful : Faithful (varz :: varzs) (m :: members))
  (hname : m.1 = varz.name) (hnodup : ((varz :: varzs).map VarzHolder.name).Nodup)

include hfaithful hname

theorem names_tail : (members.map Prod.fst).Perm (varzs.map VarzHolder.name) := by
  have hnames := hfaithful.names
  rw [List.map_cons, List.map_cons, hname] at hnames
  exact hnames.cons_inv

include hnodup

/-- No later member has the name of the first variable. -/
theorem head {s : Text} (hs : varz.current = .string s) : m.2 = .string s := by
  rcases List.mem_cons.mp (hfaithful.strings varz List.mem_cons_self s hs) with heq | hmem
  · rw [← heq]
  · have hname' := (hfaithful.names_tail hname).subset (List.mem_map_of_mem (f := Prod.fst) hmem)
    exact absurd hname' (List.nodup_cons.mp hnodup).1

theorem tail : Faithful varzs members where
  names := hfaithful.names_tail hname
  strings := by
    intro other hother s hs
    rcases List.mem_cons.mp (hfaithful.strings other (List.mem_cons_of_mem _ hother) s hs) with
      heq | hmem
    · have hother' : varz.name ∈ varzs.map VarzHolder.name := by
        rw [← hname, ← heq]
        exact List.mem_map_of_mem hother
      exact absurd hother' (List.nodup_cons.mp hnodup).1
    · exact hmem

end Faithful

section

variable {varz : VarzHolder} {varzs : List VarzHolder} {members : List (Text × Json)} {t : Text}
  (hnodup : ((varz :: varzs).map VarzHolder.name).Nodup)
  (hvalid : Utf8.Valid (member varz ++ remaining varzs))
  (hmembers : Json.Members (member varz ++ remaining varzs) members t)
  (hfaithful : Faithful (varz :: varzs) members)

include hnodup hvalid hmembers hfaithful

/-- The first member is read in full, and the others are read where they were printed. -/
theorem printable_of_first : Printable varz.current ∧
    ∀ next others, varzs = next :: others → ∃ members',
      Json.Members (member next ++ remaining others) members' t ∧ Faithful varzs members' := by
  obtain ⟨m, members', u, c, w, rfl, hm, hmark, hrest⟩ := Json.members_cons hmembers
  obtain ⟨hname, hv⟩ := (member_iff varz _ m u).mp hm
  obtain ⟨between, after, hline⟩ := exists_line varzs
  have hends : Json.Ends u := by
    apply Json.ends_of_skipSpace _ hmark
    rcases hrest with ⟨rfl, -⟩ | ⟨rfl, -⟩ <;> rfl
  obtain ⟨hprintable, rfl⟩ := printable_of_value hline hends hv fun s hs =>
    ⟨hfaithful.head hname hnodup hs, ((valid_member_iff varz _).mp hvalid).1 s hs⟩
  refine ⟨hprintable, ?_⟩
  rintro next others rfl
  rw [remaining, Json.skipSpace_cons rfl] at hmark
  obtain ⟨rfl, rfl⟩ := List.cons.inj hmark
  rcases hrest with ⟨hclose, -⟩ | ⟨-, hmembers'⟩
  · cases hclose
  · rw [skipSpace_member] at hmembers'
    exact ⟨members', hmembers', hfaithful.tail hname hnodup⟩

end

theorem printable_of_members (varz : VarzHolder) {varzs : List VarzHolder}
    {members : List (Text × Json)} {t : Text}
    (hnodup : ((varz :: varzs).map VarzHolder.name).Nodup)
    (hvalid : Utf8.Valid (member varz ++ remaining varzs))
    (hmembers : Json.Members (member varz ++ remaining varzs) members t)
    (hfaithful : Faithful (varz :: varzs) members) :
    ∀ other ∈ varz :: varzs, Printable other.current := by
  obtain ⟨hfirst, hnext⟩ := printable_of_first hnodup hvalid hmembers hfaithful
  -- each member leaves the reader at the next one, so the induction is on what is left
  induction varzs generalizing varz members with
  | nil => exact List.forall_mem_singleton.mpr hfirst
  | cons next varzs ih =>
      obtain ⟨members', hmembers', hfaithful'⟩ := hnext next varzs rfl
      have hnodup' := (List.nodup_cons.mp hnodup).2
      have hvalid' : Utf8.Valid (member next ++ remaining varzs) :=
        (valid_remaining_cons_iff next varzs).mp ((valid_member_iff varz _).mp hvalid).2
      obtain ⟨hfirst', hnext'⟩ := printable_of_first hnodup' hvalid' hmembers' hfaithful'
      exact List.forall_mem_cons.mpr
        ⟨hfirst, ih next hnodup' hvalid' hmembers' hfaithful' hfirst' hnext'⟩

/-! ### The body -/

theorem valid_remaining {varzs : List VarzHolder}
    (hvarzs : ∀ varz ∈ varzs, Printable varz.current) : Utf8.Valid (remaining varzs) := by
  induction varzs with
  | nil => decide
  | cons varz varzs ih =>
      rw [List.forall_mem_cons] at hvarzs
      rw [valid_remaining_cons_iff, valid_member_iff]
      refine ⟨fun s hs => ?_, ih hvarzs.2⟩
      have hprintable := hvarzs.1
      rw [hs] at hprintable
      rw [cStr_eq_of_plain hprintable.1]
      exact hprintable.2

/-- The text is an object with one member for each variable, and the strings of the
variables are those of their members. -/
def Readable (varzs : List VarzHolder) (text : Text) : Prop :=
  ∃ members, Json.Document text (.object members) ∧ Faithful varzs members

theorem readable_nil : Readable [] (body []) :=
  ⟨[], ⟨by decide, ['\n'], .emptyObject rfl rfl, rfl⟩, .refl _, by simp⟩

theorem valid_body_cons_iff (varz : VarzHolder) (varzs : List VarzHolder) :
    Utf8.Valid (body (varz :: varzs)) ↔ Utf8.Valid (member varz ++ remaining varzs) :=
  Utf8.valid_ascii_append (s := ['{', '\n']) (by simp) _

theorem readable_body_iff {varzs : List VarzHolder} (hnodup : (varzs.map VarzHolder.name).Nodup) :
    Readable varzs (body varzs) ↔ ∀ varz ∈ varzs, Printable varz.current := by
  cases varzs with
  | nil => exact iff_of_true readable_nil (by simp)
  | cons varz varzs =>
      have hspace : Json.skipSpace (body (varz :: varzs)) = body (varz :: varzs) :=
        Json.skipSpace_cons rfl _
      constructor
      · rintro ⟨members, ⟨hvalid, t, hv, -⟩, hfaithful⟩
        rw [hspace] at hv
        rw [valid_body_cons_iff] at hvalid
        rcases Json.value_object hv with ⟨-, hclose⟩ | hmembers
        · rw [skipSpace_member] at hclose
          cases hclose
        · rw [skipSpace_member] at hmembers
          exact printable_of_members varz hnodup hvalid hmembers hfaithful
      · intro hvarzs
        obtain ⟨members, hmembers, hfaithful⟩ := exists_members varz hvarzs
        have hvalid := (valid_remaining_cons_iff varz varzs).mp (valid_remaining hvarzs)
        refine ⟨members, ⟨(valid_body_cons_iff varz varzs).mpr hvalid, ['\n'], ?_, rfl⟩,
          hfaithful⟩
        rw [hspace]
        exact .object rfl (by rwa [skipSpace_member])

theorem Readable.perm {varzs varzs' : List VarzHolder} (hperm : varzs.Perm varzs') {text : Text}
    (hreadable : Readable varzs text) : Readable varzs' text := by
  obtain ⟨members, hdocument, hfaithful⟩ := hreadable
  exact ⟨members, hdocument, hfaithful.names.trans (hperm.map _),
    fun varz hvarz => hfaithful.strings varz (hperm.mem_iff.mpr hvarz)⟩

/-! ### The answer -/

theorem cStr_name (varz : VarzHolder) : cStr varz.name = varz.name :=
  cStr_eq_of_plain (plain_name varz)

theorem cStr_toString {value : VarzValue} (hvalue : Bare value) :
    cStr value.toString = value.toString :=
  cStr_eq_self fun _ hc => (toNat_toString hvalue hc).1

theorem typeName_eq_string_iff (value : VarzValue) :
    value.typeName = ['s', 't', 'r', 'i', 'n', 'g'] ↔ ∃ s, value = .string s := by
  cases value with
  | string s => exact iff_of_true rfl ⟨s, rfl⟩
  | _ => exact iff_of_false (by simp [VarzValue.typeName]) (by simp)

theorem formatVarz_fillVarzInfo (cleanFileName : CleanFileName) (separator : Text)
    (varz : VarzHolder) :
    formatVarz separator (fillVarzInfo cleanFileName varz) = separator ++ member varz := by
  have htype : (fillVarzInfo cleanFileName varz).type = ['s', 't', 'r', 'i', 'n', 'g'] ↔
      ∃ s, varz.current = .string s := by
    rw [← typeName_eq_string_iff varz.current, ← varz.sameType]
    rfl
  have hname : cStr (fillVarzInfo cleanFileName varz).name = varz.name := cStr_name varz
  have hvalue : (fillVarzInfo cleanFileName varz).currentValue = varz.current.toString := rfl
  rcases bare_or_string varz.current with hbare | ⟨s, hs⟩
  · rw [formatVarz, if_neg (htype.not.mpr hbare.ne_string), hname, hvalue, cStr_toString hbare,
      member, shown_of_bare hbare]
  · rw [formatVarz, if_pos (htype.mpr ⟨s, hs⟩), hname, hvalue, member, hs]
    rfl

theorem exists_getAllVarzs (cleanFileName : CleanFileName) (registry : VarzRegistry) :
    ∃ varzs : List VarzHolder, varzs.Perm registry.holders ∧
      getAllVarzs cleanFileName registry = varzs.map (fillVarzInfo cleanFileName) := by
  refine ⟨registry.holders.mergeSort fun a b => !filenameVarznameCmp
    (fillVarzInfo cleanFileName b) (fillVarzInfo cleanFileName a), List.mergeSort_perm _ _, ?_⟩
  rw [getAllVarzs, List.map_mergeSort]
  exact fun _ _ _ _ => rfl

section

variable {Connection : Type} {mg : Mongoose Connection} (hmg : mg.Documented)

include hmg

theorem sent_printVarzs (cleanFileName : CleanFileName) (varzs : List VarzHolder) (i : Nat)
    (conn : Connection) :
    mg.sent (printVarzs mg (varzs.map (fillVarzInfo cleanFileName)) (i + 1) conn) ++
      ['\n', '}', '\n'] = mg.sent conn ++ remaining varzs := by
  induction varzs generalizing i conn with
  | nil => rfl
  | cons varz varzs ih =>
      rw [List.map_cons, printVarzs, ih, hmg, if_neg (Nat.succ_ne_zero i),
        formatVarz_fillVarzInfo, remaining, List.append_assoc, List.append_assoc]
      rfl

theorem sent_varzs (cleanFileName : CleanFileName) (varzs : List VarzHolder)
    (conn : Connection) :
    mg.sent (printVarzs mg (varzs.map (fillVarzInfo cleanFileName)) 0 (mg.printf conn ['{'])) ++
      ['\n', '}', '\n'] = mg.sent conn ++ body varzs := by
  cases varzs with
  | nil =>
      rw [List.map_nil, printVarzs, hmg, List.append_assoc]
      rfl
  | cons varz varzs =>
      rw [List.map_cons, printVarzs, sent_printVarzs hmg, hmg, hmg, if_pos rfl,
        formatVarz_fillVarzInfo, body, List.append_assoc, List.append_assoc, List.append_assoc]
      rfl

theorem sent_eventHandler (cleanFileName : CleanFileName) (registry : VarzRegistry)
    (conn : Connection) {requestInfo : MgRequestInfo}
    (huri : requestInfo.uri = ['/', 'v', 'a', 'r', 'z']) :
    ∃ varzs : List VarzHolder, varzs.Perm registry.holders ∧
      mg.sent (eventHandler mg cleanFileName registry .newRequest conn requestInfo).2 =
        mg.sent conn ++ (http200 ++ body varzs) := by
  obtain ⟨varzs, hperm, hall⟩ := exists_getAllVarzs cleanFileName registry
  have hecho : requestInfo.uri ≠ ['/', 'e', 'c', 'h', 'o'] := by
    rw [huri]
    decide
  refine ⟨varzs, hperm, ?_⟩
  rw [eventHandler, if_pos rfl, if_neg hecho, if_pos huri]
  dsimp only
  rw [hmg, hall, sent_varzs hmg, hmg, List.append_assoc]

end

/-- The answer to a request for all variables is readable exactly where every value can be
printed as it is. -/
theorem varz_readable_iff {Connection : Type} {mg : Mongoose Connection} (hmg : mg.Documented)
    (cleanFileName : CleanFileName) (registry : VarzRegistry) (conn : Connection)
    {requestInfo : MgRequestInfo} (huri : requestInfo.uri = ['/', 'v', 'a', 'r', 'z']) :
    (∃ text, mg.sent (eventHandler mg cleanFileName registry .newRequest conn requestInfo).2 =
        mg.sent conn ++ (http200 ++ text) ∧ Readable registry.holders text) ↔
      ∀ varz ∈ registry.holders, Printable varz.current := by
  obtain ⟨varzs, hperm, hsent⟩ := sent_eventHandler hmg cleanFileName registry conn huri
  have hnodup : (varzs.map VarzHolder.name).Nodup :=
    (hperm.map _).nodup_iff.mpr registry.nodup_names
  have hprintable : (∀ varz ∈ varzs, Printable varz.current) ↔
      ∀ varz ∈ registry.holders, Printable varz.current :=
    forall_congr' fun varz => imp_congr_left hperm.mem_iff
  rw [← hprintable, ← readable_body_iff hnodup, hsent]
  constructor
  · rintro ⟨text, htext, hreadable⟩
    obtain rfl := List.append_cancel_left (List.append_cancel_left htext)
    exact hreadable.perm hperm.symm
  · intro hreadable
    exact ⟨_, rfl, hreadable.perm hperm⟩

/-! ### A connection that keeps what is sent -/

def getVar (queryString name : Text) (size : Nat) : Text :=
  let parts := queryString.splitOnP (· = '&')
  let value := (parts.find? (name ++ ['=']).isPrefixOf).elim [] (List.drop (name.length + 1))
  snprintf size value

def recorder : Mongoose Text where
  printf conn s := conn ++ s
  getVar := getVar
  sent conn := conn

theorem documented_recorder : recorder.Documented := fun _ _ => rfl

/-- `DEFINE_VARZ_string(name, "", "Name")` with a value. -/
def nameVarz (value : Text) : VarzHolder where
  name := ['n', 'a', 'm', 'e']
  help := ['N', 'a', 'm', 'e']
  file := ['V', 'a', 'r', 'z', 'T', 'e', 's', 't', '.', 'c', 'p', 'p']
  initvalue := .string []
  current := .string value
  sameType := rfl
  identifier := fun c hc =>
    .inl (List.all_eq_true.mp (show ['n', 'a', 'm', 'e'].all Char.isAlphanum from rfl) c hc)

def nameRegistry (value : Text) : VarzRegistry :=
  ⟨⟨[(['n', 'a', 'm', 'e'], nameVarz value)], List.pairwise_singleton _ _⟩,
    List.forall_mem_singleton.mpr rfl⟩

def varzRequest : MgRequestInfo := ⟨['/', 'v', 'a', 'r', 'z'], none⟩

theorem varz_readable_test : ∃ text,
    recorder.sent (eventHandler recorder VarzHolder.file (nameRegistry ['t', 'e', 's', 't', '1'])
      .newRequest [] varzRequest).2 = recorder.sent [] ++ (http200 ++ text) ∧
    Readable (nameRegistry ['t', 'e', 's', 't', '1']).holders text := by
  refine (varz_readable_iff documented_recorder VarzHolder.file
    (nameRegistry ['t', 'e', 's', 't', '1']) [] (show varzRequest.uri = _ from rfl)).mpr ?_
  refine List.forall_mem_singleton.mpr ⟨?_, rfl⟩
  simp [Json.Plain]

/-- The value is a quotation mark: the body has three of them after the colon. -/
theorem varz_not_readable : ¬ ∃ text,
    recorder.sent (eventHandler recorder VarzHolder.file (nameRegistry ['"'])
      .newRequest [] varzRequest).2 = recorder.sent [] ++ (http200 ++ text) ∧
    Readable (nameRegistry ['"']).holders text := by
  rintro ⟨text, hsent, hreadable⟩
  obtain ⟨varzs, hperm, hsent'⟩ := sent_eventHandler documented_recorder VarzHolder.file
    (nameRegistry ['"']) [] (show varzRequest.uri = _ from rfl)
  obtain rfl := List.append_cancel_left (List.append_cancel_left (hsent'.symm.trans hsent))
  obtain rfl := List.perm_singleton.mp hperm
  have hprintable := (readable_body_iff (nameRegistry ['"']).nodup_names).mp hreadable
    (nameVarz ['"']) List.mem_cons_self
  exact (hprintable.1 '"' List.mem_cons_self).1 rfl

end Atp.Varz

import Atp.Utf8
import Mathlib.Data.List.TakeWhile

/-!
JSON texts.  Strings and numbers are read by functions, and the grammar over them says
which text is a value and what is left after it.
-/

namespace Atp

inductive Json where
  | null
  | bool (b : Bool)
  | number (text : Text)
  | string (s : Text)
  | array (elements : List Json)
  | object (members : List (Text × Json))

namespace Json

/-! ### Strings -/

/-- A part of a string: one character, or one code unit in hexadecimal digits. -/
inductive Piece where
  | char (c : Char)
  | unit (u : Nat)
deriving DecidableEq

/-- What a letter after a backslash stands for. -/
def escaped (c : Char) : Option Char :=
  if c = '"' ∨ c = '\\' ∨ c = '/' then some c
  else if c = 'b' then some '\x08'
  else if c = 'f' then some '\x0c'
  else if c = 'n' then some '\n'
  else if c = 'r' then some '\r'
  else if c = 't' then some '\t'
  else none

def hexDigit (c : Char) : Option Nat :=
  if '0' ≤ c ∧ c ≤ '9' then some (c.toNat - '0'.toNat)
  else if 'a' ≤ c ∧ c ≤ 'f' then some (c.toNat - 'a'.toNat + 10)
  else if 'A' ≤ c ∧ c ≤ 'F' then some (c.toNat - 'A'.toNat + 10)
  else none

/-- Where a character of a string stands: by itself, after a backslash, or among
hexadecimal digits with some more to come. -/
inductive Place where
  | plain
  | escape
  | hex (more value : Nat)

/-- A string after its first quotation mark: its pieces, and what follows it. -/
def readString : Place → Text → Option (List Piece × Text)
  | _, [] => none
  | .plain, c :: s =>
      if c = '"' then some ([], s)
      else if c = '\\' then readString .escape s
      else if c.toNat < 32 then none
      else (readString .plain s).map fun r => (.char c :: r.1, r.2)
  | .escape, c :: s =>
      if c = 'u' then readString (.hex 3 0) s
      else (escaped c).bind fun c => (readString .plain s).map fun r => (.char c :: r.1, r.2)
  | .hex more value, c :: s =>
      (hexDigit c).bind fun digit =>
        match more with
        | 0 => (readString .plain s).map fun r => (.unit (value * 16 + digit) :: r.1, r.2)
        | more + 1 => readString (.hex more (value * 16 + digit)) s

def encode (u : Nat) : Text :=
  if u < 128 then [Char.ofNat u]
  else if u < 2048 then [Char.ofNat (192 + u / 64), Char.ofNat (128 + u % 64)]
  else if u < 65536 then
    [Char.ofNat (224 + u / 4096), Char.ofNat (128 + u / 64 % 64), Char.ofNat (128 + u % 64)]
  else
    [Char.ofNat (240 + u / 262144), Char.ofNat (128 + u / 4096 % 64),
      Char.ofNat (128 + u / 64 % 64), Char.ofNat (128 + u % 64)]

def isPair (high low : Nat) : Bool :=
  55296 ≤ high && high < 56320 && 56320 ≤ low && low < 57344

/-- The bytes of a string.  Two code units may stand for one character. -/
def decode : List Piece → Text
  | [] => []
  | .char c :: pieces => c :: decode pieces
  | .unit high :: .unit low :: pieces =>
      if isPair high low then
        encode (65536 + (high - 55296) * 1024 + (low - 56320)) ++ decode pieces
      else encode high ++ decode (.unit low :: pieces)
  | .unit high :: pieces => encode high ++ decode pieces

/-- Characters that a string has as they are. -/
def Plain (s : Text) : Prop := ∀ c ∈ s, c ≠ '"' ∧ c ≠ '\\' ∧ 32 ≤ c.toNat

instance (s : Text) : Decidable (Plain s) := inferInstanceAs (Decidable (∀ c ∈ s, _))

theorem readString_of_plain {s : Text} (hs : Plain s) (rest : Text) :
    readString .plain (s ++ '"' :: rest) = some (s.map .char, rest) := by
  induction s with
  | nil =>
      rw [List.nil_append, readString, if_pos rfl]
      rfl
  | cons c s ih =>
      obtain ⟨⟨hquote, hbackslash, hcontrol⟩, hs⟩ := List.forall_mem_cons.mp hs
      rw [List.cons_append, readString, if_neg hquote, if_neg hbackslash, if_neg (by omega), ih hs]
      rfl

theorem decode_map_char (s : Text) : decode (s.map .char) = s := by
  induction s with
  | nil => rfl
  | cons c s ih => rw [List.map_cons, decode, ih]

/-- At least as long as what a piece decodes to. -/
def Piece.weight : Piece → Nat
  | char _ => 1
  | unit _ => 4

def weight : List Piece → Nat
  | [] => 0
  | piece :: pieces => piece.weight + weight pieces

theorem length_encode_le (u : Nat) : (encode u).length ≤ 4 := by
  unfold encode
  split_ifs <;> simp

theorem weight_cons (piece : Piece) (pieces : List Piece) :
    weight (piece :: pieces) = piece.weight + weight pieces := rfl

theorem length_decode_le (pieces : List Piece) : (decode pieces).length ≤ weight pieces := by
  fun_induction decode pieces with
  | case1 => exact le_rfl
  | case2 c pieces ih =>
      rw [weight_cons, List.length_cons, Nat.add_comm]
      exact Nat.add_le_add_left ih 1
  | case3 high low pieces hpair ih =>
      have hencode := length_encode_le (65536 + (high - 55296) * 1024 + (low - 56320))
      rw [weight_cons, weight_cons, List.length_append]
      exact Nat.add_le_add hencode (ih.trans (Nat.le_add_left _ _))
  | case4 high low pieces hpair ih =>
      rw [weight_cons, List.length_append]
      exact Nat.add_le_add (length_encode_le high) ih
  | case5 high pieces hpieces ih =>
      rw [weight_cons, List.length_append]
      exact Nat.add_le_add (length_encode_le high) ih

theorem control_le_of_escaped {c d : Char} (hc : escaped c = some d) : 32 ≤ c.toNat := by
  unfold escaped at hc
  split_ifs at hc with h₁ h₂ h₃ h₄ h₅ h₆
  · rcases h₁ with rfl | rfl | rfl <;> decide
  · exact h₂ ▸ by decide
  · exact h₃ ▸ by decide
  · exact h₄ ▸ by decide
  · exact h₅ ▸ by decide
  · exact h₆ ▸ by decide

theorem control_le_of_hexDigit {c : Char} {n : Nat} (hc : hexDigit c = some n) :
    32 ≤ c.toNat := by
  have hle : ∀ d : Char, d ≤ c → d.toNat ≤ c.toNat := fun d hd => hd
  unfold hexDigit at hc
  split_ifs at hc with h₁ h₂ h₃
  · exact le_trans (by decide) (hle '0' h₁.1)
  · exact le_trans (by decide) (hle 'a' h₂.1)
  · exact le_trans (by decide) (hle 'A' h₃.1)

/-- What the weight of the pieces may be beyond the characters read from a place. -/
def Place.allowance : Place → Nat
  | hex more _ => 3 - more
  | _ => 0

/-- The characters of a string up to its closing quotation mark.  None is a control
character, and they are more than the string has unless all stand for themselves. -/
structure Raw (place : Place) (pieces : List Piece) (s t raw : Text) : Prop where
  eq : s = raw ++ '"' :: t
  control : ∀ c ∈ raw, 32 ≤ c.toNat
  weight_le : weight pieces ≤ raw.length + place.allowance
  plain : place = .plain → weight pieces = raw.length → Plain raw

theorem Raw.cons {place place' : Place} {pieces pieces' : List Piece} {s t raw : Text}
    (hraw : Raw place' pieces' s t raw) {c : Char} (hc : 32 ≤ c.toNat)
    (hweight : weight pieces + place'.allowance ≤ weight pieces' + 1 + place.allowance)
    (hplain : place = .plain → weight pieces = raw.length + 1 → Plain (c :: raw)) :
    Raw place pieces (c :: s) t (c :: raw) where
  eq := by rw [hraw.eq, List.cons_append]
  control := List.forall_mem_cons.mpr ⟨hc, hraw.control⟩
  weight_le := by
    have hle := hraw.weight_le
    rw [List.length_cons]
    omega
  plain := hplain

theorem exists_raw {place : Place} {s t : Text} {pieces : List Piece}
    (hplace : ∀ more value, place = .hex more value → more ≤ 3)
    (hs : readString place s = some (pieces, t)) : ∃ raw, Raw place pieces s t raw := by
  fun_induction readString place s generalizing pieces t with
  | case1 => cases hs
  | case2 s =>
      obtain ⟨rfl, rfl⟩ := Prod.mk.inj (Option.some.inj hs)
      exact ⟨[], rfl, by simp, Nat.zero_le _, by simp [Plain]⟩
  | case3 s hquote ih =>
      obtain ⟨raw, hraw⟩ := ih (by simp) hs
      have hweight : weight pieces ≤ raw.length := hraw.weight_le
      -- a backslash is one character more than the string has
      exact ⟨_, hraw.cons (by decide) (Nat.le_succ _) fun _ hlength => by omega⟩
  | case4 => cases hs
  | case5 c s hquote hbackslash hcontrol ih =>
      obtain ⟨⟨pieces', t'⟩, hread, heq⟩ := Option.map_eq_some_iff.mp hs
      obtain ⟨rfl, rfl⟩ := Prod.mk.inj heq
      obtain ⟨raw, hraw⟩ := ih (by simp) hread
      have hc : 32 ≤ c.toNat := by omega
      have hcons : weight (.char c :: pieces') = 1 + weight pieces' := rfl
      refine ⟨_, hraw.cons hc (by rw [hcons, Nat.add_comm 1]) fun _ hlength => ?_⟩
      change weight (.char c :: pieces') = raw.length + 1 at hlength
      exact List.forall_mem_cons.mpr ⟨⟨hquote, hbackslash, hc⟩, hraw.plain rfl (by omega)⟩
  | case6 s ih =>
      obtain ⟨raw, hraw⟩ := ih (by rintro _ _ ⟨⟩; exact le_rfl) hs
      exact ⟨_, hraw.cons (by decide) (Nat.le_succ _) Place.noConfusion⟩
  | case7 c s hu ih =>
      obtain ⟨d, hescaped, hs⟩ := Option.bind_eq_some_iff.mp hs
      obtain ⟨⟨pieces', t'⟩, hread, heq⟩ := Option.map_eq_some_iff.mp hs
      obtain ⟨rfl, rfl⟩ := Prod.mk.inj heq
      obtain ⟨raw, hraw⟩ := ih (by simp) hread
      have hcons : weight (.char d :: pieces') = 1 + weight pieces' := rfl
      exact ⟨_, hraw.cons (control_le_of_escaped hescaped) (by rw [hcons, Nat.add_comm 1]; rfl)
        Place.noConfusion⟩
  | case8 more value c s ihPlain ihHex =>
      obtain ⟨digit, hdigit, hs⟩ := Option.bind_eq_some_iff.mp hs
      have hc := control_le_of_hexDigit hdigit
      have hmore := hplace more value rfl
      cases more with
      | zero =>
          obtain ⟨⟨pieces', t'⟩, hread, heq⟩ := Option.map_eq_some_iff.mp hs
          obtain ⟨rfl, rfl⟩ := Prod.mk.inj heq
          obtain ⟨raw, hraw⟩ := ihPlain (by simp) hread
          have hcons : weight (.unit (value * 16 + digit) :: pieces') = 4 + weight pieces' := rfl
          refine ⟨_, hraw.cons hc ?_ Place.noConfusion⟩
          change weight (.unit (value * 16 + digit) :: pieces') + 0 ≤ weight pieces' + 1 + 3
          omega
      | succ more =>
          obtain ⟨raw, hraw⟩ := ihHex digit more (by rintro _ _ ⟨⟩; omega) hs
          refine ⟨_, hraw.cons hc ?_ Place.noConfusion⟩
          rw [Place.allowance, Place.allowance]
          omega

/-- A string of a line ends at its own quotation mark unless it is read short of it. -/
theorem eq_of_length_le {raw s t between after : Text} (hraw : ∀ c ∈ raw, 32 ≤ c.toNat)
    (hbetween : '"' ∉ between) (hlength : s.length ≤ raw.length)
    (heq : raw ++ '"' :: t = s ++ '"' :: (between ++ '\n' :: after)) :
    raw = s ∧ t = between ++ '\n' :: after := by
  obtain ⟨front, rfl⟩ : s <+: raw :=
    List.prefix_of_prefix_length_le ⟨_, heq.symm⟩ ⟨_, rfl⟩ hlength
  rw [List.append_assoc, List.append_cancel_left_eq] at heq
  cases front with
  | nil => exact ⟨List.append_nil s, (List.cons.inj heq).2⟩
  | cons c front =>
      have hnewline : '\n' ∉ front := fun hmem =>
        absurd (hraw _ (List.mem_append_right s (List.mem_cons_of_mem c hmem))) (by decide)
      exact absurd (List.cons.inj heq).2
        (Text.append_sep_ne (by decide) hnewline hbetween _ _)

/-- A value that is printed in full or in part is read back only if it is printed in
full and all of its characters stand for themselves. -/
theorem plain_of_readString {v s t between after : Text} {pieces : List Piece}
    (hs : s <+: v) (hbetween : '"' ∉ between)
    (hread : readString .plain (s ++ '"' :: (between ++ '\n' :: after)) = some (pieces, t))
    (hdecode : decode pieces = v) : Plain v ∧ s = v ∧ t = between ++ '\n' :: after := by
  obtain ⟨raw, heq, hcontrol, hweight, hplain⟩ := exists_raw (by simp) hread
  change _ ≤ raw.length at hweight
  have hdecoded : v.length ≤ weight pieces := hdecode ▸ length_decode_le pieces
  have hprefix := hs.length_le
  obtain ⟨rfl, rfl⟩ := eq_of_length_le hcontrol hbetween (by omega) heq.symm
  obtain rfl := hs.eq_of_length_le (by omega)
  exact ⟨hplain rfl (by omega), rfl, rfl⟩

/-! ### Numbers -/

def Digits (s : Text) : Prop := s ≠ [] ∧ ∀ c ∈ s, c.isDigit = true

/-- Digits without a zero in front. -/
def Whole (s : Text) : Prop := s = ['0'] ∨ Digits s ∧ s.head? ≠ some '0'

def Fraction (s : Text) : Prop := s = [] ∨ ∃ digits, s = '.' :: digits ∧ Digits digits

def Exponent (s : Text) : Prop :=
  s = [] ∨ ∃ mark sign digits, s = mark :: (sign ++ digits) ∧ (mark = 'e' ∨ mark = 'E') ∧
    (sign = [] ∨ sign = ['+'] ∨ sign = ['-']) ∧ Digits digits

def Number (s : Text) : Prop :=
  ∃ sign whole fraction exponent, s = sign ++ (whole ++ (fraction ++ exponent)) ∧
    (sign = [] ∨ sign = ['-']) ∧ Whole whole ∧ Fraction fraction ∧ Exponent exponent

def isNumeric (c : Char) : Bool := c.isDigit || c ∈ ['+', '-', '.', 'e', 'E']

/-! ### Values -/

def isSpace (c : Char) : Bool := c ∈ [' ', '\n', '\r', '\t']

def skipSpace (s : Text) : Text := s.dropWhile isSpace

mutual

/-- A value at the beginning of a text, and what follows it. -/
inductive Value : Text → Json → Text → Prop where
  | null {s t : Text} (hs : s = 'n' :: 'u' :: 'l' :: 'l' :: t) : Value s .null t
  | true {s t : Text} (hs : s = 't' :: 'r' :: 'u' :: 'e' :: t) : Value s (.bool .true) t
  | false {s t : Text} (hs : s = 'f' :: 'a' :: 'l' :: 's' :: 'e' :: t) :
      Value s (.bool .false) t
  | number {s text t : Text} (htext : Number text) (hs : s = text ++ t) :
      Value s (.number text) t
  | string {s u t : Text} {pieces : List Piece} (hs : s = '"' :: u)
      (hread : readString .plain u = some (pieces, t)) : Value s (.string (decode pieces)) t
  | emptyArray {s u t : Text} (hs : s = '[' :: u) (hclose : skipSpace u = ']' :: t) :
      Value s (.array []) t
  | array {s u t : Text} {elements : List Json} (hs : s = '[' :: u)
      (helements : Elements (skipSpace u) elements t) : Value s (.array elements) t
  | emptyObject {s u t : Text} (hs : s = '{' :: u) (hclose : skipSpace u = '}' :: t) :
      Value s (.object []) t
  | object {s u t : Text} {members : List (Text × Json)} (hs : s = '{' :: u)
      (hmembers : Members (skipSpace u) members t) : Value s (.object members) t

inductive Elements : Text → List Json → Text → Prop where
  | last {s t u : Text} {v : Json} (hv : Value s v t) (hclose : skipSpace t = ']' :: u) :
      Elements s [v] u
  | cons {s t u w : Text} {v : Json} {vs : List Json} (hv : Value s v t)
      (hcomma : skipSpace t = ',' :: u) (hvs : Elements (skipSpace u) vs w) :
      Elements s (v :: vs) w

inductive Member : Text → Text × Json → Text → Prop where
  | mk {s u t w r : Text} {pieces : List Piece} {v : Json} (hs : s = '"' :: u)
      (hname : readString .plain u = some (pieces, t)) (hcolon : skipSpace t = ':' :: w)
      (hv : Value (skipSpace w) v r) : Member s (decode pieces, v) r

inductive Members : Text → List (Text × Json) → Text → Prop where
  | last {s t u : Text} {m : Text × Json} (hm : Member s m t) (hclose : skipSpace t = '}' :: u) :
      Members s [m] u
  | cons {s t u w : Text} {m : Text × Json} {ms : List (Text × Json)} (hm : Member s m t)
      (hcomma : skipSpace t = ',' :: u) (hms : Members (skipSpace u) ms w) :
      Members s (m :: ms) w

end

/-- A text of one value, with white space around it. -/
def Document (s : Text) (v : Json) : Prop :=
  Utf8.Valid s ∧ ∃ t, Value (skipSpace s) v t ∧ skipSpace t = []

/-! ### Reading back -/

theorem exists_cons_of_whole {s : Text} (hs : Whole s) : ∃ c t, s = c :: t ∧ c.isDigit = true := by
  rcases hs with rfl | ⟨⟨hne, hdigits⟩, -⟩
  · exact ⟨_, _, rfl, rfl⟩
  · obtain ⟨c, t, rfl⟩ := List.exists_cons_of_ne_nil hne
    exact ⟨c, t, rfl, hdigits c List.mem_cons_self⟩

/-- A number begins with a digit, or with a sign and a digit. -/
theorem exists_digit_of_number {s : Text} (hs : Number s) :
    ∃ c t, c.isDigit = true ∧ (s = c :: t ∨ s = '-' :: c :: t) := by
  obtain ⟨sign, whole, fraction, exponent, rfl, hsign, hwhole, -, -⟩ := hs
  obtain ⟨c, t, rfl, hc⟩ := exists_cons_of_whole hwhole
  refine ⟨c, t ++ (fraction ++ exponent), hc, ?_⟩
  rcases hsign with rfl | rfl
  · exact .inl rfl
  · exact .inr rfl

theorem cons_eq_append_number {c : Char} {u text t : Text} (htext : Number text)
    (heq : c :: u = text ++ t) : c.isDigit = true ∨ c = '-' ∧ ∃ d ∈ u.head?, d.isDigit = true := by
  obtain ⟨d, rest, hd, rfl | rfl⟩ := exists_digit_of_number htext
  · obtain ⟨rfl, -⟩ := List.cons.inj heq
    exact .inl hd
  · obtain ⟨rfl, rfl⟩ := List.cons.inj heq
    exact .inr ⟨rfl, d, rfl, hd⟩

/-- What a value that is no array and no object begins with. -/
theorem value_cons {c : Char} {u t : Text} {v : Json} (hv : Value (c :: u) v t)
    (harray : c ≠ '[') (hobject : c ≠ '{') :
    (c = 'n' ∧ u = 'u' :: 'l' :: 'l' :: t) ∨ (c = 't' ∧ u = 'r' :: 'u' :: 'e' :: t) ∨
      (c = 'f' ∧ u = 'a' :: 'l' :: 's' :: 'e' :: t) ∨
      (c = '"' ∧ ∃ pieces, readString .plain u = some (pieces, t) ∧ v = .string (decode pieces)) ∨
      (c.isDigit = true ∨ c = '-' ∧ ∃ d ∈ u.head?, d.isDigit = true) ∧
        ∃ text, Number text ∧ c :: u = text ++ t := by
  cases hv with
  | null hs => exact .inl (List.cons.inj hs)
  | true hs => exact .inr (.inl (List.cons.inj hs))
  | false hs => exact .inr (.inr (.inl (List.cons.inj hs)))
  | string hs hread =>
      obtain ⟨rfl, rfl⟩ := List.cons.inj hs
      exact .inr (.inr (.inr (.inl ⟨rfl, _, hread, rfl⟩)))
  | number htext hs =>
      exact .inr (.inr (.inr (.inr ⟨cons_eq_append_number htext hs, _, htext, hs⟩)))
  | emptyArray hs | array hs => exact absurd (List.cons.inj hs).1 harray
  | emptyObject hs | object hs => exact absurd (List.cons.inj hs).1 hobject

theorem value_string {u t : Text} {v : Json} (hv : Value ('"' :: u) v t) :
    ∃ pieces, readString .plain u = some (pieces, t) ∧ v = .string (decode pieces) := by
  rcases value_cons hv (by decide) (by decide) with
    ⟨h, -⟩ | ⟨h, -⟩ | ⟨h, -⟩ | ⟨-, h⟩ | ⟨h | ⟨h, -⟩, -⟩
  · cases h
  · cases h
  · cases h
  · exact h
  · cases h
  · cases h

theorem value_true {rest t : Text} {v : Json}
    (hv : Value ('t' :: 'r' :: 'u' :: 'e' :: rest) v t) : t = rest := by
  rcases value_cons hv (by decide) (by decide) with
    ⟨h, -⟩ | ⟨-, heq⟩ | ⟨h, -⟩ | ⟨h, -⟩ | ⟨h | ⟨h, -⟩, -⟩
  · cases h
  · cases heq
    rfl
  · cases h
  · cases h
  · cases h
  · cases h

theorem value_false {rest t : Text} {v : Json}
    (hv : Value ('f' :: 'a' :: 'l' :: 's' :: 'e' :: rest) v t) : t = rest := by
  rcases value_cons hv (by decide) (by decide) with
    ⟨h, -⟩ | ⟨h, -⟩ | ⟨-, heq⟩ | ⟨h, -⟩ | ⟨h | ⟨h, -⟩, -⟩
  · cases h
  · cases h
  · cases heq
    rfl
  · cases h
  · cases h
  · cases h

theorem value_number {text rest t : Text} {v : Json} (htext : Number text)
    (hv : Value (text ++ rest) v t) : ∃ text', Number text' ∧ text ++ rest = text' ++ t := by
  obtain ⟨c, u, heq, hc⟩ : ∃ c u, text ++ rest = c :: u ∧ (c.isDigit = true ∨ c = '-') := by
    obtain ⟨d, u, hd, rfl | rfl⟩ := exists_digit_of_number htext
    · exact ⟨d, u ++ rest, rfl, .inl hd⟩
    · exact ⟨'-', d :: (u ++ rest), rfl, .inr rfl⟩
  have hne : ∀ d : Char, d.isDigit = false → d ≠ '-' → c ≠ d := by
    rintro d hdigit hminus rfl
    rcases hc with hc | hc
    · exact Bool.false_ne_true (hdigit.symm.trans hc)
    · exact hminus hc
  rw [heq] at hv ⊢
  rcases value_cons hv (hne '[' rfl (by decide)) (hne '{' rfl (by decide)) with
    ⟨h, -⟩ | ⟨h, -⟩ | ⟨h, -⟩ | ⟨h, -⟩ | ⟨-, h⟩
  · exact absurd h (hne 'n' rfl (by decide))
  · exact absurd h (hne 't' rfl (by decide))
  · exact absurd h (hne 'f' rfl (by decide))
  · exact absurd h (hne '"' rfl (by decide))
  · exact h

theorem isNumeric_of_digits {s : Text} (hs : ∀ c ∈ s, c.isDigit = true) :
    ∀ c ∈ s, isNumeric c = true := fun c hc => by rw [isNumeric, hs c hc, Bool.true_or]

theorem isNumeric_of_number {s : Text} (hs : Number s) : ∀ c ∈ s, isNumeric c = true := by
  obtain ⟨sign, whole, fraction, exponent, rfl, hsign, hwhole, hfraction, hexponent⟩ := hs
  refine List.forall_mem_append.mpr ⟨?_, List.forall_mem_append.mpr ⟨?_,
    List.forall_mem_append.mpr ⟨?_, ?_⟩⟩⟩
  · rcases hsign with rfl | rfl <;> simp [isNumeric]
  · rcases hwhole with rfl | ⟨hdigits, -⟩
    · simp [isNumeric]
    · exact isNumeric_of_digits hdigits.2
  · rcases hfraction with rfl | ⟨digits, rfl, hdigits⟩
    · simp
    · exact List.forall_mem_cons.mpr ⟨rfl, isNumeric_of_digits hdigits.2⟩
  · rcases hexponent with rfl | ⟨mark, sign, digits, rfl, hmark, hsign, hdigits⟩
    · simp
    · refine List.forall_mem_cons.mpr ⟨?_, List.forall_mem_append.mpr
        ⟨?_, isNumeric_of_digits hdigits.2⟩⟩
      · rcases hmark with rfl | rfl <;> rfl
      · rcases hsign with rfl | rfl | rfl <;> simp [isNumeric]

def Ends (t : Text) : Prop := ∀ c ∈ t.head?, isNumeric c = false

theorem append_number_inj {text text' t t' : Text} (htext : ∀ c ∈ text, isNumeric c = true)
    (htext' : ∀ c ∈ text', isNumeric c = true) (ht : Ends t) (ht' : Ends t')
    (heq : text ++ t = text' ++ t') : text = text' ∧ t = t' := by
  have htake : ∀ {text t : Text}, (∀ c ∈ text, isNumeric c = true) → Ends t →
      (text ++ t).takeWhile isNumeric = text := by
    intro text t htext ht
    cases t with
    | nil => rw [List.append_nil, List.takeWhile_eq_self_iff.mpr htext]
    | cons c t => exact Text.takeWhile_append_cons htext (ht c rfl) t
  have hleft := htake htext ht
  rw [heq, htake htext' ht'] at hleft
  obtain rfl := hleft
  exact ⟨rfl, List.append_cancel_left heq⟩

theorem isNumeric_of_isSpace {c : Char} (hc : isSpace c = true) : isNumeric c = false :=
  have hspaces : ∀ c ∈ [' ', '\n', '\r', '\t'], isNumeric c = false := by simp [isNumeric]
  hspaces c (of_decide_eq_true hc)

/-- What follows a value ends it. -/
theorem ends_of_skipSpace {c : Char} (hc : isNumeric c = false) {t u : Text}
    (ht : skipSpace t = c :: u) : Ends t := by
  cases t with
  | nil => cases ht
  | cons d t =>
      rintro d ⟨⟩
      rw [skipSpace, List.dropWhile_cons] at ht
      split_ifs at ht with hd
      · exact isNumeric_of_isSpace hd
      · exact (List.cons.inj ht).1 ▸ hc

theorem skipSpace_cons_of_space {c : Char} (hc : isSpace c = true) (s : Text) :
    skipSpace (c :: s) = skipSpace s := List.dropWhile_cons_of_pos hc

theorem skipSpace_cons {c : Char} (hc : isSpace c = false) (s : Text) :
    skipSpace (c :: s) = c :: s := List.dropWhile_cons_of_neg (by rw [hc]; exact Bool.false_ne_true)

theorem member_plain_iff {name s t : Text} {m : Text × Json} (hname : Plain name) :
    Member ('"' :: (name ++ '"' :: s)) m t ↔
      m.1 = name ∧ ∃ u, skipSpace s = ':' :: u ∧ Value (skipSpace u) m.2 t := by
  have hread := readString_of_plain hname s
  constructor
  · rintro ⟨hs, hname', hcolon, hv⟩
    obtain rfl := (List.cons.inj hs).2
    obtain ⟨rfl, rfl⟩ := Prod.mk.inj (Option.some.inj (hread.symm.trans hname'))
    exact ⟨decode_map_char name, _, hcolon, hv⟩
  · obtain ⟨name', v⟩ := m
    rintro ⟨rfl, u, hcolon, hv⟩
    have hmember := Member.mk rfl hread hcolon hv
    rwa [decode_map_char] at hmember

/-- The first member, and the mark after it. -/
theorem members_cons {s t : Text} {members : List (Text × Json)} (hmembers : Members s members t) :
    ∃ m members' u c w, members = m :: members' ∧ Member s m u ∧ skipSpace u = c :: w ∧
      (c = '}' ∧ members' = [] ∧ w = t ∨ c = ',' ∧ Members (skipSpace w) members' t) := by
  cases hmembers with
  | last hm hclose => exact ⟨_, _, _, _, _, rfl, hm, hclose, .inl ⟨rfl, rfl, rfl⟩⟩
  | cons hm hcomma hms => exact ⟨_, _, _, _, _, rfl, hm, hcomma, .inr ⟨rfl, hms⟩⟩

theorem value_object {u t : Text} {members : List (Text × Json)}
    (hv : Value ('{' :: u) (.object members) t) :
    members = [] ∧ skipSpace u = '}' :: t ∨ Members (skipSpace u) members t := by
  cases hv with
  | emptyObject hs hclose =>
      obtain rfl := (List.cons.inj hs).2
      exact .inl ⟨rfl, hclose⟩
  | object hs hmembers =>
      obtain rfl := (List.cons.inj hs).2
      exact .inr hmembers

end Json

end Atp

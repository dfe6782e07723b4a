import Mathlib.Algebra.Group.Nat.Defs
import Mathlib.Data.Char
import Mathlib.Data.List.Basic
import Mathlib.Data.List.Induction
import Mathlib.Data.List.Lex

/-!
Byte strings, their lexicographic order, and decimal numerals.  A byte is the
character of its code, so the order of characters is the order of bytes.
-/

namespace Atp

abbrev Text := List Char

def decimal (n : Nat) : Text := Nat.toDigits 10 n

def integer (v : Int) : Text :=
  if v < 0 then '-' :: decimal v.natAbs else decimal v.natAbs

namespace Text

/-! ### The lexicographic order -/

/-- Strings compare by their first characters, as many of the one as of the other. -/
theorem append_lt_append_iff_of_length {xs ys : Text} (hlen : xs.length = ys.length)
    (as bs : Text) : xs ++ as < ys ++ bs ↔ xs < ys ∨ xs = ys ∧ as < bs := by
  induction xs generalizing ys with
  | nil =>
      obtain rfl := List.length_eq_zero_iff.mp hlen.symm
      simp
  | cons c xs ih =>
      cases ys with
      | nil => simp at hlen
      | cons d ys =>
          rw [List.cons_append, List.cons_append, List.cons_lt_cons_iff,
            List.cons_lt_cons_iff, ih (Nat.succ.inj hlen), List.cons.injEq]
          tauto

theorem append_lt_append_iff (p a b : Text) : p ++ a < p ++ b ↔ a < b := by
  rw [append_lt_append_iff_of_length rfl, or_iff_right (List.lt_irrefl p), and_iff_right rfl]

/-- A string between two strings that begin with `p` begins with `p`. -/
theorem exists_append_of_between {p a b k : Text} (hlow : ¬ k < p ++ a)
    (hhigh : k < p ++ b) : ∃ r, k = p ++ r := by
  induction p generalizing k with
  | nil => exact ⟨k, rfl⟩
  | cons c p ih =>
      cases k with
      | nil => exact absurd (List.nil_lt_cons _ _) hlow
      | cons d k =>
          rw [List.cons_append, List.cons_lt_cons_iff, not_or, not_and] at hlow
          rw [List.cons_append, List.cons_lt_cons_iff] at hhigh
          rcases hhigh with hlt | ⟨rfl, hhigh⟩
          · exact absurd hlt hlow.1
          · obtain ⟨r, rfl⟩ := ih (hlow.2 rfl) hhigh
            exact ⟨r, rfl⟩

theorem between_iff {p a b k : Text} :
    (¬ k < p ++ a ∧ k < p ++ b) ↔ ∃ r, k = p ++ r ∧ ¬ r < a ∧ r < b := by
  constructor
  · rintro ⟨hlow, hhigh⟩
    obtain ⟨r, rfl⟩ := exists_append_of_between hlow hhigh
    rw [append_lt_append_iff] at hlow hhigh
    exact ⟨r, rfl, hlow, hhigh⟩
  · rintro ⟨r, rfl, hlow, hhigh⟩
    rw [append_lt_append_iff, append_lt_append_iff]
    exact ⟨hlow, hhigh⟩

theorem concat_lt_concat_iff {xs ys : Text} (hlen : xs.length = ys.length)
    (x y : Char) : xs ++ [x] < ys ++ [y] ↔ xs < ys ∨ xs = ys ∧ x < y := by
  rw [append_lt_append_iff_of_length hlen, List.cons_lt_cons_iff]
  simp

theorem lt_append_iff {xs ys : Text} (hlen : xs.length = ys.length) (zs : Text) :
    xs < ys ++ zs ↔ xs < ys ∨ xs = ys ∧ zs ≠ [] := by
  have hlt : [] < zs ↔ zs ≠ [] := by
    cases zs with
    | nil => simp
    | cons z zs => simp
  have happend := append_lt_append_iff_of_length hlen [] zs
  rwa [List.append_nil, hlt] at happend

theorem append_lt_iff {xs ys : Text} (hlen : xs.length = ys.length) (zs : Text) :
    xs ++ zs < ys ↔ xs < ys := by
  have happend := append_lt_append_iff_of_length hlen zs []
  rwa [List.append_nil, or_iff_left fun h => List.not_lt_nil zs h.2] at happend

/-! ### Separators -/

/-- The first separator splits a string in one way. -/
theorem append_sep_inj {c : Char} {xs xs' ys ys' : Text} (hxs : c ∉ xs) (hxs' : c ∉ xs') :
    xs ++ c :: ys = xs' ++ c :: ys' ↔ xs = xs' ∧ ys = ys' := by
  induction xs generalizing xs' with
  | nil =>
      cases xs' with
      | nil => simp
      | cons x xs' =>
          rw [List.mem_cons, not_or] at hxs'
          simp [hxs'.1]
  | cons x xs ih =>
      rw [List.mem_cons, not_or] at hxs
      cases xs' with
      | nil => simp [Ne.symm hxs.1]
      | cons x' xs' =>
          rw [List.mem_cons, not_or] at hxs'
          rw [List.cons_append, List.cons_append, List.cons.injEq, ih hxs.2 hxs'.2,
            List.cons.injEq, and_assoc]

theorem append_last_sep_inj {c : Char} {xs xs' ys ys' : Text} (hys : c ∉ ys)
    (hys' : c ∉ ys') : xs ++ c :: ys = xs' ++ c :: ys' ↔ xs = xs' ∧ ys = ys' := by
  have hreverse : ∀ as bs : Text, (as ++ c :: bs).reverse = bs.reverse ++ c :: as.reverse := by
    simp
  rw [← List.reverse_inj, hreverse, hreverse,
    append_sep_inj (by simpa using hys) (by simpa using hys'), List.reverse_inj,
    List.reverse_inj, and_comm]

/-- A string with two separators splits in one way, whatever the parts are read
back as. -/
theorem append_two_sep_inj {c : Char} {xs ys zs xs' ys' zs' : Text} (hxs : c ∉ xs)
    (hys : c ∉ ys) (hzs : c ∉ zs) :
    xs ++ c :: (ys ++ c :: zs) = xs' ++ c :: (ys' ++ c :: zs') ↔
      xs = xs' ∧ ys = ys' ∧ zs = zs' := by
  constructor
  · intro heq
    have hcount := congrArg (List.count c) heq
    simp only [List.count_append, List.count_cons_self, List.count_eq_zero.mpr hxs,
      List.count_eq_zero.mpr hys, List.count_eq_zero.mpr hzs] at hcount
    have hxs' : c ∉ xs' := List.count_eq_zero.mp (by omega)
    have hys' : c ∉ ys' := List.count_eq_zero.mp (by omega)
    rw [append_sep_inj hxs hxs', append_sep_inj hys hys'] at heq
    exact heq
  · rintro ⟨rfl, rfl, rfl⟩
    rfl

/-- The first of two separators is where neither can stand before the other. -/
theorem append_sep_ne {c d : Char} (hcd : c ≠ d) {xs ys : Text} (hxs : d ∉ xs) (hys : c ∉ ys)
    (s t : Text) : xs ++ c :: s ≠ ys ++ d :: t := by
  induction xs generalizing ys with
  | nil =>
      cases ys with
      | nil => simp [hcd]
      | cons y ys =>
          rw [List.mem_cons, not_or] at hys
          simp [hys.1]
  | cons x xs ih =>
      rw [List.mem_cons, not_or] at hxs
      cases ys with
      | nil => simp [Ne.symm hxs.1]
      | cons y ys =>
          rw [List.mem_cons, not_or] at hys
          rw [List.cons_append, List.cons_append, ne_eq, List.cons.injEq, not_and]
          exact fun _ => ih hxs.2 hys.2

/-! ### The first character of some kind -/

theorem takeWhile_append_cons {p : Char → Bool} {s : Text} (hs : ∀ d ∈ s, p d = true) {c : Char}
    (hc : p c = false) (rest : Text) : (s ++ c :: rest).takeWhile p = s := by
  rw [List.takeWhile_append_of_pos hs]
  simp [hc]

theorem dropWhile_append_cons {p : Char → Bool} {s : Text} (hs : ∀ d ∈ s, p d = true) {c : Char}
    (hc : p c = false) (rest : Text) : (s ++ c :: rest).dropWhile p = c :: rest := by
  rw [List.dropWhile_append_of_pos hs]
  simp [hc]

theorem forall_ne_of_not_mem {c : Char} {s : Text} (hs : c ∉ s) :
    ∀ d ∈ s, decide (d ≠ c) = true := by
  intro d hd
  apply decide_eq_true
  rintro rfl
  exact hs hd

/-! ### Decimal numerals -/

theorem isDigit_of_mem_decimal {c : Char} {n : Nat} (hc : c ∈ decimal n) : c.isDigit = true :=
  Nat.isDigit_of_mem_toDigits (by decide) (by decide) hc

theorem not_mem_decimal {c : Char} (hc : c.isDigit = false) (n : Nat) :
    c ∉ decimal n := by
  intro hmem
  rw [isDigit_of_mem_decimal hmem] at hc
  cases hc

theorem takeWhile_decimal (n : Nat) {c : Char} (hc : c.isDigit = false) (rest : Text) :
    (decimal n ++ c :: rest).takeWhile Char.isDigit = decimal n :=
  takeWhile_append_cons (fun _ => isDigit_of_mem_decimal) hc rest

theorem dropWhile_decimal (n : Nat) {c : Char} (hc : c.isDigit = false) (rest : Text) :
    (decimal n ++ c :: rest).dropWhile Char.isDigit = c :: rest :=
  dropWhile_append_cons (fun _ => isDigit_of_mem_decimal) hc rest

theorem decimal_of_lt {n : Nat} (hn : n < 10) : decimal n = [n.digitChar] :=
  Nat.toDigits_of_lt_base hn

theorem decimal_of_ge {n : Nat} (hn : 10 ≤ n) :
    decimal n = decimal (n / 10) ++ [(n % 10).digitChar] := by
  rw [decimal, Nat.toDigits_eq_if (by decide), if_neg (Nat.not_lt.mpr hn)]
  rfl

theorem decimal_ne_nil (n : Nat) : decimal n ≠ [] := by
  rcases Nat.lt_or_ge n 10 with hn | hn
  · simp [decimal_of_lt hn]
  · simp [decimal_of_ge hn]

/-- A numeral has no zero in front. -/
theorem head?_decimal {n : Nat} (hn : 0 < n) : (decimal n).head? ≠ some '0' := by
  induction n using Nat.strong_induction_on with
  | _ n ih =>
      rcases Nat.lt_or_ge n 10 with hlt | hge
      · rw [decimal_of_lt hlt, List.head?_cons, ne_eq, Option.some.injEq]
        intro hzero
        have hnat := congrArg Char.toNat hzero
        rw [Nat.toNat_digitChar_of_lt_ten hlt] at hnat
        exact hn.ne' (Nat.add_left_cancel hnat)
      · rw [decimal_of_ge hge, List.head?_append_of_ne_nil _ (decimal_ne_nil _)]
        exact ih (n / 10) (by omega) (by omega)

theorem one_lt_length_decimal {n : Nat} (hn : 10 ≤ n) : 1 < (decimal n).length := by
  rw [decimal_of_ge hn, List.length_append]
  exact Nat.lt_add_of_pos_left (List.length_pos_iff.mpr (decimal_ne_nil _))

theorem digitChar_lt_iff {a b : Nat} (ha : a < 10) (hb : b < 10) :
    a.digitChar < b.digitChar ↔ a < b := by
  change a.digitChar.toNat < b.digitChar.toNat ↔ a < b
  rw [Nat.toNat_digitChar_of_lt_ten ha, Nat.toNat_digitChar_of_lt_ten hb]
  exact Nat.add_lt_add_iff_left

theorem decimal_injective : Function.Injective decimal := by
  intro a b hab
  have hvalue := congrArg (Nat.ofDigitChars 10 · 0) hab
  simpa [decimal, Nat.ofDigitChars_ten_toDigits] using hvalue

theorem digit_lt {c : Char} (hc : c.isDigit = true) : c.toNat - '0'.toNat < 10 := by
  have hhigh : c.toNat ≤ 57 := (Char.isDigit_iff_toNat.mp hc).2
  exact Nat.lt_succ_of_le (Nat.sub_le_sub_right hhigh 48)

theorem ofDigitChars_lt {s : Text} (hs : ∀ c ∈ s, c.isDigit = true) :
    Nat.ofDigitChars 10 s 0 < 10 ^ s.length := by
  induction s with
  | nil => simp
  | cons c s ih =>
      have hc := digit_lt (hs c List.mem_cons_self)
      have hrest := ih fun d hd => hs d (List.mem_cons_of_mem _ hd)
      have hdigit := Nat.mul_le_mul_left (10 ^ s.length) (Nat.le_of_lt_succ hc)
      rw [Nat.ofDigitChars_cons, Nat.ofDigitChars_eq_ofDigitChars_zero, List.length_cons,
        Nat.pow_succ, Nat.mul_zero, Nat.zero_add]
      omega

theorem digitChar_of_isDigit {c : Char} (hc : c.isDigit = true) :
    (c.toNat - '0'.toNat).digitChar = c := by
  apply Char.toNat_inj.mp
  rw [Nat.toNat_digitChar_of_lt_ten (digit_lt hc)]
  exact Nat.add_sub_of_le (Char.isDigit_iff_toNat.mp hc).1

/-- A numeral without leading zeros is the one of its value. -/
theorem decimal_ofDigitChars {s : Text} (hs : ∀ c ∈ s, c.isDigit = true) (hne : s ≠ [])
    (hhead : s.head? ≠ some '0') : decimal (Nat.ofDigitChars 10 s 0) = s := by
  induction s using List.reverseRecOn with
  | nil => exact absurd rfl hne
  | append_singleton s c ih =>
      obtain ⟨hs, hc⟩ := List.forall_mem_append.mp hs
      have hdigit := digitChar_of_isDigit (hc c List.mem_cons_self)
      have hlt := digit_lt (hc c List.mem_cons_self)
      have hvalue : Nat.ofDigitChars 10 (s ++ [c]) 0 =
          10 * Nat.ofDigitChars 10 s 0 + (c.toNat - '0'.toNat) := by
        rw [Nat.ofDigitChars_append, Nat.ofDigitChars_cons, Nat.ofDigitChars_nil]
      rw [hvalue]
      rcases List.eq_nil_or_concat s with rfl | ⟨front, d, hfront⟩
      · rw [Nat.ofDigitChars_nil, Nat.mul_zero, Nat.zero_add, decimal_of_lt hlt, hdigit,
          List.nil_append]
      · have hnil : s ≠ [] := by
          rw [hfront]
          simp
        rw [List.head?_append_of_ne_nil _ hnil] at hhead
        have hs := ih hs hnil hhead
        have hpos : Nat.ofDigitChars 10 s 0 ≠ 0 := by
          intro hzero
          rw [hzero] at hs
          rw [← hs] at hhead
          exact hhead rfl
        rw [decimal_of_ge (by omega), Nat.mul_add_div (by decide), Nat.div_eq_of_lt hlt,
          Nat.add_zero, Nat.mul_add_mod, Nat.mod_eq_of_lt hlt, hs, hdigit]

/-- Among numerals of one length the order of strings is the order of numbers. -/
theorem decimal_lt_iff {a b : Nat} (hlen : (decimal a).length = (decimal b).length) :
    decimal a < decimal b ↔ a < b := by
  induction a using Nat.strong_induction_on generalizing b with
  | _ a ih =>
      rcases Nat.lt_or_ge a 10 with ha | ha <;> rcases Nat.lt_or_ge b 10 with hb | hb
      · rw [decimal_of_lt ha, decimal_of_lt hb, List.cons_lt_cons_iff,
          digitChar_lt_iff ha hb]
        simp
      · exact absurd hlen (by rw [decimal_of_lt ha]; exact (one_lt_length_decimal hb).ne)
      · exact absurd hlen (by rw [decimal_of_lt hb]; exact (one_lt_length_decimal ha).ne')
      · rw [decimal_of_ge ha, decimal_of_ge hb, List.length_append, List.length_append,
          List.length_singleton, List.length_singleton, Nat.add_right_cancel_iff] at hlen
        rw [decimal_of_ge ha, decimal_of_ge hb, concat_lt_concat_iff hlen,
          ih (a / 10) (by omega) hlen, decimal_injective.eq_iff,
          digitChar_lt_iff (Nat.mod_lt _ (by decide)) (Nat.mod_lt _ (by decide))]
        omega

theorem length_decimal_le_iff {n k : Nat} (hk : 0 < k) :
    (decimal n).length ≤ k ↔ n < 10 ^ k :=
  Nat.length_toDigits_le_iff (by decide) hk

theorem lt_of_length_decimal_lt {a b : Nat} (hlen : (decimal a).length < (decimal b).length) :
    a < b := by
  have hpos : 0 < (decimal a).length := List.length_pos_iff.mpr (decimal_ne_nil a)
  have ha : a < 10 ^ (decimal a).length := (length_decimal_le_iff hpos).mp le_rfl
  have hb : ¬ b < 10 ^ (decimal a).length := by
    rw [← length_decimal_le_iff hpos]
    exact Nat.not_le.mpr hlen
  omega

/-- A numeral without its last digits is the numeral of a quotient. -/
theorem exists_decimal_append {n k : Nat} (hk : k < (decimal n).length) :
    ∃ rest, rest.length = k ∧ decimal n = decimal (n / 10 ^ k) ++ rest := by
  induction k generalizing n with
  | zero => exact ⟨[], rfl, by simp⟩
  | succ k ih =>
      have hn : 10 ≤ n := by
        by_contra hsmall
        rw [decimal_of_lt (Nat.not_le.mp hsmall), List.length_singleton] at hk
        omega
      rw [decimal_of_ge hn, List.length_append, List.length_singleton] at hk
      obtain ⟨rest, hlength, hrest⟩ := ih (Nat.lt_of_succ_lt_succ hk)
      refine ⟨rest ++ [(n % 10).digitChar], ?_, ?_⟩
      · rw [List.length_append, hlength, List.length_singleton]
      · rw [decimal_of_ge hn, hrest, Nat.div_div_eq_div_mul, Nat.pow_succ, Nat.mul_comm 10,
          List.append_assoc]

section

variable {a b : Nat} (hlen : (decimal a).length < (decimal b).length)

include hlen

theorem exists_leading_digits : ∃ rest, rest ≠ [] ∧
    (decimal a).length =
      (decimal (b / 10 ^ ((decimal b).length - (decimal a).length))).length ∧
    decimal b = decimal (b / 10 ^ ((decimal b).length - (decimal a).length)) ++ rest := by
  have hpos : 0 < (decimal a).length := List.length_pos_iff.mpr (decimal_ne_nil a)
  obtain ⟨rest, hlength, hrest⟩ := @exists_decimal_append b
    ((decimal b).length - (decimal a).length) (by omega)
  have hsum := congrArg List.length hrest
  rw [List.length_append, hlength] at hsum
  refine ⟨rest, ?_, by omega, hrest⟩
  rintro rfl
  rw [List.length_nil] at hlength
  omega

/-- A shorter numeral comes before a longer one if its number is not above the first
digits of the longer one. -/
theorem decimal_lt_decimal_iff_of_length_lt : decimal a < decimal b ↔
    a ≤ b / 10 ^ ((decimal b).length - (decimal a).length) := by
  obtain ⟨rest, hne, hlength, hrest⟩ := exists_leading_digits hlen
  generalize b / 10 ^ ((decimal b).length - (decimal a).length) = q at hlength hrest ⊢
  rw [hrest, lt_append_iff hlength, decimal_lt_iff hlength, decimal_injective.eq_iff,
    and_iff_left hne, Nat.le_iff_lt_or_eq]

theorem decimal_lt_decimal_iff_of_lt_length : decimal b < decimal a ↔
    b / 10 ^ ((decimal b).length - (decimal a).length) < a := by
  obtain ⟨rest, -, hlength, hrest⟩ := exists_leading_digits hlen
  generalize b / 10 ^ ((decimal b).length - (decimal a).length) = q at hlength hrest ⊢
  rw [hrest, append_lt_iff hlength.symm, decimal_lt_iff hlength.symm]

end

end Text

end Atp

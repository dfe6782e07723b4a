import Atp.Double
import Mathlib.Data.UInt

/-!
`boost::lexical_cast` from strings to numbers.  The whole string must be the
number; anything else throws.
-/

namespace Atp

inductive BadLexicalCast where
  | badLexicalCast
deriving DecidableEq

@[simp]
theorem ok_bind {ε α β : Type} (x : α) (f : α → Except ε β) : (Except.ok x >>= f) = f x := rfl

theorem ok_of_bind {ε α β : Type} {x : Except ε α} {f : α → Except ε β} {r : β}
    (h : (x >>= f) = .ok r) : ∃ a, x = .ok a ∧ f a = .ok r := by
  cases x with
  | error e => cases h
  | ok a => exact ⟨a, rfl, h⟩

/-- A traversal that ends well has done so at each element. -/
theorem exists_of_mem_mapM {ε α β : Type} {f : α → Except ε β} {xs : List α} {ys : List β}
    (h : xs.mapM f = .ok ys) {y : β} (hy : y ∈ ys) : ∃ x ∈ xs, f x = .ok y := by
  induction xs generalizing ys with
  | nil =>
      obtain rfl := Except.ok.inj h
      cases hy
  | cons x xs ih =>
      rw [List.mapM_cons] at h
      obtain ⟨z, hz, h⟩ := ok_of_bind h
      obtain ⟨zs, hzs, h⟩ := ok_of_bind h
      obtain rfl := Except.ok.inj h
      rcases List.mem_cons.mp hy with rfl | hy
      · exact ⟨x, List.mem_cons_self, hz⟩
      · obtain ⟨x', hx', hy⟩ := ih hzs hy
        exact ⟨x', List.mem_cons_of_mem x hx', hy⟩

namespace LexicalCast

def takeSign : Text → Bool × Text
  | '-' :: s => (true, s)
  | '+' :: s => (false, s)
  | s => (false, s)

def digitsValue (s : Text) : Except BadLexicalCast Nat :=
  if s ≠ [] ∧ s.all Char.isDigit then .ok (Nat.ofDigitChars 10 s 0)
  else .error .badLexicalCast

def signed (negative : Bool) (n : Nat) : Int := if negative then -n else n

def int (s : Text) : Except BadLexicalCast Int32 := do
  let (negative, s) := takeSign s
  let v := signed negative (← digitsValue s)
  if -2 ^ 31 ≤ v ∧ v < 2 ^ 31 then .ok (Int32.ofInt v) else .error .badLexicalCast

def long (s : Text) : Except BadLexicalCast Int64 := do
  let (negative, s) := takeSign s
  let v := signed negative (← digitsValue s)
  if -2 ^ 63 ≤ v ∧ v < 2 ^ 63 then .ok (Int64.ofInt v) else .error .badLexicalCast

/-- `lexical_cast<uint64_t>`; a negated number wraps. -/
def uint64 (s : Text) : Except BadLexicalCast UInt64 := do
  let (negative, s) := takeSign s
  let n ← digitsValue s
  if n < 2 ^ 64 then .ok (if negative then 0 - UInt64.ofNat n else UInt64.ofNat n)
  else .error .badLexicalCast

/-- `nan`, alone or followed by a parenthesis. -/
def isNan (s : Text) : Bool :=
  (s.take 3).map Char.toLower = ['n', 'a', 'n'] &&
    (s.length = 3 ||
      (5 ≤ s.length && s[3]? = some '(' && s.getLast? = some ')'))

def isInfinity (s : Text) : Bool :=
  s.map Char.toLower = ['i', 'n', 'f'] ||
    s.map Char.toLower = ['i', 'n', 'f', 'i', 'n', 'i', 't', 'y']

/-- Digits after a decimal point, and what follows them. -/
def takeFraction : Text → Text × Text
  | '.' :: s => s.span Char.isDigit
  | s => ([], s)

def exponent : Text → Except BadLexicalCast Int
  | [] => .ok 0
  | c :: s => do
      let (negative, s) := takeSign s
      if c = 'e' ∨ c = 'E' then signed negative <$> digitsValue s
      else .error .badLexicalCast

/-- The number with the given digits, of which the last has weight `10 ^ x`. -/
def ofDecimal (negative : Bool) (digits : Nat) (x : Int) : Except BadLexicalCast Double :=
  let nearest :=
    if 0 ≤ x then Double.ofRatio negative (digits * 10 ^ x.toNat) 1
    else Double.ofRatio negative digits (10 ^ (-x).toNat)
  nearest.elim (.error .badLexicalCast) .ok

def unsignedDouble (negative : Bool) (s : Text) : Except BadLexicalCast Double := do
  let (whole, s) := s.span Char.isDigit
  let (frac, s) := takeFraction s
  if whole ++ frac = [] then .error .badLexicalCast
  else
    let x ← exponent s
    ofDecimal negative (Nat.ofDigitChars 10 (whole ++ frac) 0) (x - frac.length)

def double (s : Text) : Except BadLexicalCast Double :=
  let (negative, s) := takeSign s
  if isInfinity s then .ok (Double.infinity negative)
  else if isNan s then .ok (Double.nan negative)
  else unsignedDouble negative s

/-! ### Numbers that an `ostream` has written -/

section

variable {s : Text} (hs : ∀ c ∈ s, c.isDigit = true)

include hs

theorem takeSign_of_digits : takeSign s = (false, s) := by
  unfold takeSign
  split
  · exact absurd (hs '-' List.mem_cons_self) (by decide)
  · exact absurd (hs '+' List.mem_cons_self) (by decide)
  · rfl

theorem digitsValue_of_digits (hne : s ≠ []) :
    digitsValue s = .ok (Nat.ofDigitChars 10 s 0) :=
  if_pos ⟨hne, List.all_eq_true.mpr hs⟩

end

theorem takeSign_decimal (n : Nat) : takeSign (decimal n) = (false, decimal n) :=
  takeSign_of_digits fun _ => Text.isDigit_of_mem_decimal

theorem digitsValue_decimal (n : Nat) : digitsValue (decimal n) = .ok n := by
  rw [digitsValue_of_digits (fun _ => Text.isDigit_of_mem_decimal) (Text.decimal_ne_nil n), decimal,
    Nat.ofDigitChars_ten_toDigits]

theorem uint64_decimal (n : UInt64) : uint64 (decimal n.toNat) = .ok n := by
  rw [uint64, takeSign_decimal]
  simp only [digitsValue_decimal, Bool.false_eq_true, ↓reduceIte]
  change (if n.toNat < 2 ^ 64 then _ else _) = _
  rw [if_pos n.toNat_lt, UInt64.ofNat_toNat]

theorem isDigit_or_sign_of_uint64 {s : Text} {n : UInt64} (hs : uint64 s = .ok n) :
    ∀ c ∈ s, c.isDigit = true ∨ c = '-' ∨ c = '+' := by
  have hdigits : ∀ c ∈ (takeSign s).2, c.isDigit = true := by
    intro c hc
    by_contra hdigit
    have herror : digitsValue (takeSign s).2 = .error .badLexicalCast := by
      refine if_neg ?_
      rintro ⟨-, hall⟩
      exact hdigit (List.all_eq_true.mp hall c hc)
    unfold uint64 at hs
    cases htake : takeSign s with
    | mk negative rest =>
        rw [htake] at hs herror
        dsimp only at hs herror
        rw [herror] at hs
        cases hs
  unfold takeSign at hdigits
  split at hdigits
  · exact List.forall_mem_cons.mpr ⟨.inr (.inl rfl), fun c hc => .inl (hdigits c hc)⟩
  · exact List.forall_mem_cons.mpr ⟨.inr (.inr rfl), fun c hc => .inl (hdigits c hc)⟩
  · exact fun c hc => .inl (hdigits c hc)

theorem takeSign_integer (v : Int) :
    takeSign (integer v) = (decide (v < 0), decimal v.natAbs) := by
  unfold integer
  split_ifs with hv
  · rw [decide_eq_true hv]
    rfl
  · rw [decide_eq_false hv, takeSign_decimal]

theorem signed_natAbs (v : Int) : signed (decide (v < 0)) v.natAbs = v := by
  unfold signed
  split_ifs with hv
  · have hneg : v < 0 := of_decide_eq_true hv
    omega
  · have hpos : ¬ v < 0 := fun h => hv (decide_eq_true h)
    omega

theorem int_integer (v : Int32) : int (integer v.toInt) = .ok v := by
  rw [int, takeSign_integer]
  simp only [digitsValue_decimal]
  change (if -2 ^ 31 ≤ signed _ _ ∧ signed _ _ < 2 ^ 31 then _ else _) = _
  rw [signed_natAbs, if_pos ⟨v.le_toInt, v.toInt_lt⟩, Int32.ofInt_toInt]

/-- A numeral without a sign. -/
theorem int_of_digits {s : Text} (hs : ∀ c ∈ s, c.isDigit = true) (hne : s ≠ [])
    (hlt : Nat.ofDigitChars 10 s 0 < 2147483648) :
    int s = .ok (Int32.ofInt (Nat.ofDigitChars 10 s 0)) := by
  have hsigned : signed false (Nat.ofDigitChars 10 s 0) = Nat.ofDigitChars 10 s 0 := rfl
  have hrange : -2 ^ 31 ≤ (Nat.ofDigitChars 10 s 0 : Int) ∧
      (Nat.ofDigitChars 10 s 0 : Int) < 2 ^ 31 := by omega
  rw [int, takeSign_of_digits hs]
  simp only [digitsValue_of_digits hs hne, bind, Except.bind, hsigned]
  rw [if_pos hrange]

/-- A number that is not negative keeps its value without a sign. -/
theorem toNat_toUInt64 {i : Int64} (hi : 0 ≤ i.toInt) : (i.toUInt64.toNat : Int) = i.toInt := by
  change 0 ≤ i.toBitVec.toInt at hi
  change (i.toBitVec.toNat : Int) = i.toBitVec.toInt
  rw [BitVec.toInt_eq_toNat_cond] at hi ⊢
  split_ifs at hi ⊢ <;> omega

theorem long_integer (v : Int64) : long (integer v.toInt) = .ok v := by
  rw [long, takeSign_integer]
  simp only [digitsValue_decimal]
  change (if -2 ^ 63 ≤ signed _ _ ∧ signed _ _ < 2 ^ 63 then _ else _) = _
  rw [signed_natAbs, if_pos ⟨v.le_toInt, v.toInt_lt⟩, Int64.ofInt_toInt]

end LexicalCast

end Atp

import Atp.DoubleValue

/-!
Ticker ids computed from a symbol: up to four letters in base 27 without a zero
digit, shifted by eleven bits, and in the low bits of an option's id the strike
on one side or the other of the middle.
-/

namespace Atp.TickerCode

open Double

def BASE : Int := 27

def SCALE : List Int := [1, BASE, BASE * BASE, BASE * BASE * BASE]

def OFFSET : Nat := 11

def MID : Int := 2 ^ (OFFSET - 1)

/-- The values of an `int`; there is no value beyond them. -/
def int (v : Int) : Option Int := if -2 ^ 31 ≤ v ∧ v < 2 ^ 31 then some v else none

/-- The value of a `char`, which is signed. -/
def charValue (c : Char) : Int := Int.bmod c.toNat 256

/-- `toupper`, which leaves all but small letters as they are. -/
def toupper (v : Int) : Int :=
  if 'a'.toNat ≤ v ∧ v ≤ 'z'.toNat then v - 'a'.toNat + 'A'.toNat else v

def letterValue (c : Char) : Int := toupper (charValue c) - 'A'.toNat + 1

/-- The loop, which reads `SCALE` only where it has an entry. -/
def addLetters (v : Int) : Text → Option Int
  | [] => some v
  | c :: s => do
      let scale ← SCALE[s.length]?
      let term ← int (letterValue c * scale)
      let v ← int (v + term)
      addLetters v s

/-- The length as an `int`. -/
def intLength (s : Text) : Int := Int.bmod s.length (2 ^ 32)

def symbolToTickerId (s : Text) : Option Int := do
  let v ← addLetters 0 (s.take (intLength s).toNat)
  int (v * 2 ^ OFFSET)

/-- The sum is computed in doubles, and its whole part returned. -/
def optionToTickerId (s : Text) (isCallOption : Bool) (strike : Double) : Option Int := do
  let tickId ← symbolToTickerId s
  if strike.isFinite then
    let sum ← nearest ((tickId + MID : Int) + (if isCallOption then 1 else -1) * strike.value)
    int (truncate sum.value)
  else none

def letters : List Int → Int → Text
  | [], _ => []
  | scale :: scales, m =>
      (if m.tdiv scale > 0 then [Char.ofNat (m.tdiv scale + 'A'.toNat - 1).toNat] else []) ++
        letters scales (m.tmod scale)

def symbolFromTickerId (code : Int) : Text := letters SCALE.reverse (code / 2 ^ OFFSET)

structure EncodedOption where
  symbol : Text
  callOption : Bool
  strike : Double
deriving DecidableEq

def encodedOptionFromTickerId (code : Int) : Option EncodedOption := do
  let optionMask := code / 2 ^ OFFSET * 2 ^ OFFSET
  let opt := code - code / 2 ^ OFFSET * 2 ^ OFFSET - MID
  let strike ← nearest (if opt > 0 then opt else -1 * opt : Int)
  some ⟨symbolFromTickerId optionMask, opt > 0, strike⟩

/-- The id is taken as an `unsigned int`. -/
def isTickerIdForOption (id : Int) : Bool := id % 2 ^ 32 % 2 ^ OFFSET ≠ 0

/-- One to four letters. -/
structure Symbol where
  text : Text
  isAlpha : ∀ c ∈ text, c.isAlpha = true
  length_pos : 0 < text.length
  length_le : text.length ≤ 4

/-- What the id of an option stands for: the expiry is not part of it. -/
structure OptionName where
  symbol : Symbol
  isCallOption : Bool
  strike : Double
  whole : Nat
  isFinite : strike.isFinite = true
  value_eq : strike.value = whole
  whole_pos : 0 < whole
  whole_lt : whole < 1024

def upper (s : Text) : Text := s.map Char.toUpper

/-! ### Letters as digits -/

def digit (c : Char) : Nat := c.toUpper.toNat - 64

theorem toUpper_bounds {c : Char} (hc : c.isAlpha = true) :
    65 ≤ c.toUpper.toNat ∧ c.toUpper.toNat ≤ 90 := by
  have hupper : c.toUpper.isUpper = true := by rw [Char.isUpper_toUpper_eq_isAlpha, hc]
  simp only [Char.isUpper, decide_eq_true_eq] at hupper
  exact hupper

theorem toNat_toUpper (c : Char) :
    c.toUpper.toNat = if 97 ≤ c.toNat ∧ c.toNat ≤ 122 then c.toNat - 32 else c.toNat := by
  have hsmall : ('a'.val ≤ c.val ∧ c.val ≤ 'z'.val) ↔ 97 ≤ c.toNat ∧ c.toNat ≤ 122 := Iff.rfl
  unfold Char.toUpper
  by_cases hc : 97 ≤ c.toNat ∧ c.toNat ≤ 122
  · rw [dif_pos (hsmall.mpr hc), if_pos hc]
    have hlow : c.toNat = c.val.toNat := rfl
    change (c.val + ('A'.val - 'a'.val)).toNat = c.toNat - 32
    have hshift : ('A'.val - 'a'.val).toNat = 4294967264 := by decide
    rw [UInt32.toNat_add, hshift]
    omega
  · rw [dif_neg fun h => hc (hsmall.mp h), if_neg hc]

theorem letterValue_eq {c : Char} (hc : c.isAlpha = true) : letterValue c = digit c := by
  obtain ⟨hlow, hhigh⟩ := toUpper_bounds hc
  have hupper := toNat_toUpper c
  have hA : 'A'.toNat = 65 := by decide
  have ha : 'a'.toNat = 97 := by decide
  have hz : 'z'.toNat = 122 := by decide
  have hascii : c.toNat < 128 := by
    split_ifs at hupper <;> omega
  have hchar : charValue c = c.toNat := Int.bmod_eq_of_le (by omega) (by omega)
  rw [letterValue, digit, hchar, toupper, hA, ha, hz]
  split_ifs at hupper ⊢ <;> omega

theorem digit_pos {c : Char} (hc : c.isAlpha = true) : 0 < digit c := by
  obtain ⟨hlow, -⟩ := toUpper_bounds hc
  unfold digit
  omega

theorem digit_lt {c : Char} (hc : c.isAlpha = true) : digit c < 27 := by
  obtain ⟨-, hhigh⟩ := toUpper_bounds hc
  unfold digit
  omega

theorem ofNat_digit {c : Char} (hc : c.isAlpha = true) :
    Char.ofNat (digit c + 64) = c.toUpper := by
  obtain ⟨hlow, -⟩ := toUpper_bounds hc
  rw [digit, Nat.sub_add_cancel (by omega), Char.ofNat_toNat]

/-- The first letter is the most significant one. -/
def symbolValue (s : Text) : Nat := Nat.ofDigits 27 (s.map digit).reverse

@[simp] theorem symbolValue_nil : symbolValue [] = 0 := by simp [symbolValue]

theorem symbolValue_cons (c : Char) (s : Text) :
    symbolValue (c :: s) = symbolValue s + 27 ^ s.length * digit c := by
  simp [symbolValue, Nat.ofDigits_append]

theorem symbolValue_lt {s : Text} (hs : ∀ c ∈ s, c.isAlpha = true) :
    symbolValue s < 27 ^ s.length := by
  have hdigits : ∀ d ∈ (s.map digit).reverse, d < 27 := by
    intro d hd
    obtain ⟨c, hc, rfl⟩ := List.mem_map.mp (List.mem_reverse.mp hd)
    exact digit_lt (hs c hc)
  have hlt := Nat.ofDigits_lt_base_pow_length (by decide : 1 < 27) hdigits
  simpa [symbolValue] using hlt

theorem scale_getElem {k : Nat} (hk : k < 4) : SCALE[k]? = some (27 ^ k) := by
  interval_cases k <;> rfl

theorem take_scale {k : Nat} (hk : k < 4) : SCALE.take (k + 1) = SCALE.take k ++ [27 ^ k] := by
  rw [List.take_add_one, scale_getElem hk, Option.toList_some]

theorem tdiv_scale (n k : Nat) : (n : Int).tdiv (27 ^ k) = (n / 27 ^ k : Nat) := by
  rw [← Nat.cast_ofNat, ← Nat.cast_pow]
  exact Int.ofNat_tdiv n (27 ^ k)

theorem tmod_scale (n k : Nat) : (n : Int).tmod (27 ^ k) = (n % 27 ^ k : Nat) := by
  rw [← Nat.cast_ofNat, ← Nat.cast_pow]
  exact Int.ofNat_tmod n (27 ^ k)

theorem letter_digit {c : Char} (hc : c.isAlpha = true) :
    Char.ofNat ((digit c : Int) + 'A'.toNat - 1).toNat = c.toUpper := by
  have hvalue : ((digit c : Int) + 'A'.toNat - 1).toNat = digit c + 64 := by
    have hA : 'A'.toNat = 65 := by decide
    omega
  rw [hvalue, ofNat_digit hc]

theorem letterValue_bounds (c : Char) : -192 ≤ letterValue c ∧ letterValue c < 64 := by
  have hlow : -128 ≤ charValue c := @Int.le_bmod c.toNat 256 (by decide)
  have hhigh : charValue c < 128 := @Int.bmod_lt c.toNat 256 (by decide)
  have hA : 'A'.toNat = 65 := by decide
  have ha : 'a'.toNat = 97 := by decide
  have hz : 'z'.toNat = 122 := by decide
  rw [letterValue, toupper, hA, ha, hz]
  split_ifs <;> omega

/-- The sum of the letters, each with its scale. -/
def weight : Text → Int
  | [] => 0
  | c :: s => letterValue c * 27 ^ s.length + weight s

theorem weight_eq {s : Text} (hs : ∀ c ∈ s, c.isAlpha = true) : weight s = symbolValue s := by
  induction s with
  | nil => rfl
  | cons c s ih =>
      obtain ⟨hc, hs⟩ := List.forall_mem_cons.mp hs
      rw [weight, ih hs, letterValue_eq hc, symbolValue_cons]
      push_cast
      ring

theorem int_eq {v : Int} (hlow : -2 ^ 31 ≤ v) (hhigh : v < 2 ^ 31) : int v = some v :=
  if_pos ⟨hlow, hhigh⟩

/-- Up to four characters of any kind are summed without an overflow. -/
theorem addLetters_eq {s : Text} (hlength : s.length ≤ 4) {v : Int}
    (hlow : -2 ^ 22 * (5 - s.length) ≤ v) (hhigh : v ≤ 2 ^ 22 * (5 - s.length)) :
    addLetters v s = some (v + weight s) := by
  induction s generalizing v with
  | nil => simp [addLetters, weight]
  | cons c s ih =>
      rw [List.length_cons] at hlength hlow hhigh
      push_cast at hlow hhigh
      have hscale : SCALE[s.length]? = some (27 ^ s.length) := scale_getElem (by omega)
      obtain ⟨hcLow, hcHigh⟩ := letterValue_bounds c
      obtain ⟨htermLow, htermHigh⟩ : -2 ^ 22 ≤ letterValue c * 27 ^ s.length ∧
          letterValue c * 27 ^ s.length ≤ 2 ^ 22 := by
        have hshort : s.length < 4 := by omega
        interval_cases s.length <;> omega
      rw [addLetters, hscale, Option.bind_eq_bind, Option.bind_some,
        int_eq (by omega) (by omega), Option.bind_some, int_eq (by omega) (by omega),
        Option.bind_some, ih (by omega) (by omega) (by omega), weight, add_assoc]

theorem addLetters_of_length_lt {s : Text} (hlength : 4 < s.length) (v : Int) :
    addLetters v s = none := by
  cases s with
  | nil => exact absurd hlength (by decide)
  | cons c s =>
      have hscale : SCALE[s.length]? = none := List.getElem?_eq_none (Nat.le_of_lt_succ hlength)
      rw [addLetters, hscale]
      rfl

/-- Taking the digits off again, the leading ones of a short symbol being zero. -/
theorem letters_symbolValue {s : Text} (hs : ∀ c ∈ s, c.isAlpha = true) {k : Nat}
    (hk : k ≤ 4) (hlength : s.length ≤ k) :
    letters (SCALE.take k).reverse (symbolValue s) = upper s := by
  induction k generalizing s with
  | zero =>
      obtain rfl : s = [] := List.eq_nil_of_length_eq_zero (by omega)
      rfl
  | succ k ih =>
      rw [take_scale (by omega), List.reverse_concat, letters]
      rcases Nat.lt_or_eq_of_le hlength with hshort | hfull
      · have hlt : symbolValue s < 27 ^ k :=
          (symbolValue_lt hs).trans_le (Nat.pow_le_pow_right (by decide) (by omega))
        rw [tdiv_scale, tmod_scale, Nat.div_eq_of_lt hlt, Nat.mod_eq_of_lt hlt, if_neg (by decide),
          List.nil_append]
        exact ih hs (by omega) (by omega)
      · rcases s with _ | ⟨c, s⟩
        · simp at hfull
        · obtain ⟨hc, hs⟩ := List.forall_mem_cons.mp hs
          obtain rfl : s.length = k := by simpa using hfull
          have hlt : symbolValue s < 27 ^ s.length := symbolValue_lt hs
          have hdiv : symbolValue (c :: s) / 27 ^ s.length = digit c := by
            rw [symbolValue_cons, Nat.add_mul_div_left _ _ (Nat.pow_pos (by decide)),
              Nat.div_eq_of_lt hlt, Nat.zero_add]
          have hmod : symbolValue (c :: s) % 27 ^ s.length = symbolValue s := by
            rw [symbolValue_cons, Nat.add_mul_mod_self_left, Nat.mod_eq_of_lt hlt]
          have hpos : (digit c : Int) > 0 := by exact_mod_cast digit_pos hc
          rw [tdiv_scale, tmod_scale, hdiv, hmod, if_pos hpos, ih hs (by omega) le_rfl,
            letter_digit hc]
          rfl

/-! ### Ids of symbols and of options -/

theorem symbolValue_text_lt (s : Symbol) : symbolValue s.text < 531441 := by
  have hpow : 27 ^ s.text.length ≤ 27 ^ 4 := Nat.pow_le_pow_right (by decide) s.length_le
  exact (symbolValue_lt s.isAlpha).trans_le hpow

theorem symbolToTickerId_eq (s : Symbol) :
    symbolToTickerId s.text = some (symbolValue s.text * (2 ^ OFFSET : Int)) := by
  have hlt := symbolValue_text_lt s
  have hlength := s.length_le
  have htake : s.text.take (intLength s.text).toNat = s.text := by
    have hint : intLength s.text = s.text.length := Int.bmod_eq_of_le (by omega) (by omega)
    rw [hint, Int.toNat_natCast, List.take_length]
  rw [symbolToTickerId, htake, addLetters_eq hlength (by omega) (by omega), zero_add,
    weight_eq s.isAlpha, Option.bind_eq_bind, Option.bind_some]
  apply int_eq
  · unfold OFFSET
    omega
  · unfold OFFSET
    omega

/-- The low eleven bits have no part in the symbol. -/
theorem symbolFromTickerId_eq (s : Symbol) {low : Int} (hlow : 0 ≤ low)
    (hhigh : low < 2 ^ OFFSET) :
    symbolFromTickerId (symbolValue s.text * 2 ^ OFFSET + low) = upper s.text := by
  have hdiv : (symbolValue s.text * 2 ^ OFFSET + low) / 2 ^ OFFSET =
      (symbolValue s.text : Int) := by
    unfold OFFSET at *
    omega
  rw [symbolFromTickerId, hdiv]
  exact letters_symbolValue s.isAlpha le_rfl s.length_le

namespace OptionName

variable (o : OptionName)

/-- The strike on the side of the option. -/
def offset : Int := if o.isCallOption then o.whole else -o.whole

theorem offset_bounds : -1024 < o.offset ∧ o.offset < 1024 ∧ o.offset ≠ 0 := by
  have hpos := o.whole_pos
  have hlt := o.whole_lt
  unfold offset
  split_ifs <;> omega

theorem isCallOption_iff : o.offset > 0 ↔ o.isCallOption = true := by
  have hpos := o.whole_pos
  unfold offset
  split_ifs with hcall
  · simp [hcall]
    omega
  · simp [hcall]

theorem natAbs_offset : (if o.offset > 0 then o.offset else -1 * o.offset) = (o.whole : Int) := by
  have hpos := o.whole_pos
  unfold offset
  split_ifs <;> omega

def id : Int := symbolValue o.symbol.text * 2 ^ OFFSET + (MID + o.offset)

theorem id_bounds : -2 ^ 31 ≤ o.id ∧ o.id < 2 ^ 31 := by
  have hvalue := symbolValue_text_lt o.symbol
  obtain ⟨hlow, hhigh, -⟩ := o.offset_bounds
  unfold id MID OFFSET
  omega

end OptionName

theorem optionToTickerId_eq (o : OptionName) :
    optionToTickerId o.symbol.text o.isCallOption o.strike = some o.id := by
  obtain ⟨hlow, hhigh⟩ := o.id_bounds
  have hexact : ((symbolValue o.symbol.text * (2 ^ OFFSET : Int) + MID : Int) : ℚ) +
      (if o.isCallOption then 1 else -1) * o.strike.value = (o.id : ℚ) := by
    rw [o.value_eq, OptionName.id, OptionName.offset]
    split_ifs
    · simp
      ring
    · simp
      ring
  obtain ⟨sum, hsum, hvalue⟩ := @exists_nearest_intCast o.id (by omega)
  rw [optionToTickerId, symbolToTickerId_eq, Option.bind_eq_bind, Option.bind_some,
    if_pos o.isFinite, Option.bind_eq_bind, hexact, hsum, Option.bind_some, hvalue,
    truncate_intCast]
  exact int_eq hlow hhigh

theorem encodedOptionFromTickerId_eq (o : OptionName) :
    ∃ strike, encodedOptionFromTickerId o.id =
        some ⟨upper o.symbol.text, o.isCallOption, strike⟩ ∧
      strike.value = o.strike.value := by
  obtain ⟨hlow, hhigh, -⟩ := o.offset_bounds
  have hdiv : o.id / 2 ^ OFFSET = symbolValue o.symbol.text := by
    unfold OptionName.id MID OFFSET
    omega
  have hopt : o.id - symbolValue o.symbol.text * 2 ^ OFFSET - MID = o.offset := by
    unfold OptionName.id
    ring
  have hlt := o.whole_lt
  obtain ⟨strike, hstrike, hvalue⟩ := @exists_nearest_intCast o.whole (by omega)
  refine ⟨strike, ?_, ?_⟩
  · unfold encodedOptionFromTickerId
    simp only [hdiv, hopt, o.natAbs_offset]
    rw [hstrike, Option.bind_eq_bind, Option.bind_some]
    have hsymbol := symbolFromTickerId_eq o.symbol le_rfl (by decide)
    rw [add_zero] at hsymbol
    have hside : decide (o.offset > 0) = o.isCallOption :=
      Bool.eq_iff_iff.mpr (by simpa using o.isCallOption_iff)
    rw [hsymbol, hside]
  · rw [hvalue, o.value_eq, Int.cast_natCast]

theorem isTickerIdForOption_iff (id : Int) :
    isTickerIdForOption id = true ↔ id % 2 ^ OFFSET ≠ 0 := by
  have hmod : id % 2 ^ 32 % 2 ^ OFFSET = id % 2 ^ OFFSET := by
    unfold OFFSET
    omega
  rw [isTickerIdForOption, hmod, decide_eq_true_iff]

theorem isTickerIdForOption_id (o : OptionName) : isTickerIdForOption o.id = true := by
  obtain ⟨hlow, hhigh, -⟩ := o.offset_bounds
  rw [isTickerIdForOption_iff]
  unfold OptionName.id MID OFFSET
  omega

theorem isTickerIdForOption_symbol (s : Symbol) :
    isTickerIdForOption (symbolValue s.text * 2 ^ OFFSET) = false := by
  rw [← Bool.not_eq_true, isTickerIdForOption_iff, not_not]
  exact Int.mul_emod_left _ _

/-- Symbols and options are read back from their ids, which are all different. -/
theorem ids_decode :
    (∀ s : Symbol, ∃ id, symbolToTickerId s.text = some id ∧
      symbolFromTickerId id = upper s.text ∧ isTickerIdForOption id = false) ∧
    (∀ o : OptionName, ∃ id strike,
      optionToTickerId o.symbol.text o.isCallOption o.strike = some id ∧
      -2 ^ 31 ≤ id ∧ id < 2 ^ 31 ∧
      encodedOptionFromTickerId id = some ⟨upper o.symbol.text, o.isCallOption, strike⟩ ∧
      strike.value = o.strike.value ∧ isTickerIdForOption id = true) ∧
    (∀ s t : Symbol, symbolToTickerId s.text = symbolToTickerId t.text →
      upper s.text = upper t.text) ∧
    (∀ o p : OptionName,
      optionToTickerId o.symbol.text o.isCallOption o.strike =
        optionToTickerId p.symbol.text p.isCallOption p.strike →
      upper o.symbol.text = upper p.symbol.text ∧ o.isCallOption = p.isCallOption ∧
        o.strike.value = p.strike.value) ∧
    (∀ (s : Symbol) (o : OptionName), symbolToTickerId s.text ≠
      optionToTickerId o.symbol.text o.isCallOption o.strike) := by
  refine ⟨?_, ?_, ?_, ?_, ?_⟩
  · intro s
    refine ⟨_, symbolToTickerId_eq s, ?_, isTickerIdForOption_symbol s⟩
    rw [← add_zero ((symbolValue s.text : Int) * 2 ^ OFFSET)]
    exact symbolFromTickerId_eq s le_rfl (by decide)
  · intro o
    obtain ⟨strike, hoption, hvalue⟩ := encodedOptionFromTickerId_eq o
    exact ⟨o.id, strike, optionToTickerId_eq o, o.id_bounds.1, o.id_bounds.2, hoption, hvalue,
      isTickerIdForOption_id o⟩
  · intro s t hid
    rw [symbolToTickerId_eq, symbolToTickerId_eq, Option.some.injEq] at hid
    have hs := symbolFromTickerId_eq s le_rfl (by decide)
    rw [hid, symbolFromTickerId_eq t le_rfl (by decide)] at hs
    exact hs.symm
  · intro o p hid
    rw [optionToTickerId_eq, optionToTickerId_eq, Option.some.injEq] at hid
    obtain ⟨strike, ho, hovalue⟩ := encodedOptionFromTickerId_eq o
    obtain ⟨strike', hp, hpvalue⟩ := encodedOptionFromTickerId_eq p
    rw [hid, hp, Option.some.injEq, EncodedOption.mk.injEq] at ho
    obtain ⟨hsymbol, hside, hstrike⟩ := ho
    refine ⟨hsymbol.symm, hside.symm, ?_⟩
    rw [← hovalue, ← hpvalue, hstrike]
  · intro s o hid
    rw [symbolToTickerId_eq, optionToTickerId_eq, Option.some.injEq] at hid
    have hplain := isTickerIdForOption_symbol s
    rw [hid, isTickerIdForOption_id] at hplain
    contradiction

end Atp.TickerCode

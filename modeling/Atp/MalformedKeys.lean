import Atp.ContractMarshall

/-!
Dates and contract keys that are malformed.  The casts of `parse_date` and
`parse_encoded_symbol` throw on some of them, and others are accepted.
-/

namespace Atp.MalformedKeys

open ContractSymbol ContractMarshall MarketRequests

def WellFormedDate (date : Text) : Prop :=
  date.length = 8 ∧ ∀ c ∈ date, c.isDigit = true

/-- The keys that contracts have whose symbols have no dot. -/
def WellFormedKey (key : Text) : Prop :=
  ∃ contract : Contract, '.' ∉ contract.symbol ∧ symbolFromContract contract = key

/-- The date is parsed without an exception, and accepted only if it is well formed. -/
def DateSafe (date : Text) : Prop :=
  ∃ result, parseDate date = .ok result ∧ (result ≠ none → WellFormedDate date)

def KeySafe (key : Text) : Prop :=
  ∀ out, ∃ accepted out', parseEncodedSymbol key out = .ok (accepted, out') ∧
    (accepted = true → WellFormedKey key)

def ContractSafe (c : IbContract) : Prop := ∃ p, toProto c = .ok p

/-- Digits with a sign or without. -/
def IsNumeral (s : Text) : Prop :=
  (LexicalCast.takeSign s).2 ≠ [] ∧ ∀ c ∈ (LexicalCast.takeSign s).2, c.isDigit = true

def IsDoubleText (s : Text) : Prop := ∃ x, LexicalCast.double s = .ok x

/-- Nothing follows the type of a stock or an index.  A key of five parts that is an
option has a strike where the date is, and no eight characters where the right is. -/
def KeyCondition (key : Text) : Prop :=
  ∀ symbol secType rest, key.splitOn '.' = symbol :: secType :: rest →
    (secType = "STK".toList ∨ secType = "IND".toList → rest = []) ∧
      (secType = "OPT".toList → ∀ part2 part3 part4, rest = [part2, part3, part4] →
        IsDoubleText part2 ∧ part4.length ≠ 8)

structure NumeralParts (expiry : Text) : Prop where
  year : IsNumeral (expiry.take 4)
  month : IsNumeral ((expiry.drop 4).take 2)
  day : IsNumeral ((expiry.drop 6).take 2)

/-! ### Dates -/

theorem length_takeSign_le (s : Text) : (LexicalCast.takeSign s).2.length ≤ s.length := by
  unfold LexicalCast.takeSign
  split
  · exact Nat.le_succ _
  · exact Nat.le_succ _
  · exact Nat.le_refl _

/-- A short numeral is in the range of `int`. -/
theorem exists_int_iff {s : Text} (hlength : s.length ≤ 4) :
    (∃ v, LexicalCast.int s = .ok v) ↔ IsNumeral s := by
  have hle := length_takeSign_le s
  rw [LexicalCast.int, IsNumeral]
  cases htake : LexicalCast.takeSign s with
  | mk negative digits =>
      rw [htake] at hle
      dsimp only at hle ⊢
      rw [LexicalCast.digitsValue]
      by_cases hdigits : digits ≠ [] ∧ digits.all Char.isDigit = true
      · have hall : ∀ c ∈ digits, c.isDigit = true := List.all_eq_true.mp hdigits.2
        have hlt := Text.ofDigitChars_lt hall
        have hpow : 10 ^ digits.length ≤ 10 ^ 4 :=
          Nat.pow_le_pow_right (by decide) (hle.trans hlength)
        have hrange : -2 ^ 31 ≤ LexicalCast.signed negative (Nat.ofDigitChars 10 digits 0) ∧
            LexicalCast.signed negative (Nat.ofDigitChars 10 digits 0) < 2 ^ 31 := by
          unfold LexicalCast.signed
          split_ifs
          · omega
          · omega
        refine iff_of_true ?_ ⟨hdigits.1, hall⟩
        rw [if_pos hdigits, ok_bind, if_pos hrange]
        exact ⟨_, rfl⟩
      · refine iff_of_false ?_ fun h => hdigits ⟨h.1, List.all_eq_true.mpr h.2⟩
        rintro ⟨v, hv⟩
        rw [if_neg hdigits] at hv
        cases hv

theorem isNumeral_of_digits {s : Text} (hne : s ≠ []) (hs : ∀ c ∈ s, c.isDigit = true) :
    IsNumeral s := by
  rw [IsNumeral, LexicalCast.takeSign_of_digits hs]
  exact ⟨hne, hs⟩

theorem numeralParts_of_wellFormedDate {date : Text} (hdate : WellFormedDate date) :
    NumeralParts date := by
  obtain ⟨hlength, hdigits⟩ := hdate
  refine ⟨isNumeral_of_digits ?_ ?_, isNumeral_of_digits ?_ ?_, isNumeral_of_digits ?_ ?_⟩
  · exact List.ne_nil_of_length_pos (by simp [hlength])
  · exact fun c hc => hdigits c (List.mem_of_mem_take hc)
  · exact List.ne_nil_of_length_pos (by simp [hlength])
  · exact fun c hc => hdigits c (List.mem_of_mem_drop (List.mem_of_mem_take hc))
  · exact List.ne_nil_of_length_pos (by simp [hlength])
  · exact fun c hc => hdigits c (List.mem_of_mem_drop (List.mem_of_mem_take hc))

theorem parseDate_of_length_ne {date : Text} (hlength : date.length ≠ 8) :
    parseDate date = .ok none := if_pos hlength

/-- On eight characters `parse_date` returns true or throws. -/
theorem parseDate_of_length {date : Text} (hlength : date.length = 8) {result : Option Date}
    (hparse : parseDate date = .ok result) : result ≠ none := by
  rw [parseDate, if_neg (not_not.mpr hlength)] at hparse
  obtain ⟨year, -, hparse⟩ := ok_of_bind hparse
  obtain ⟨month, -, hparse⟩ := ok_of_bind hparse
  obtain ⟨day, -, hparse⟩ := ok_of_bind hparse
  rw [← Except.ok.inj hparse]
  exact Option.some_ne_none _

theorem exists_parseDate_iff {date : Text} (hlength : date.length = 8) :
    (∃ result, parseDate date = .ok result) ↔ NumeralParts date := by
  have hyear := @exists_int_iff (date.take 4) (by simp)
  have hmonth := @exists_int_iff ((date.drop 4).take 2) (by simp)
  have hday := @exists_int_iff ((date.drop 6).take 2) (by simp)
  rw [parseDate, if_neg (not_not.mpr hlength)]
  constructor
  · rintro ⟨result, hparse⟩
    obtain ⟨year, h1, hparse⟩ := ok_of_bind hparse
    obtain ⟨month, h2, hparse⟩ := ok_of_bind hparse
    obtain ⟨day, h3, hparse⟩ := ok_of_bind hparse
    exact ⟨hyear.mp ⟨year, h1⟩, hmonth.mp ⟨month, h2⟩, hday.mp ⟨day, h3⟩⟩
  · intro hparts
    obtain ⟨year, h1⟩ := hyear.mpr hparts.year
    obtain ⟨month, h2⟩ := hmonth.mpr hparts.month
    obtain ⟨day, h3⟩ := hday.mpr hparts.day
    rw [h1, h2, h3]
    exact ⟨_, rfl⟩

theorem dateSafe_iff (date : Text) :
    DateSafe date ↔ (date.length = 8 → ∀ c ∈ date, c.isDigit = true) := by
  constructor
  · rintro ⟨result, hparse, hwellFormed⟩ hlength
    exact (hwellFormed (parseDate_of_length hlength hparse)).2
  · intro hdigits
    by_cases hlength : date.length = 8
    · have hdate : WellFormedDate date := ⟨hlength, hdigits hlength⟩
      obtain ⟨result, hparse⟩ :=
        (exists_parseDate_iff hlength).mpr (numeralParts_of_wellFormedDate hdate)
      exact ⟨result, hparse, fun _ => hdate⟩
    · exact ⟨none, parseDate_of_length_ne hlength, fun h => absurd rfl h⟩

theorem contractSafe_iff (c : IbContract) :
    ContractSafe c ↔ (c.expiry.length = 8 → NumeralParts c.expiry) := by
  have hsafe : ContractSafe c ↔ ∃ result, expiryOf c = .ok result := by
    rw [ContractSafe, toProto]
    cases expiryOf c with
    | error e => simp [Except.map]
    | ok result => simp [Except.map]
  rw [hsafe, expiryOf]
  by_cases hlength : c.expiry.length = 8
  · rw [if_pos hlength, exists_parseDate_iff hlength]
    exact ⟨fun h _ => h, fun h => h hlength⟩
  · rw [if_neg hlength]
    exact iff_of_true ⟨none, rfl⟩ fun h => absurd h hlength

/-! ### Keys -/

theorem splitOn_eq_pair {key symbol secType : Text}
    (hsplit : key.splitOn '.' = [symbol, secType]) :
    key = symbol ++ '.' :: secType ∧ '.' ∉ symbol := by
  by_cases hdot : '.' ∈ key
  · obtain ⟨before, after, rfl, hbefore⟩ := List.eq_append_cons_of_mem hdot
    rw [splitOn_dot hbefore, List.cons.injEq] at hsplit
    obtain ⟨rfl, hafter⟩ := hsplit
    have hjoin : ['.'].intercalate (after.splitOn '.') = after := List.intercalate_splitOn '.'
    rw [hafter] at hjoin
    refine ⟨?_, hbefore⟩
    rw [← hjoin]
    simp [List.intercalate]
  · rw [List.splitOn_eq_singleton hdot] at hsplit
    cases hsplit

/-- A key that is accepted has two parts. -/
theorem splitOn_of_wellFormedKey {key : Text} (hkey : WellFormedKey key) {out out' : Outputs}
    (hparse : parseEncodedSymbol key out = .ok (true, out')) :
    ∃ symbol secType, key.splitOn '.' = [symbol, secType] := by
  obtain ⟨contract, hdot, rfl⟩ := hkey
  rw [symbolFromContract] at hparse ⊢
  cases htype : contract.getType with
  | stock => exact ⟨_, _, splitOn_dot hdot "STK".toList⟩
  | index => exact ⟨_, _, splitOn_dot hdot "IND".toList⟩
  | option =>
      rw [htype] at hparse
      exact absurd hparse (parseEncodedSymbol_option hdot _ _ _ _ _ _ _)

theorem wellFormedKey_of_splitOn {key symbol secType : Text}
    (hsplit : key.splitOn '.' = [symbol, secType])
    (htype : secType = "STK".toList ∨ secType = "IND".toList) : WellFormedKey key := by
  obtain ⟨rfl, hdot⟩ := splitOn_eq_pair hsplit
  rcases htype with rfl | rfl
  · exact ⟨{ id := 0, symbol := symbol, type := some .stock }, hdot, rfl⟩
  · exact ⟨{ id := 0, symbol := symbol, type := some .index }, hdot, rfl⟩

section

variable {key symbol secType : Text} {rest : List Text}
  (hsplit : key.splitOn '.' = symbol :: secType :: rest)

include hsplit

theorem keyCondition_of_splitOn : KeyCondition key ↔
    (secType = "STK".toList ∨ secType = "IND".toList → rest = []) ∧
      (secType = "OPT".toList → ∀ part2 part3 part4, rest = [part2, part3, part4] →
        IsDoubleText part2 ∧ part4.length ≠ 8) := by
  constructor
  · intro hcondition
    exact hcondition symbol secType rest hsplit
  · rintro hcondition symbol' secType' rest' hsplit'
    rw [hsplit] at hsplit'
    simp only [List.cons.injEq] at hsplit'
    obtain ⟨rfl, rfl, rfl⟩ := hsplit'
    exact hcondition

/-- A key of a stock or an index is accepted, whatever follows. -/
theorem parse_of_stock_or_index (htype : secType = "STK".toList ∨ secType = "IND".toList)
    (out : Outputs) : ∃ out', parseEncodedSymbol key out = .ok (true, out') := by
  rw [parseEncodedSymbol, hsplit]
  dsimp only
  rcases htype with rfl | rfl
  · exact ⟨_, if_pos rfl⟩
  · rw [if_neg (by decide)]
    exact ⟨_, if_pos rfl⟩

theorem keySafe_iff_of_stock_or_index
    (htype : secType = "STK".toList ∨ secType = "IND".toList) :
    KeySafe key ↔ rest = [] := by
  constructor
  · intro hsafe
    obtain ⟨accepted, out', hparse, hwellFormed⟩ :=
      hsafe ⟨symbol, .stock, ⟨0⟩, .put, ⟨0, 0, 0⟩⟩
    obtain ⟨out'', htrue⟩ := parse_of_stock_or_index hsplit htype
      ⟨symbol, .stock, ⟨0⟩, .put, ⟨0, 0, 0⟩⟩
    rw [htrue, Except.ok.injEq, Prod.mk.injEq] at hparse
    obtain ⟨symbol', secType', hpair⟩ :=
      splitOn_of_wellFormedKey (hwellFormed hparse.1.symm) htrue
    rw [hsplit] at hpair
    simp only [List.cons.injEq] at hpair
    exact hpair.2.2
  · rintro rfl out
    obtain ⟨out', hparse⟩ := parse_of_stock_or_index hsplit htype out
    exact ⟨true, out', hparse, fun _ => wellFormedKey_of_splitOn hsplit htype⟩

theorem parse_of_other (hstock : secType ≠ "STK".toList) (hindex : secType ≠ "IND".toList)
    (hoption : secType = "OPT".toList → ∀ part2 part3 part4, rest ≠ [part2, part3, part4])
    (out : Outputs) : ∃ out', parseEncodedSymbol key out = .ok (false, out') := by
  rw [parseEncodedSymbol, hsplit]
  dsimp only
  rw [if_neg hstock, if_neg hindex]
  split
  · rename_i part2 part3 part4
    rw [if_neg fun h => hoption h part2 part3 part4 rfl]
    exact ⟨_, rfl⟩
  · exact ⟨_, rfl⟩

end

/-- An option key of five parts is rejected if it has no date at its end; and if it
has one, it is none of the keys of contracts. -/
theorem keySafe_iff_of_option {key symbol part2 part3 part4 : Text}
    (hsplit : key.splitOn '.' = [symbol, "OPT".toList, part2, part3, part4]) :
    KeySafe key ↔ IsDoubleText part2 ∧ part4.length ≠ 8 := by
  have hstock : "OPT".toList ≠ "STK".toList := by decide
  have hindex : "OPT".toList ≠ "IND".toList := by decide
  constructor
  · intro hsafe
    obtain ⟨accepted, out', hparse, hwellFormed⟩ :=
      hsafe ⟨symbol, .stock, ⟨0⟩, .put, ⟨0, 0, 0⟩⟩
    have htrue := hparse
    rw [parseEncodedSymbol, hsplit] at hparse
    dsimp only at hparse
    rw [if_neg hstock, if_neg hindex, if_pos rfl] at hparse
    obtain ⟨strike, hstrike, hparse⟩ := ok_of_bind hparse
    obtain ⟨expiry, hexpiry, hparse⟩ := ok_of_bind hparse
    refine ⟨⟨strike, hstrike⟩, fun hlength => ?_⟩
    cases expiry with
    | none => exact parseDate_of_length hlength hexpiry rfl
    | some expiry =>
        obtain ⟨rfl, -⟩ := Prod.mk.inj (Except.ok.inj hparse)
        obtain ⟨symbol', secType', hpair⟩ := splitOn_of_wellFormedKey (hwellFormed rfl) htrue
        rw [hsplit] at hpair
        cases hpair
  · rintro ⟨⟨strike, hstrike⟩, hlength⟩ out
    rw [parseEncodedSymbol, hsplit]
    dsimp only
    rw [if_neg hstock, if_neg hindex, if_pos rfl, hstrike, ok_bind, parseDate_of_length_ne hlength,
      ok_bind]
    exact ⟨false, _, rfl, fun h => absurd h Bool.false_ne_true⟩

theorem keySafe_of_short {key : Text}
    (hshort : ∀ symbol secType rest, key.splitOn '.' ≠ symbol :: secType :: rest) :
    KeySafe key := by
  intro out
  refine ⟨false, out, ?_, fun h => absurd h Bool.false_ne_true⟩
  unfold parseEncodedSymbol
  split
  · rename_i symbol secType rest hsplit
    exact absurd hsplit (hshort symbol secType rest)
  · rfl

theorem keySafe_iff (key : Text) : KeySafe key ↔ KeyCondition key := by
  by_cases hlong : ∃ symbol secType rest, key.splitOn '.' = symbol :: secType :: rest
  · obtain ⟨symbol, secType, rest, hsplit⟩ := hlong
    rw [keyCondition_of_splitOn hsplit]
    by_cases htype : secType = "STK".toList ∨ secType = "IND".toList
    · rw [keySafe_iff_of_stock_or_index hsplit htype, and_iff_left, forall_prop_of_true htype]
      rintro rfl
      exact absurd htype (by decide)
    · rw [and_iff_right fun h => absurd h htype]
      rw [not_or] at htype
      by_cases hoption : secType = "OPT".toList ∧
          ∃ part2 part3 part4, rest = [part2, part3, part4]
      · obtain ⟨rfl, part2, part3, part4, rfl⟩ := hoption
        rw [keySafe_iff_of_option hsplit, forall_prop_of_true rfl]
        constructor
        · rintro hparts _ _ _ heq
          simp only [List.cons.injEq, and_true] at heq
          obtain ⟨rfl, -, rfl⟩ := heq
          exact hparts
        · intro hparts
          exact hparts part2 part3 part4 rfl
      · have hother : secType = "OPT".toList →
            ∀ part2 part3 part4, rest ≠ [part2, part3, part4] :=
          fun h part2 part3 part4 hrest => hoption ⟨h, part2, part3, part4, hrest⟩
        refine iff_of_true (fun out => ?_) fun h part2 part3 part4 hrest =>
          absurd hrest (hother h part2 part3 part4)
        obtain ⟨out', hparse⟩ := parse_of_other hsplit htype.1 htype.2 hother out
        exact ⟨false, out', hparse, fun h => absurd h Bool.false_ne_true⟩
  · have hshort : ∀ symbol secType rest, key.splitOn '.' ≠ symbol :: secType :: rest :=
      fun symbol secType rest hsplit => hlong ⟨symbol, secType, rest, hsplit⟩
    refine iff_of_true (keySafe_of_short hshort) fun symbol secType rest hsplit => ?_
    exact absurd hsplit (hshort symbol secType rest)

/-- A date is refused without an exception unless it has eight characters that are no
digits, a key unless it is one of the condition, and a contract becomes a message
unless its expiry has eight characters whose parts are no numbers. -/
theorem safe_iff (date key : Text) (c : IbContract) :
    (DateSafe date ↔ (date.length = 8 → ∀ c ∈ date, c.isDigit = true)) ∧
      (KeySafe key ↔ KeyCondition key) ∧
      (ContractSafe c ↔ (c.expiry.length = 8 → NumeralParts c.expiry)) :=
  ⟨dateSafe_iff date, keySafe_iff key, contractSafe_iff c⟩

/-- A strike that is no number throws, and so does an expiry of eight letters. -/
theorem not_all_safe :
    (¬ ∀ date, DateSafe date) ∧ (¬ ∀ key, KeySafe key) ∧ ¬ ∀ c, ContractSafe c := by
  refine ⟨?_, ?_, ?_⟩
  · intro hall
    obtain ⟨result, hparse, -⟩ := hall "DECEMBER".toList
    cases hparse
  · intro hall
    obtain ⟨accepted, out', hparse, -⟩ := hall "AAPL.OPT.x.1.C".toList
      ⟨[], .stock, ⟨0⟩, .put, ⟨0, 0, 0⟩⟩
    have hthrows : parseEncodedSymbol "AAPL.OPT.x.1.C".toList
        ⟨[], .stock, ⟨0⟩, .put, ⟨0, 0, 0⟩⟩ = .error .badLexicalCast := by
      decide +kernel
    rw [hthrows] at hparse
    cases hparse
  · intro hall
    obtain ⟨p, hp⟩ := hall { ibCallOption with expiry := "DECEMBER".toList }
    cases hp

end Atp.MalformedKeys

import Atp.ContractMarshall

/-!
Messages of option contracts turned into contracts of the API and back: which
dates come back, and which messages come back with every field that they had.
-/

namespace Atp.OptionFields

open ContractSymbol MarketRequests ContractMarshall

/-- The dates that fill the eight characters of an expiry: a year of four, a month
and a day of two. -/
structure Fits (date : Date) : Prop where
  year : 1000 ≤ date.year.toInt ∧ date.year.toInt ≤ 9999 ∨
    -999 ≤ date.year.toInt ∧ date.year.toInt ≤ -100
  month : 0 ≤ date.month.toInt ∧ date.month.toInt ≤ 99
  day : 0 ≤ date.day.toInt ∧ date.day.toInt ≤ 99

/-- The fields that are set in the message have their values in the contract. -/
structure Carried (p : Contract) (c : IbContract) : Prop where
  right : ∀ right, p.right = some right → c.right = rightText right
  strike : ∀ strike, p.strike = some strike → c.strike = strike.amount
  expiry : ∀ date, p.expiry = some date →
    c.expiry = formatExpiry date.year date.month date.day
  currency : ∀ strike, p.strike = some strike → strike.currency = some .usd →
    c.currency = "USD".toList
  exchange : ∀ exchange, p.exchange = some exchange → c.exchange = exchange
  localSymbol : ∀ localSymbol, p.localSymbol = some localSymbol →
    c.localSymbol = localSymbol
  multiplier : ∀ multiplier, p.multiplier = some multiplier →
    c.multiplier = integer multiplier.toInt

/-- The fields that are set in `p` are set in `p'` and have the same values. -/
structure SameValues (p' p : Contract) : Prop where
  right : ∀ right, p.right = some right → p'.right = some right
  strike : ∀ strike, p.strike = some strike →
    ∃ strike', p'.strike = some strike' ∧ strike'.amount = strike.amount ∧
      (strike.currency = some .usd → strike'.currency = some .usd)
  expiry : ∀ date, p.expiry = some date → p'.expiry = some date
  exchange : ∀ exchange, p.exchange = some exchange → p'.exchange = some exchange
  localSymbol : ∀ localSymbol, p.localSymbol = some localSymbol →
    p'.localSymbol = some localSymbol
  multiplier : ∀ multiplier, p.multiplier = some multiplier →
    p'.multiplier = some multiplier

/-- Nothing that is set in `p` is lost in `c`, nor on the way back. -/
def Lossless (p : Contract) (c : IbContract) : Prop :=
  Carried p c ∧ ∃ p', toProto c = .ok p' ∧ SameValues p' p

/-! ### Dates written and read -/

theorem length_integer_pos (v : Int) : 0 < (integer v).length := by
  apply List.length_pos_iff.mpr
  unfold integer
  split_ifs
  · exact List.cons_ne_nil _ _
  · exact Text.decimal_ne_nil _

/-- The numbers that take four characters. -/
theorem length_integer_eq_four_iff (v : Int) :
    (integer v).length = 4 ↔ 1000 ≤ v ∧ v ≤ 9999 ∨ -999 ≤ v ∧ v ≤ -100 := by
  have hfour := @Text.length_decimal_le_iff v.natAbs 4 (by decide)
  have hthree := @Text.length_decimal_le_iff v.natAbs 3 (by decide)
  have htwo := @Text.length_decimal_le_iff v.natAbs 2 (by decide)
  unfold integer
  split_ifs with hv
  · rw [List.length_cons]
    omega
  · omega

theorem length_formatWidth (width : Nat) (i : Int32) :
    (formatWidth width i).length = max width (integer i.toInt).length := by
  rw [formatWidth, List.length_append, List.length_replicate]
  omega

/-- A padded number is not a number to `lexical_cast`. -/
theorem int_formatWidth_iff {width : Nat} {i j : Int32} :
    LexicalCast.int (formatWidth width i) = .ok j ↔
      width ≤ (integer i.toInt).length ∧ j = i := by
  rcases Nat.lt_or_ge (integer i.toInt).length width with hpad | hfull
  · obtain ⟨k, hk⟩ := Nat.exists_eq_add_of_lt hpad
    have hspaces : width - (integer i.toInt).length = k + 1 := by omega
    have hblank : LexicalCast.int (formatWidth width i) = .error .badLexicalCast := by
      rw [formatWidth, hspaces, List.replicate_succ, List.cons_append]
      rfl
    rw [hblank]
    constructor
    · intro h
      cases h
    · rintro ⟨hfits, -⟩
      exact absurd hfits (Nat.not_le.mpr hpad)
  · have hspaces : width - (integer i.toInt).length = 0 := by omega
    rw [formatWidth, hspaces, List.replicate_zero, List.nil_append, LexicalCast.int_integer,
      Except.ok.injEq, and_iff_right hfull]
    exact eq_comm

/-- A month or a day, as `formatExpiry` writes it. -/
def twoDigitText (i : Int32) : Text :=
  if i > 9 then formatWidth 2 i else '0' :: formatWidth 1 i

theorem formatExpiry_eq (year month day : Int32) :
    formatExpiry year month day =
      formatWidth 4 year ++ twoDigitText month ++ twoDigitText day := rfl

theorem gt_nine_iff (i : Int32) : i > 9 ↔ 9 < i.toInt := by
  rw [gt_iff_lt, Int32.lt_iff_toInt_lt]
  rfl

theorem two_le_length_twoDigitText (i : Int32) : 2 ≤ (twoDigitText i).length := by
  unfold twoDigitText
  split_ifs
  · rw [length_formatWidth]
    omega
  · rw [List.length_cons, length_formatWidth]
    omega

theorem length_twoDigitText_iff (i : Int32) :
    (twoDigitText i).length = 2 ↔ 0 ≤ i.toInt ∧ i.toInt ≤ 99 := by
  have hpos := length_integer_pos i.toInt
  have htwo := @Text.length_decimal_le_iff i.toInt.natAbs 2 (by decide)
  have hone := @Text.length_decimal_le_iff i.toInt.natAbs 1 (by decide)
  have hdecimal := List.length_pos_iff.mpr (Text.decimal_ne_nil i.toInt.natAbs)
  unfold twoDigitText
  split_ifs with hnine
  · rw [gt_nine_iff] at hnine
    rw [length_formatWidth, integer, if_neg (by omega)]
    omega
  · rw [gt_nine_iff] at hnine
    rw [List.length_cons, length_formatWidth]
    unfold integer at hpos ⊢
    split_ifs at hpos ⊢ with hneg
    · rw [List.length_cons]
      omega
    · omega

theorem int_twoDigitText {i : Int32} (hi : 0 ≤ i.toInt ∧ i.toInt ≤ 99) :
    LexicalCast.int (twoDigitText i) = .ok i := by
  have hlength := (length_twoDigitText_iff i).mpr hi
  unfold twoDigitText at hlength ⊢
  split_ifs at hlength ⊢ with hnine
  · rw [gt_nine_iff] at hnine
    apply int_formatWidth_iff.mpr
    refine ⟨?_, rfl⟩
    rw [integer, if_neg (by omega)]
    exact Text.one_lt_length_decimal (by omega)
  · have hnonneg : ¬ i.toInt < 0 := by omega
    have hone : formatWidth 1 i = decimal i.toInt.natAbs := by
      rw [formatWidth, Nat.sub_eq_zero_of_le (length_integer_pos _), List.replicate_zero,
        List.nil_append, integer, if_neg hnonneg]
    have hdigits : ∀ c ∈ '0' :: decimal i.toInt.natAbs, c.isDigit = true :=
      List.forall_mem_cons.mpr ⟨rfl, fun _ => Text.isDigit_of_mem_decimal⟩
    have hvalue : Nat.ofDigitChars 10 ('0' :: decimal i.toInt.natAbs) 0 = i.toInt.natAbs :=
      Nat.ofDigitChars_ten_toDigits
    have hlt : Nat.ofDigitChars 10 ('0' :: decimal i.toInt.natAbs) 0 < 2147483648 := by
      rw [hvalue]
      omega
    rw [hone, LexicalCast.int_of_digits hdigits (List.cons_ne_nil _ _) hlt, hvalue,
      Int.natAbs_of_nonneg hi.1, Int32.ofInt_toInt]

theorem take_append_append {a b c : Text} (ha : a.length = 4) (hb : b.length = 2)
    (hc : c.length = 2) :
    (a ++ b ++ c).take 4 = a ∧ ((a ++ b ++ c).drop 4).take 2 = b ∧
      ((a ++ b ++ c).drop 6).take 2 = c := by
  have hab : (a ++ b).length = 6 := by rw [List.length_append, ha, hb]
  refine ⟨?_, ?_, ?_⟩
  · rw [List.append_assoc, List.take_left' ha]
  · rw [List.append_assoc, List.drop_left' ha, List.take_left' hb]
  · rw [List.drop_left' hab, List.take_of_length_le hc.le]

/-- A formatted date is read as that date if it fits, and is not read otherwise. -/
theorem parseDate_formatExpiry_iff {date date' : Date} :
    parseDate (formatExpiry date.year date.month date.day) = .ok (some date') ↔
      Fits date ∧ date' = date := by
  rw [formatExpiry_eq]
  have hyear := length_formatWidth 4 date.year
  have hmonth := two_le_length_twoDigitText date.month
  have hday := two_le_length_twoDigitText date.day
  constructor
  · intro hparse
    unfold parseDate at hparse
    split_ifs at hparse with hlength
    · cases hparse
    rw [not_not, List.length_append, List.length_append] at hlength
    have hyearLength : (formatWidth 4 date.year).length = 4 := by omega
    have hmonthLength : (twoDigitText date.month).length = 2 := by omega
    have hdayLength : (twoDigitText date.day).length = 2 := by omega
    have hmonthRange := (length_twoDigitText_iff _).mp hmonthLength
    have hdayRange := (length_twoDigitText_iff _).mp hdayLength
    obtain ⟨htakeYear, htakeMonth, htakeDay⟩ :=
      take_append_append hyearLength hmonthLength hdayLength
    rw [htakeYear, htakeMonth, htakeDay, int_twoDigitText hmonthRange,
      int_twoDigitText hdayRange] at hparse
    obtain ⟨year, hyearParse, hdate⟩ := ok_of_bind hparse
    obtain ⟨hwidth, rfl⟩ := int_formatWidth_iff.mp hyearParse
    have hfour : (integer date.year.toInt).length = 4 := by omega
    refine ⟨⟨(length_integer_eq_four_iff _).mp hfour, hmonthRange, hdayRange⟩, ?_⟩
    exact (Option.some.inj (Except.ok.inj hdate)).symm
  · rintro ⟨hfits, rfl⟩
    have hfour := (length_integer_eq_four_iff _).mpr hfits.year
    have hyearLength : (formatWidth 4 date'.year).length = 4 := by omega
    have hmonthLength := (length_twoDigitText_iff _).mpr hfits.month
    have hdayLength := (length_twoDigitText_iff _).mpr hfits.day
    obtain ⟨htakeYear, htakeMonth, htakeDay⟩ :=
      take_append_append hyearLength hmonthLength hdayLength
    have hyearParse := int_formatWidth_iff.mpr ⟨hfour.ge, @rfl _ date'.year⟩
    rw [parseDate, if_neg, htakeYear, htakeMonth, htakeDay, hyearParse,
      int_twoDigitText hfits.month, int_twoDigitText hfits.day]
    · rfl
    · rw [not_not, List.length_append, List.length_append]
      omega

theorem expiryOf_eq (c : IbContract) : expiryOf c = parseDate c.expiry := by
  unfold expiryOf
  split_ifs with hlength
  · rfl
  · exact (if_pos hlength).symm

/-! ### Messages of options -/

theorem toProto_eq (c : IbContract) : toProto c = (parseDate c.expiry).map (protoOf c) := by
  rw [toProto, expiryOf_eq]

theorem toProto_eq_ok_iff {c : IbContract} {p : Contract} :
    toProto c = .ok p ↔ ∃ expiry, parseDate c.expiry = .ok expiry ∧ protoOf c expiry = p := by
  rw [toProto_eq]
  cases parseDate c.expiry with
  | error e => simp [Except.map]
  | ok expiry => simp [Except.map]

theorem carried_contractOf {p : Contract} (secType : Text) (hmultiplier : p.multiplier = none) :
    Carried p (contractOf p secType) where
  right right hright := by
    change (p.right.map rightText).getD [] = _
    rw [hright]
    rfl
  strike strike hstrike := by
    change (p.strike.map Money.amount).getD _ = _
    rw [hstrike]
    rfl
  expiry date hdate := by
    change (p.expiry.map _).getD [] = _
    rw [hdate]
    rfl
  currency strike hstrike hcurrency := by
    change (p.strike.map currencyText).getD [] = _
    rw [hstrike, Option.map_some, Option.getD_some, currencyText, hcurrency]
    rfl
  exchange exchange hexchange := by
    change p.getExchange = _
    rw [Contract.getExchange, hexchange]
    rfl
  localSymbol localSymbol hlocal := by
    change p.localSymbol.getD [] = _
    rw [hlocal]
    rfl
  multiplier multiplier hset := by
    rw [hmultiplier] at hset
    cases hset

theorem right_protoOf {p : Contract} {secType : Text} {expiry : Option Date} :
    (protoOf (contractOf p secType) expiry).right = p.right := by
  change (if (p.right.map rightText).getD [] = ['P'] then some Right.put
    else if (p.right.map rightText).getD [] = ['C'] then some .call else none) = p.right
  cases p.right with
  | none => rfl
  | some right => cases right <;> rfl

theorem exchange_protoOf_iff {p : Contract} {secType : Text} {expiry : Option Date} :
    (∀ exchange, p.exchange = some exchange →
        (protoOf (contractOf p secType) expiry).exchange = some exchange) ↔
      p.exchange ≠ some [] := by
  change (∀ exchange, p.exchange = some exchange →
    (if 0 < p.getExchange.length then some p.getExchange else none) = some exchange) ↔ _
  rw [Contract.getExchange]
  cases p.exchange with
  | none => exact iff_of_true nofun nofun
  | some exchange =>
      cases exchange with
      | nil => exact iff_of_false (fun h => absurd (h [] rfl) nofun) (not_not.mpr rfl)
      | cons c exchange =>
          refine iff_of_true ?_ (by simp)
          rintro _ ⟨⟩
          exact if_pos (Nat.succ_pos _)

/-- An option that is converted comes back with every field that it had if and only
if it has no multiplier, an exchange, if any, that is not empty, and an expiry that
fits. -/
theorem lossless_iff (p : Contract) (c : IbContract) (hid : p.id ≠ 0)
    (htype : p.getType = .option) (hc : marshall p = some c) :
    Lossless p c ↔
      p.multiplier = none ∧ p.exchange ≠ some [] ∧ ∀ date, p.expiry = some date → Fits date := by
  obtain ⟨secType, hsecType, rfl⟩ := Option.map_eq_some_iff.mp hc
  obtain ⟨-, -, -, hexpirySet⟩ := secTypeOf_option hid htype hsecType
  obtain ⟨date, hdate⟩ := Option.isSome_iff_exists.mp hexpirySet
  change Lossless p (contractOf p secType) ↔ _
  have hexpiry : (contractOf p secType).expiry = formatExpiry date.year date.month date.day := by
    change (p.expiry.map _).getD [] = _
    rw [hdate]
    rfl
  constructor
  · rintro ⟨hcarried, p', hp', hsame⟩
    obtain ⟨expiry, hparse, rfl⟩ := toProto_eq_ok_iff.mp hp'
    refine ⟨?_, exchange_protoOf_iff.mp hsame.exchange, ?_⟩
    · apply Option.eq_none_iff_forall_ne_some.mpr
      intro multiplier hmultiplier
      cases hsame.multiplier multiplier hmultiplier
    · intro date' hdate'
      obtain rfl := Option.some.inj (hdate.symm.trans hdate')
      obtain rfl : expiry = some date := hsame.expiry date hdate
      rw [hexpiry] at hparse
      exact (parseDate_formatExpiry_iff.mp hparse).1
  · rintro ⟨hmultiplier, hexchange, hfits⟩
    have hparse := parseDate_formatExpiry_iff.mpr ⟨hfits date hdate, rfl⟩
    rw [← hexpiry] at hparse
    refine ⟨carried_contractOf secType hmultiplier, _,
      toProto_eq_ok_iff.mpr ⟨_, hparse, rfl⟩, ?_⟩
    exact {
      right := fun right hright => right_protoOf.trans hright
      strike := fun strike hstrike => by
        refine ⟨_, rfl, ?_, ?_⟩
        · exact (carried_contractOf secType hmultiplier).strike strike hstrike
        · intro hcurrency
          exact if_pos ((carried_contractOf secType hmultiplier).currency strike hstrike hcurrency)
      expiry := fun date' hdate' => hdate.symm.trans hdate'
      exchange := exchange_protoOf_iff.mpr hexchange
      localSymbol := fun localSymbol hlocal => by
        change some (p.localSymbol.getD []) = _
        rw [hlocal]
        rfl
      multiplier := fun multiplier hset => by
        rw [hmultiplier] at hset
        cases hset }

theorem lossless_iff_callOption :
    ∃ c, marshall ContractMarshall.callOption = some c ∧
      (Lossless ContractMarshall.callOption c ↔
        ContractMarshall.callOption.multiplier = none ∧
          ContractMarshall.callOption.exchange ≠ some [] ∧
            ∀ date, ContractMarshall.callOption.expiry = some date → Fits date) :=
  ⟨_, rfl, lossless_iff ContractMarshall.callOption _ (by decide) rfl rfl⟩

/-- The multiplier is asked for, and is not copied. -/
theorem not_lossless_multiplier :
    ∃ c, marshall { ContractMarshall.callOption with multiplier := some 100 } = some c ∧
      ¬ Lossless { ContractMarshall.callOption with multiplier := some 100 } c := by
  refine ⟨_, rfl, ?_⟩
  rintro ⟨hcarried, -⟩
  cases hcarried.multiplier 100 rfl

end Atp.OptionFields

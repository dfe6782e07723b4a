import Atp.DoubleText
import Atp.MarketRequests

/-!
Contracts of the API turned into messages and back.  A contract keeps the fields
that a message has room for, and the key made of it is the key made of the
message.
-/

namespace Atp.ContractMarshall

open ContractSymbol MarketRequests

def expiryOf (c : IbContract) : Except BadLexicalCast (Option Date) :=
  if c.expiry.length = 8 then parseDate c.expiry else .ok none

/-- The message of a contract whose expiry was read. -/
def protoOf (c : IbContract) (expiry : Option Date) : Contract where
  id := c.conId.toUInt64
  symbol := c.symbol
  type :=
    if c.secType = "IND".toList then some .index
    else if c.secType = "STK".toList then some .stock
    else if c.secType = "OPT".toList then some .option
    else none
  exchange := if 0 < c.exchange.length then some c.exchange else none
  localSymbol := some c.localSymbol
  right :=
    if c.right = ['P'] then some .put
    else if c.right = ['C'] then some .call
    else none
  strike := some {
    amount := c.strike
    currency := if c.currency = "USD".toList then some .usd else none }
  expiry := expiry

/-- `operator<<` on a message, which it clears first. -/
def toProto (c : IbContract) : Except BadLexicalCast Contract := (expiryOf c).map (protoOf c)

def IsDate (expiry : Text) : Prop :=
  expiry.length = 8 ∧ (∀ c ∈ expiry, c.isDigit = true) ∧
    1000 ≤ Nat.ofDigitChars 10 (expiry.take 4) 0

/-- The contracts that come back from a message as they were. -/
structure Convertible (c : IbContract) : Prop where
  exchange : c.exchange ≠ []
  currency : c.currency = "USD".toList
  secType :
    (c.secType = "STK".toList ∨ c.secType = "IND".toList) ∧ c.right = [] ∧ c.expiry = [] ∨
      c.secType = "OPT".toList ∧ (c.right = ['P'] ∨ c.right = ['C']) ∧ IsDate c.expiry

/-- The fields that a message has room for. -/
structure SameFields (c' c : IbContract) : Prop where
  conId : c'.conId = c.conId
  symbol : c'.symbol = c.symbol
  secType : c'.secType = c.secType
  right : c'.right = c.right
  strike : c'.strike = c.strike
  expiry : c'.expiry = c.expiry
  exchange : c'.exchange = c.exchange
  currency : c'.currency = c.currency
  localSymbol : c'.localSymbol = c.localSymbol

/-! ### The keys -/

theorem secTypeOf_option {p : Contract} (hid : p.id ≠ 0) (htype : p.getType = .option)
    {secType : Text} (hsecType : secTypeOf p = some secType) :
    secType = "OPT".toList ∧ p.right.isSome ∧ p.strike.isSome ∧ p.expiry.isSome := by
  unfold secTypeOf at hsecType
  rw [htype] at hsecType
  dsimp only at hsecType
  rw [if_neg hid] at hsecType
  split_ifs at hsecType with hmissing
  simp only [Bool.or_eq_true, Bool.not_eq_true', not_or, Bool.not_eq_false] at hmissing
  exact ⟨(Option.some.inj hsecType).symm, hmissing.1.1.1, hmissing.1.1.2, hmissing.1.2⟩

/-- The key of a converted message is the key of the message. -/
theorem symbolFromContract_marshall {p : Contract} {c : IbContract} (hid : p.id ≠ 0)
    (hc : marshall p = some c) :
    TickerMap.symbolFromContract c = symbolFromContract p := by
  obtain ⟨secType, hsecType, rfl⟩ := Option.map_eq_some_iff.mp hc
  have hplain : "STK".toList ≠ "OPT".toList ∧ "IND".toList ≠ "OPT".toList := by decide
  unfold TickerMap.symbolFromContract symbolFromContract contractOf
  cases htype : p.getType with
  | stock =>
      rw [secTypeOf, htype] at hsecType
      obtain rfl := Option.some.inj hsecType
      rw [if_neg hplain.1, List.append_nil]
      rfl
  | index =>
      rw [secTypeOf, htype] at hsecType
      obtain rfl := Option.some.inj hsecType
      rw [if_neg hplain.2, List.append_nil]
      rfl
  | option =>
      obtain ⟨rfl, hright, hstrike, hexpiry⟩ := secTypeOf_option hid htype hsecType
      obtain ⟨right, hright⟩ := Option.isSome_iff_exists.mp hright
      obtain ⟨strike, hstrike⟩ := Option.isSome_iff_exists.mp hstrike
      obtain ⟨expiry, hexpiry⟩ := Option.isSome_iff_exists.mp hexpiry
      have hdot : ".OPT".toList = '.' :: "OPT".toList := by decide
      simp only [Contract.getStrike, Contract.getRight, Contract.getExpiry, hright, hstrike,
        hexpiry, Option.map_some, Option.getD_some, if_true]
      rw [formatOptionContractKey, hdot]
      simp only [List.append_assoc, List.cons_append]

/-- An option on a stock. -/
def callOption : Contract where
  id := 96099040
  symbol := "GOOG".toList
  type := some .option
  right := some .call
  strike := some { amount := ⟨0x4082700000000000⟩, currency := some .usd }
  expiry := some ⟨2011, 10, 28⟩

theorem symbolFromContract_callOption :
    ∃ c, marshall callOption = some c ∧
      TickerMap.symbolFromContract c = symbolFromContract callOption :=
  ⟨_, rfl, symbolFromContract_marshall (by decide) rfl⟩

/-! ### Dates -/

theorem int_of_digits {s : Text} (hs : ∀ c ∈ s, c.isDigit = true) (hne : s ≠ [])
    (hlength : s.length ≤ 4) :
    LexicalCast.int s = .ok (Int32.ofInt (Nat.ofDigitChars 10 s 0)) := by
  have hlt : Nat.ofDigitChars 10 s 0 < 10 ^ 4 :=
    (Text.ofDigitChars_lt hs).trans_le (Nat.pow_le_pow_right (by decide) hlength)
  exact LexicalCast.int_of_digits hs hne (by omega)

theorem integer_ofInt {n : Nat} (hn : n < 2 ^ 31) :
    integer (Int32.ofInt n).toInt = decimal n := by
  have hhigh : (n : Int) < 2 ^ 31 := by omega
  rw [Int32.toInt_ofInt_of_le (by omega) hhigh, integer, if_neg (by omega), Int.natAbs_natCast]

theorem formatWidth_ofInt {width n : Nat} (hn : n < 2 ^ 31)
    (hwidth : width ≤ (decimal n).length) : formatWidth width (Int32.ofInt n) = decimal n := by
  rw [formatWidth, integer_ofInt hn, Nat.sub_eq_zero_of_le hwidth]
  rfl

theorem gt_ofInt_iff {n : Nat} (hn : n < 2 ^ 31) : Int32.ofInt n > 9 ↔ 9 < n := by
  have hhigh : (n : Int) < 2 ^ 31 := by omega
  have hnine : Int32.toInt 9 = 9 := by decide
  rw [gt_iff_lt, Int32.lt_iff_toInt_lt, Int32.toInt_ofInt_of_le (by omega) hhigh, hnine]
  omega

/-- Two digits with a leading zero or without. -/
theorem twoDigits {s : Text} (hs : ∀ c ∈ s, c.isDigit = true) (hlength : s.length = 2) :
    (if Int32.ofInt (Nat.ofDigitChars 10 s 0) > 9
      then formatWidth 2 (Int32.ofInt (Nat.ofDigitChars 10 s 0))
      else '0' :: formatWidth 1 (Int32.ofInt (Nat.ofDigitChars 10 s 0))) = s := by
  obtain ⟨c, d, rfl⟩ := List.length_eq_two.mp hlength
  obtain ⟨-, hd⟩ := List.forall_mem_cons.mp hs
  have hlt : Nat.ofDigitChars 10 [c, d] 0 < 10 ^ 2 := Text.ofDigitChars_lt hs
  have hsmall : Nat.ofDigitChars 10 [c, d] 0 < 2 ^ 31 := by omega
  rcases eq_or_ne c '0' with rfl | hne
  · have hvalue : Nat.ofDigitChars 10 ['0', d] 0 = d.toNat - '0'.toNat := by
      simp [Nat.ofDigitChars_cons]
    have hdigit := Text.digit_lt (hd d List.mem_cons_self)
    have hdecimal : decimal (d.toNat - '0'.toNat) = [d] := by
      rw [Text.decimal_of_lt hdigit, Text.digitChar_of_isDigit (hd d List.mem_cons_self)]
    rw [hvalue] at hsmall ⊢
    rw [if_neg (by rw [gt_ofInt_iff hsmall]; omega),
      formatWidth_ofInt hsmall (by rw [hdecimal]; exact le_rfl), hdecimal]
  · have hdecimal := Text.decimal_ofDigitChars hs (by simp) (by simpa using hne)
    have hlarge : 9 < Nat.ofDigitChars 10 [c, d] 0 := by
      by_contra hle
      rw [Text.decimal_of_lt (by omega)] at hdecimal
      simp at hdecimal
    rw [if_pos ((gt_ofInt_iff hsmall).mpr hlarge),
      formatWidth_ofInt hsmall (by rw [hdecimal]; exact le_rfl), hdecimal]

/-- Four digits that are a number from 1000 on. -/
theorem decimal_year {s : Text} (hs : ∀ c ∈ s, c.isDigit = true) (hlength : s.length = 4)
    (hyear : 1000 ≤ Nat.ofDigitChars 10 s 0) : decimal (Nat.ofDigitChars 10 s 0) = s := by
  apply Text.decimal_ofDigitChars hs (List.ne_nil_of_length_eq_add_one hlength)
  intro hhead
  obtain ⟨rest, rfl⟩ := List.head?_eq_some_iff.mp hhead
  have hrest := Text.ofDigitChars_lt (List.forall_mem_cons.mp hs).2
  rw [List.length_cons] at hlength
  rw [Nat.succ.inj hlength] at hrest
  have hvalue : Nat.ofDigitChars 10 ('0' :: rest) 0 = Nat.ofDigitChars 10 rest 0 := by
    simp [Nat.ofDigitChars_cons]
  omega

theorem take_date {s : Text} (hlength : s.length = 8) :
    s.take 4 ++ (s.drop 4).take 2 ++ (s.drop 6).take 2 = s := by
  have hday : (s.drop 6).take 2 = (s.drop 4).drop 2 := by
    rw [List.drop_drop, List.take_of_length_le (by rw [List.length_drop]; omega)]
  rw [hday, List.append_assoc, List.take_append_drop, List.take_append_drop]

/-- A date survives being parsed and formatted. -/
theorem formatExpiry_parseDate {expiry : Text} (hexpiry : IsDate expiry) :
    ∃ date, parseDate expiry = .ok (some date) ∧
      formatExpiry date.year date.month date.day = expiry := by
  obtain ⟨hlength, hdigits, hyear⟩ := hexpiry
  have hyearDigits : ∀ c ∈ expiry.take 4, c.isDigit = true := fun c hc =>
    hdigits c (List.mem_of_mem_take hc)
  have hmonthDigits : ∀ c ∈ (expiry.drop 4).take 2, c.isDigit = true := fun c hc =>
    hdigits c (List.mem_of_mem_drop (List.mem_of_mem_take hc))
  have hdayDigits : ∀ c ∈ (expiry.drop 6).take 2, c.isDigit = true := fun c hc =>
    hdigits c (List.mem_of_mem_drop (List.mem_of_mem_take hc))
  have hyearLength : (expiry.take 4).length = 4 := by simp [hlength]
  have hmonthLength : ((expiry.drop 4).take 2).length = 2 := by simp [hlength]
  have hdayLength : ((expiry.drop 6).take 2).length = 2 := by simp [hlength]
  have hyearText := decimal_year hyearDigits hyearLength hyear
  have hlt := Text.ofDigitChars_lt hyearDigits
  rw [hyearLength] at hlt
  have hparse : parseDate expiry = .ok (some
      ⟨Int32.ofInt (Nat.ofDigitChars 10 (expiry.take 4) 0),
        Int32.ofInt (Nat.ofDigitChars 10 ((expiry.drop 4).take 2) 0),
        Int32.ofInt (Nat.ofDigitChars 10 ((expiry.drop 6).take 2) 0)⟩) := by
    rw [parseDate, if_neg (not_not.mpr hlength),
      int_of_digits hyearDigits (List.ne_nil_of_length_eq_add_one hyearLength) (by omega),
      int_of_digits hmonthDigits (List.ne_nil_of_length_eq_add_one hmonthLength) (by omega),
      int_of_digits hdayDigits (List.ne_nil_of_length_eq_add_one hdayLength) (by omega)]
    rfl
  refine ⟨_, hparse, ?_⟩
  unfold formatExpiry
  dsimp only
  rw [twoDigits hmonthDigits hmonthLength, twoDigits hdayDigits hdayLength,
    formatWidth_ofInt (by omega) (by rw [hyearText, hyearLength]), hyearText,
    take_date hlength]

/-! ### There and back -/

/-- The message of a contract whose type, right and expiry were read. -/
def messageOf (c : IbContract) (type : ContractType) (right : Option Right)
    (expiry : Option Date) : Contract where
  id := c.conId.toUInt64
  symbol := c.symbol
  type := some type
  exchange := some c.exchange
  localSymbol := some c.localSymbol
  right := right
  strike := some { amount := c.strike, currency := some .usd }
  expiry := expiry

theorem marshall_messageOf (c : IbContract) {type : ContractType} {right : Option Right}
    {expiry : Option Date} {secType : Text}
    (hsecType : secTypeOf (messageOf c type right expiry) = some secType) :
    marshall (messageOf c type right expiry) = some {
      conId := c.conId
      symbol := c.symbol
      secType := secType
      exchange := c.exchange
      localSymbol := c.localSymbol
      right := (right.map rightText).getD []
      strike := c.strike
      currency := "USD".toList
      expiry := (expiry.map fun e => formatExpiry e.year e.month e.day).getD [] } := by
  rw [marshall, hsecType]
  rfl

theorem secTypeOf_messageOf_option (c : IbContract) (right : Right) (date : Date) :
    secTypeOf (messageOf c .option (some right) (some date)) = some "OPT".toList := by
  by_cases hid : c.conId.toUInt64 = 0
  · exact if_pos hid
  · exact (if_neg hid).trans rfl

section

variable {c : IbContract} (hc : Convertible c) {type : ContractType} {right : Option Right}
  {expiry : Option Date}
  (htype : (if c.secType = "IND".toList then some ContractType.index
    else if c.secType = "STK".toList then some .stock
    else if c.secType = "OPT".toList then some .option else none) = some type)
  (hright : (if c.right = ['P'] then some Right.put
    else if c.right = ['C'] then some .call else none) = right)
  (hexpiry : expiryOf c = .ok expiry)

include hc htype hright hexpiry

theorem toProto_eq : toProto c = .ok (messageOf c type right expiry) := by
  have hexchange : 0 < c.exchange.length := List.length_pos_iff.mpr hc.exchange
  rw [toProto, hexpiry]
  unfold protoOf
  rw [htype, hright, if_pos hexchange, if_pos hc.currency]
  rfl

theorem sameFields_messageOf
    (hsecType : secTypeOf (messageOf c type right expiry) = some c.secType)
    (hrightText : (right.map rightText).getD [] = c.right)
    (hdate : (expiry.map fun e => formatExpiry e.year e.month e.day).getD [] = c.expiry) :
    ∃ p c', toProto c = .ok p ∧ marshall p = some c' ∧ SameFields c' c :=
  ⟨_, _, toProto_eq hc htype hright hexpiry, marshall_messageOf c hsecType,
    ⟨rfl, rfl, rfl, hrightText, rfl, hdate, rfl, hc.currency.symm, rfl⟩⟩

end

/-- A contract that is turned into a message and back keeps its fields. -/
theorem marshall_toProto {c : IbContract} (hc : Convertible c) :
    ∃ p c', toProto c = .ok p ∧ marshall p = some c' ∧ SameFields c' c := by
  have hnames : "STK".toList ≠ "IND".toList ∧ "OPT".toList ≠ "IND".toList ∧
      "OPT".toList ≠ "STK".toList := by decide
  rcases hc.secType with ⟨hplain, hright, hexpiry⟩ | ⟨hoption, hright, hdate⟩
  · have hnone : expiryOf c = .ok none := by
      rw [expiryOf, hexpiry]
      rfl
    rcases hplain with hstock | hindex
    · apply @sameFields_messageOf c hc .stock _ _ ?_ rfl hnone
      · rw [hstock]
        rfl
      · rw [hright]
        rfl
      · exact hexpiry.symm
      · rw [hstock, if_neg hnames.1, if_pos rfl]
    · apply @sameFields_messageOf c hc .index _ _ ?_ rfl hnone
      · rw [hindex]
        rfl
      · rw [hright]
        rfl
      · exact hexpiry.symm
      · rw [hindex, if_pos rfl]
  · obtain ⟨date, hparse, hformat⟩ := formatExpiry_parseDate hdate
    have hexpiry : expiryOf c = .ok (some date) := by rw [expiryOf, if_pos hdate.1, hparse]
    apply @sameFields_messageOf c hc .option _ _ ?_ rfl hexpiry
    · rw [hoption]
      rcases hright with hput | hcall
      · rw [hput]
        exact secTypeOf_messageOf_option c .put date
      · rw [hcall]
        exact secTypeOf_messageOf_option c .call date
    · rcases hright with hput | hcall
      · rw [hput]
        rfl
      · rw [hcall]
        rfl
    · exact hformat
    · rw [hoption, if_neg hnames.2.1, if_neg hnames.2.2, if_pos rfl]

/-- An option on a stock, as the API has it. -/
def ibCallOption : IbContract where
  conId := 96099040
  symbol := "GOOG".toList
  secType := "OPT".toList
  expiry := ['2', '0', '1', '1', '1', '0', '2', '8']
  strike := ⟨0x4082700000000000⟩
  right := ['C']
  exchange := "SMART".toList
  currency := "USD".toList
  localSymbol := "GOOG  111028C00590000".toList

theorem convertible_ibCallOption : Convertible ibCallOption where
  exchange := by decide
  currency := rfl
  secType := .inr ⟨rfl, .inr rfl, ⟨rfl, List.all_eq_true.mp rfl, by decide⟩⟩

theorem marshall_toProto_ibCallOption :
    ∃ p c', toProto ibCallOption = .ok p ∧ marshall p = some c' ∧ SameFields c' ibCallOption :=
  marshall_toProto convertible_ibCallOption

end Atp.ContractMarshall

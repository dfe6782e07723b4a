import Atp.OptionFields

/-!
The details of a contract turned into a message, which is filed under the key of
its summary, and the key under which the contract itself is registered.
-/

namespace Atp

/-- The details of a contract, as the API has them. -/
structure IbContractDetails where
  summary : IbContract
  marketName : Text := []
  tradingClass : Text := []
  minTick : Double := ⟨0⟩
  orderTypes : Text := []
  validExchanges : Text := []
  priceMagnifier : Int64 := 0
  underConId : Int32 := 0
  longName : Text := []
  contractMonth : Text := []
  industry : Text := []
  category : Text := []
  subcategory : Text := []
  timeZoneId : Text := []
  tradingHours : Text := []
  liquidHours : Text := []

structure ContractDetails where
  id : UInt64
  symbol : Text
  summary : Contract
  marketName : Option Text := none
  tradingClass : Option Text := none
  minTick : Option Double := none
  orderTypes : Option Text := none
  validExchanges : Option Text := none
  priceMagnifier : Option Int32 := none
  underConId : Option Int32 := none
  longName : Option Text := none
  contractMonth : Option Text := none
  industry : Option Text := none
  category : Option Text := none
  subcategory : Option Text := none
  timeZoneId : Option Text := none
  tradingHours : Option Text := none
  liquidHours : Option Text := none
deriving DecidableEq

namespace DetailKeys

open ContractSymbol ContractMarshall OptionFields

/-- `operator<<` on a message of details, where it does not throw. -/
def detailsToProto (c : IbContractDetails) : Except BadLexicalCast ContractDetails :=
  (toProto c.summary).map fun summary => {
    id := c.summary.conId.toUInt64
    symbol := symbolFromContract summary
    summary := summary
    marketName := some c.marketName
    tradingClass := some c.tradingClass
    minTick := some c.minTick
    orderTypes := some c.orderTypes
    validExchanges := some c.validExchanges
    priceMagnifier := some c.priceMagnifier.toInt32
    underConId := some c.underConId
    longName := some c.longName
    contractMonth := some c.contractMonth
    industry := some c.industry
    category := some c.category
    subcategory := some c.subcategory
    timeZoneId := some c.timeZoneId
    tradingHours := some c.tradingHours
    liquidHours := some c.liquidHours }

/-- The details are filed under the key of their contract. -/
def KeyAgrees (c : IbContractDetails) (p : ContractDetails) : Prop :=
  p.symbol = TickerMap.symbolFromContract c.summary

/-- Stocks, indices, and options with a known right and a date that fits. -/
def Recognised (c : IbContract) : Prop :=
  c.secType = "STK".toList ∨ c.secType = "IND".toList ∨
    c.secType = "OPT".toList ∧ (c.right = ['P'] ∨ c.right = ['C']) ∧
      ∃ date, Fits date ∧ c.expiry = formatExpiry date.year date.month date.day

/-! ### The two keys -/

/-- Two option keys with the same strike, of which one has a date without a dot and a
right of one character. -/
theorem option_key_eq_iff {expiry expiry' strike right : Text} {r : Char}
    (hdot : '.' ∉ expiry') (hr : r ≠ '.') :
    expiry' ++ '.' :: (strike ++ ['.', r]) = expiry ++ '.' :: (strike ++ '.' :: right) ↔
      expiry = expiry' ∧ right = [r] := by
  constructor
  · intro hkey
    have htotal := congrArg List.length hkey
    simp only [List.length_append, List.length_cons, List.length_nil] at htotal
    rcases List.eq_nil_or_concat right with rfl | ⟨front, d, rfl⟩
    · have hlast := congrArg List.getLast? hkey
      simp [List.getLast?_append, List.getLast?_cons] at hlast
      exact absurd hlast hr
    · have hlast : (expiry' ++ '.' :: (strike ++ ['.'])) ++ [r] =
          (expiry ++ '.' :: (strike ++ '.' :: front)) ++ [d] := by simpa using hkey
      obtain ⟨hfront, hd⟩ := List.append_inj' hlast rfl
      obtain rfl := List.singleton_inj.mp hd
      rw [List.length_concat] at htotal
      rw [List.concat_eq_append]
      rcases List.append_eq_append_iff.mp hfront with ⟨t, rfl, -⟩ | ⟨t, rfl, ht⟩
      · rw [List.length_append] at htotal
        have hempty : t = [] := List.eq_nil_of_length_eq_zero (by omega)
        obtain rfl : front = [] := List.eq_nil_of_length_eq_zero (by omega)
        rw [hempty]
        exact ⟨List.append_nil _, rfl⟩
      · cases t with
        | nil =>
            rw [List.append_nil] at htotal ⊢
            obtain rfl : front = [] := List.eq_nil_of_length_eq_zero (by omega)
            exact ⟨rfl, rfl⟩
        | cons c t =>
            obtain rfl : '.' = c := (List.cons.inj ht).1
            exact absurd (List.mem_append_right _ List.mem_cons_self) hdot
  · rintro ⟨rfl, rfl⟩
    rfl

theorem not_mem_integer_dot (v : Int) : '.' ∉ integer v := by
  have hdecimal := @Text.not_mem_decimal '.' (by decide) v.natAbs
  unfold integer
  split_ifs
  · intro hmem
    rcases List.mem_cons.mp hmem with hminus | hmem
    · cases hminus
    · exact hdecimal hmem
  · exact hdecimal

theorem not_mem_formatWidth_dot (width : Nat) (i : Int32) : '.' ∉ formatWidth width i := by
  intro hmem
  rcases List.mem_append.mp hmem with hspace | hmem
  · cases List.eq_of_mem_replicate hspace
  · exact not_mem_integer_dot _ hmem

theorem not_mem_twoDigitText_dot (i : Int32) : '.' ∉ twoDigitText i := by
  unfold twoDigitText
  split_ifs
  · exact not_mem_formatWidth_dot 2 i
  · intro hmem
    rcases List.mem_cons.mp hmem with hzero | hmem
    · cases hzero
    · exact not_mem_formatWidth_dot 1 i hmem

theorem not_mem_formatExpiry_dot (year month day : Int32) :
    '.' ∉ formatExpiry year month day := by
  rw [formatExpiry_eq, List.mem_append, List.mem_append]
  rintro ((hmem | hmem) | hmem)
  · exact not_mem_formatWidth_dot 4 year hmem
  · exact not_mem_twoDigitText_dot month hmem
  · exact not_mem_twoDigitText_dot day hmem

theorem right_eq_iff (c : IbContract) (expiry : Option Date) :
    c.right = rightText (protoOf c expiry).getRight ↔ c.right = ['P'] ∨ c.right = ['C'] := by
  have hright : (protoOf c expiry).getRight = (if c.right = ['P'] then some Right.put
      else if c.right = ['C'] then some Right.call else none).getD .put := rfl
  rw [hright]
  split_ifs with hput hcall
  · exact iff_of_true hput (.inl hput)
  · exact iff_of_true hcall (.inr hcall)
  · exact iff_of_false hput fun h => h.elim hput hcall

/-- The date that was read is written as it was if and only if it fits. -/
theorem expiry_eq_iff {c : IbContract} {expiry : Option Date}
    (hparse : parseDate c.expiry = .ok expiry) :
    c.expiry = formatExpiry (protoOf c expiry).getExpiry.year
        (protoOf c expiry).getExpiry.month (protoOf c expiry).getExpiry.day ↔
      ∃ date, Fits date ∧ c.expiry = formatExpiry date.year date.month date.day := by
  constructor
  · intro hexpiry
    rw [hexpiry] at hparse
    cases expiry with
    | none =>
        have hzero : parseDate (formatExpiry 0 0 0) = .error .badLexicalCast := by decide
        cases hzero.symm.trans hparse
    | some date => exact ⟨date, (parseDate_formatExpiry_iff.mp hparse).1, hexpiry⟩
  · rintro ⟨date, hfits, hexpiry⟩
    have hread := parseDate_formatExpiry_iff.mpr ⟨hfits, @rfl _ date⟩
    rw [← hexpiry, hparse] at hread
    obtain rfl := Except.ok.inj hread
    exact hexpiry

theorem keyAgrees_iff_of_option {c : IbContract} {expiry : Option Date}
    (hsecType : c.secType = "OPT".toList) (hparse : parseDate c.expiry = .ok expiry) :
    symbolFromContract (protoOf c expiry) = TickerMap.symbolFromContract c ↔
      (c.right = ['P'] ∨ c.right = ['C']) ∧
        ∃ date, Fits date ∧ c.expiry = formatExpiry date.year date.month date.day := by
  have htype : (protoOf c expiry).getType = .option := by
    change ((if c.secType = "IND".toList then some ContractType.index
      else if c.secType = "STK".toList then some .stock
      else if c.secType = "OPT".toList then some .option else none).getD .stock) = .option
    rw [hsecType]
    rfl
  have hdot : ".OPT".toList = '.' :: "OPT".toList := by decide
  obtain ⟨r, hr, hne⟩ : ∃ r, rightText (protoOf c expiry).getRight = [r] ∧ r ≠ '.' := by
    cases (protoOf c expiry).getRight with
    | put => exact ⟨'P', rfl, by decide⟩
    | call => exact ⟨'C', rfl, by decide⟩
  rw [symbolFromContract, htype]
  dsimp only
  rw [formatOptionContractKey, TickerMap.symbolFromContract, if_pos hsecType, hsecType, hr, hdot]
  change c.symbol ++ '.' :: "OPT".toList ++ '.' :: (_ ++ '.' :: (c.strike.text ++ ['.', r])) =
    c.symbol ++ '.' :: "OPT".toList ++
      ('.' :: c.expiry ++ '.' :: c.strike.text ++ '.' :: c.right) ↔ _
  simp only [List.append_assoc, List.append_cancel_left_eq, List.cons_append, List.cons.injEq,
    true_and]
  rw [option_key_eq_iff (not_mem_formatExpiry_dot _ _ _) hne, ← hr, right_eq_iff,
    expiry_eq_iff hparse]
  exact and_comm

theorem symbolFromContract_of_ne_option {c : IbContract} (hsecType : c.secType ≠ "OPT".toList) :
    TickerMap.symbolFromContract c = c.symbol ++ '.' :: c.secType := by
  rw [TickerMap.symbolFromContract, if_neg hsecType, List.append_nil]

/-- The key of a summary is the key of its contract if and only if the converter
recognises all that the key is made of. -/
theorem symbolFromContract_protoOf_iff {c : IbContract} {expiry : Option Date}
    (hparse : parseDate c.expiry = .ok expiry) :
    symbolFromContract (protoOf c expiry) = TickerMap.symbolFromContract c ↔ Recognised c := by
  have hnames : "IND".toList ≠ "OPT".toList ∧ "OPT".toList ≠ "STK".toList ∧
      "OPT".toList ≠ "IND".toList := by decide
  by_cases hoption : c.secType = "OPT".toList
  · rw [keyAgrees_iff_of_option hoption hparse, Recognised, hoption, or_iff_right hnames.2.1,
      or_iff_right hnames.2.2, and_iff_right rfl]
  have htype : (protoOf c expiry).getType =
      (if c.secType = "IND".toList then some ContractType.index
      else if c.secType = "STK".toList then some .stock
      else if c.secType = "OPT".toList then some .option else none).getD .stock := rfl
  rw [symbolFromContract_of_ne_option hoption, symbolFromContract, htype, if_neg hoption]
  by_cases hindex : c.secType = "IND".toList
  · rw [if_pos hindex, hindex]
    exact iff_of_true rfl (.inr (.inl hindex))
  · have hdot : ".STK".toList = '.' :: "STK".toList := by decide
    have hstock : ((if c.secType = "STK".toList then some ContractType.stock else none).getD
        .stock) = .stock := by
      split_ifs
      · rfl
      · rfl
    rw [if_neg hindex, hstock]
    change c.symbol ++ ".STK".toList = _ ↔ _
    rw [hdot, List.append_cancel_left_eq, List.cons.injEq, and_iff_right rfl, Recognised,
      or_iff_right hindex, or_iff_left fun h => hoption h.1]
    exact eq_comm

theorem detailsToProto_eq_ok {c : IbContractDetails} {p : ContractDetails}
    (hp : detailsToProto c = .ok p) :
    ∃ expiry, parseDate c.summary.expiry = .ok expiry ∧ p.summary = protoOf c.summary expiry ∧
      p.symbol = symbolFromContract (protoOf c.summary expiry) := by
  unfold detailsToProto at hp
  cases hsummary : toProto c.summary with
  | error e =>
      rw [hsummary] at hp
      cases hp
  | ok summary =>
      rw [hsummary] at hp
      obtain ⟨expiry, hparse, rfl⟩ := toProto_eq_ok_iff.mp hsummary
      obtain rfl := Except.ok.inj hp
      exact ⟨expiry, hparse, rfl, rfl⟩

theorem keyAgrees_iff_recognised {c : IbContractDetails} {p : ContractDetails}
    (hp : detailsToProto c = .ok p) : KeyAgrees c p ↔ Recognised c.summary := by
  obtain ⟨expiry, hparse, -, hsymbol⟩ := detailsToProto_eq_ok hp
  rw [KeyAgrees, hsymbol]
  exact symbolFromContract_protoOf_iff hparse

/-- Two details are filed under the keys of their contracts if and only if the
converter recognises both, and then one key is not used for two. -/
theorem keyAgrees_iff (c c' : IbContractDetails) (p p' : ContractDetails)
    (hp : detailsToProto c = .ok p) (hp' : detailsToProto c' = .ok p') :
    (KeyAgrees c p ∧ KeyAgrees c' p' ∧
      (p.symbol = p'.symbol →
        TickerMap.symbolFromContract c.summary = TickerMap.symbolFromContract c'.summary)) ↔
      Recognised c.summary ∧ Recognised c'.summary := by
  constructor
  · rintro ⟨hkey, hkey', -⟩
    exact ⟨(keyAgrees_iff_recognised hp).mp hkey, (keyAgrees_iff_recognised hp').mp hkey'⟩
  · rintro ⟨hc, hc'⟩
    have hkey := (keyAgrees_iff_recognised hp).mpr hc
    have hkey' := (keyAgrees_iff_recognised hp').mpr hc'
    refine ⟨hkey, hkey', ?_⟩
    intro hsame
    calc
      TickerMap.symbolFromContract c.summary = p.symbol := hkey.symm
      _ = p'.symbol := hsame
      _ = TickerMap.symbolFromContract c'.summary := hkey'

/-- The details of a contract on `EUR` of some security type. -/
def eurDetails (secType : Text) : IbContractDetails where
  summary := {
    conId := 1
    symbol := "EUR".toList
    secType := secType
    currency := "USD".toList }

theorem keyAgrees_iff_eur : ∃ p p', detailsToProto (eurDetails "STK".toList) = .ok p ∧
    detailsToProto (eurDetails "IND".toList) = .ok p' ∧
      ((KeyAgrees (eurDetails "STK".toList) p ∧ KeyAgrees (eurDetails "IND".toList) p' ∧
        (p.symbol = p'.symbol →
          TickerMap.symbolFromContract (eurDetails "STK".toList).summary =
            TickerMap.symbolFromContract (eurDetails "IND".toList).summary)) ↔
        Recognised (eurDetails "STK".toList).summary ∧
          Recognised (eurDetails "IND".toList).summary) :=
  ⟨_, _, rfl, rfl, keyAgrees_iff _ _ _ _ rfl rfl⟩

/-- A currency pair is filed as the stock of that name. -/
theorem not_keyAgrees_cash : ∃ p p', detailsToProto (eurDetails "CASH".toList) = .ok p ∧
    detailsToProto (eurDetails "STK".toList) = .ok p' ∧
      ¬ KeyAgrees (eurDetails "CASH".toList) p ∧ p.symbol = p'.symbol ∧
        TickerMap.symbolFromContract (eurDetails "CASH".toList).summary ≠
          TickerMap.symbolFromContract (eurDetails "STK".toList).summary := by
  refine ⟨_, _, rfl, rfl, ?_, rfl, by decide⟩
  intro hkey
  have hlength := congrArg List.length hkey
  contradiction

end DetailKeys

end Atp

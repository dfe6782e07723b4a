import Atp.LexicalCast
import Atp.Protos

/-!
The text keys of contracts, such as `AAPL.STK` and `AAPL.OPT.20121216.650.C`:
how they are written, and how they are read back.
-/

namespace Atp.ContractSymbol

/-- The conversion `%<width>d` of `boost::format`. -/
def formatWidth (width : Nat) (i : Int32) : Text :=
  List.replicate (width - (integer i.toInt).length) ' ' ++ integer i.toInt

def parseDate (date : Text) : Except BadLexicalCast (Option Date) :=
  if date.length ≠ 8 then .ok none
  else do
    let year ← LexicalCast.int (date.take 4)
    let month ← LexicalCast.int ((date.drop 4).take 2)
    let day ← LexicalCast.int ((date.drop 6).take 2)
    .ok (some ⟨year, month, day⟩)

def formatExpiry (year month day : Int32) : Text :=
  formatWidth 4 year ++
    (if month > 9 then formatWidth 2 month else '0' :: formatWidth 1 month) ++
    (if day > 9 then formatWidth 2 day else '0' :: formatWidth 1 day)

def rightText : Right → Text
  | .call => ['C']
  | .put => ['P']

def formatOptionContractKey (symbol : Text) (strike : Double) (right : Right)
    (year month day : Int32) : Text :=
  symbol ++ ".OPT".toList ++ '.' :: (formatExpiry year month day ++
    '.' :: (strike.text ++ '.' :: rightText right))

def symbolFromContract (contract : Contract) : Text :=
  match contract.getType with
  | .stock => contract.symbol ++ ".STK".toList
  | .index => contract.symbol ++ ".IND".toList
  | .option =>
      formatOptionContractKey contract.symbol contract.getStrike.amount contract.getRight
        contract.getExpiry.year contract.getExpiry.month contract.getExpiry.day

structure Outputs where
  symbol : Text
  secType : ContractType
  strike : Double
  right : Right
  expiry : Date
deriving DecidableEq

def parseEncodedSymbol (key : Text) (out : Outputs) :
    Except BadLexicalCast (Bool × Outputs) :=
  match key.splitOn '.' with
  | symbol :: secType :: rest =>
      let out := { out with symbol := symbol }
      if secType = "STK".toList then .ok (true, { out with secType := .stock })
      else if secType = "IND".toList then .ok (true, { out with secType := .index })
      else match rest with
        | [part2, _, part4] =>
            if secType = "OPT".toList then do
              let out := { out with secType := .option, strike := ← LexicalCast.double part2 }
              match ← parseDate part4 with
              | none => .ok (false, out)
              | some expiry =>
                  let out := { out with expiry := expiry }
                  let out := if part4 = ['P'] then { out with right := .put } else out
                  let out := if part4 = ['C'] then { out with right := .call } else out
                  .ok (true, out)
            else .ok (false, out)
        | _ => .ok (false, out)
  | _ => .ok (false, out)

def RoundTrip (contract : Contract) : Prop :=
  ∀ out, ∃ out', parseEncodedSymbol (symbolFromContract contract) out = .ok (true, out') ∧
    out'.symbol = contract.symbol ∧ out'.secType = contract.getType ∧
      (contract.getType = .option →
        out'.strike = contract.getStrike.amount ∧ out'.right = contract.getRight ∧
          out'.expiry = contract.getExpiry)

theorem splitOn_dot {symbol : Text} (hsymbol : '.' ∉ symbol) (rest : Text) :
    (symbol ++ '.' :: rest).splitOn '.' = symbol :: rest.splitOn '.' :=
  List.splitOn_append_cons_self_of_not_mem hsymbol _

theorem parseEncodedSymbol_stock {symbol : Text} (hsymbol : '.' ∉ symbol) (out : Outputs) :
    parseEncodedSymbol (symbol ++ ".STK".toList) out =
      .ok (true, { out with symbol := symbol, secType := .stock }) := by
  have hsplit : (symbol ++ ".STK".toList).splitOn '.' = [symbol, "STK".toList] :=
    splitOn_dot hsymbol "STK".toList
  simp only [parseEncodedSymbol, hsplit]
  rfl

theorem parseEncodedSymbol_index {symbol : Text} (hsymbol : '.' ∉ symbol) (out : Outputs) :
    parseEncodedSymbol (symbol ++ ".IND".toList) out =
      .ok (true, { out with symbol := symbol, secType := .index }) := by
  have hsplit : (symbol ++ ".IND".toList).splitOn '.' = [symbol, "IND".toList] :=
    splitOn_dot hsymbol "IND".toList
  simp only [parseEncodedSymbol, hsplit]
  rfl

theorem parseDate_rightText (right : Right) : parseDate (rightText right) = .ok none := by
  cases right <;> rfl

/-- The date is sought where the key has the right, so no option key is
accepted. -/
theorem parseEncodedSymbol_option {symbol : Text} (hsymbol : '.' ∉ symbol)
    (strike : Double) (right : Right) (year month day : Int32) (out out' : Outputs) :
    parseEncodedSymbol (formatOptionContractKey symbol strike right year month day) out ≠
      .ok (true, out') := by
  have hright : (rightText right).splitOn '.' = [rightText right] := by
    cases right <;> decide
  have hsplit : (formatOptionContractKey symbol strike right year month day).splitOn '.' =
      symbol :: "OPT".toList :: ((formatExpiry year month day).splitOn '.' ++
        strike.text.splitOn '.' ++ [rightText right]) := by
    have hkey : formatOptionContractKey symbol strike right year month day =
        symbol ++ '.' :: ("OPT".toList ++ '.' :: (formatExpiry year month day ++
          '.' :: (strike.text ++ '.' :: rightText right))) := by
      simp [formatOptionContractKey]
    rw [hkey, splitOn_dot hsymbol, splitOn_dot (by decide), List.splitOn_append_cons_self,
      List.splitOn_append_cons_self, hright, List.append_assoc]
  have hstk : "OPT".toList ≠ "STK".toList := by decide
  have hind : "OPT".toList ≠ "IND".toList := by decide
  simp only [parseEncodedSymbol, hsplit, if_neg hstk, if_neg hind, ↓reduceIte]
  generalize (formatExpiry year month day).splitOn '.' ++ strike.text.splitOn '.' = parts
  match parts with
  | [] | [_] | _ :: _ :: _ :: _ => simp
  | [part2, part3] =>
      change ((LexicalCast.double part2).bind fun strike =>
        (parseDate (rightText right)).bind _) ≠ _
      rw [parseDate_rightText]
      cases LexicalCast.double part2 <;> simp [Except.bind]

/-- A key can be read back if and only if the contract is no option. -/
theorem roundTrip_iff_not_option {contract : Contract} (hdot : '.' ∉ contract.symbol) :
    RoundTrip contract ↔ contract.getType ≠ .option := by
  constructor
  · intro hround htype
    obtain ⟨out', hparse, -⟩ := hround ⟨[], .stock, ⟨0⟩, .put, ⟨0, 0, 0⟩⟩
    rw [symbolFromContract, htype] at hparse
    exact parseEncodedSymbol_option hdot _ _ _ _ _ _ _ hparse
  · intro htype out
    rw [symbolFromContract]
    cases hcase : contract.getType with
    | stock => exact ⟨_, parseEncodedSymbol_stock hdot out, rfl, rfl, by simp⟩
    | index => exact ⟨_, parseEncodedSymbol_index hdot out, rfl, rfl, by simp⟩
    | option => exact absurd hcase htype

theorem roundTrip_index :
    RoundTrip { id := 2, symbol := "SPX".toList, type := some .index } ↔
      ContractType.index ≠ .option :=
  roundTrip_iff_not_option (by decide)

def callOption : Contract where
  id := 1
  symbol := "AAPL".toList
  type := some .option
  right := some .call
  strike := some { amount := ⟨0x4084500000000000⟩ }
  expiry := some ⟨2012, 12, 16⟩

theorem not_roundTrip_callOption :
    symbolFromContract callOption = "AAPL.OPT.20121216.650.C".toList ∧
      ¬ RoundTrip callOption := by
  refine ⟨by decide +kernel, fun hround => ?_⟩
  obtain ⟨out', hparse, -⟩ := hround ⟨[], .stock, ⟨0⟩, .put, ⟨0, 0, 0⟩⟩
  have hdot : '.' ∉ callOption.symbol := by decide
  exact parseEncodedSymbol_option hdot _ _ _ _ _ _ _ hparse

end Atp.ContractSymbol

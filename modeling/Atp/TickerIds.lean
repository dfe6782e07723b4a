import Atp.InverseMaps
import Atp.Runs
import Atp.TickerMap

/-!
Ids and symbols of the contracts registered so far.  An id that is taken by
another symbol is refused, but a symbol that is taken by another id is not: its
entry is overwritten, and two ids stand for it.
-/

namespace Atp.TickerIds

open InverseMaps

def step (m : TickerMap) (contract : IbContract) : Option TickerMap :=
  some (m.registerContract contract).2

/-- An id stands for a symbol exactly where the symbol stands for the id. -/
def IdsAndSymbolsInverse (m : TickerMap) : Prop :=
  ∀ id symbol, m.getSubscriptionKeyFromId id = some symbol ↔
    m.getTickerIdFromSubscriptionKey symbol = some id

/-- The contract comes under an id that is registered, or with a symbol that is
not. -/
def SymbolFree (m : TickerMap) (contract : IbContract) : Prop :=
  m.getSubscriptionKeyFromId (m.tickerIdOf contract) = none →
    m.getTickerIdFromSubscriptionKey (TickerMap.symbolFromContract contract) = none

theorem inverse_iff (m : TickerMap) :
    IdsAndSymbolsInverse m ↔ Inverse m.tickerIdSymbolMap m.symbolTickerIdMap := Iff.rfl

/-- A registration changes nothing, or it adds the id and the symbol. -/
theorem registerContract_cases (m : TickerMap) (contract : IbContract) :
    (m.getSubscriptionKeyFromId (m.tickerIdOf contract) ≠ none ∧
        (m.registerContract contract).2 = m) ∨
      (m.getSubscriptionKeyFromId (m.tickerIdOf contract) = none ∧
        (m.registerContract contract).2.tickerIdSymbolMap =
          m.tickerIdSymbolMap.insert (m.tickerIdOf contract)
            (TickerMap.symbolFromContract contract) ∧
        (m.registerContract contract).2.symbolTickerIdMap =
          m.symbolTickerIdMap.insert (TickerMap.symbolFromContract contract)
            (m.tickerIdOf contract)) := by
  unfold TickerMap.registerContract TickerMap.getSubscriptionKeyFromId
  dsimp only
  split
  · rename_i hnone
    exact .inr ⟨hnone, rfl, rfl⟩
  · rename_i check hsome
    refine .inl ⟨?_, rfl⟩
    rw [hsome]
    nofun

theorem inverse_registerContract {m : TickerMap} (hm : IdsAndSymbolsInverse m)
    {contract : IbContract} (hfree : SymbolFree m contract) :
    IdsAndSymbolsInverse (m.registerContract contract).2 := by
  rcases registerContract_cases m contract with ⟨-, hsame⟩ | ⟨hid, hids, hsymbols⟩
  · rw [hsame]
    exact hm
  · rw [inverse_iff, hids, hsymbols]
    exact inverse_insert hm hid (hfree hid)

theorem not_inverse_registerContract {m : TickerMap} (hm : IdsAndSymbolsInverse m)
    {contract : IbContract} (htaken : ¬ SymbolFree m contract) :
    ¬ IdsAndSymbolsInverse (m.registerContract contract).2 := by
  obtain ⟨hid, hsymbol⟩ := Classical.not_imp.mp htaken
  rcases registerContract_cases m contract with ⟨hknown, -⟩ | ⟨-, hids, hsymbols⟩
  · exact absurd hid hknown
  · rw [inverse_iff, hids, hsymbols]
    exact not_inverse_insert hm hid hsymbol

/-- Ids and symbols are inverse to each other after every registration of a run
if and only if no contract with a new id has a symbol that is registered. -/
theorem inverse_iff_symbolFree (contracts : List IbContract) :
    Runs.Always step IdsAndSymbolsInverse TickerMap.empty contracts ↔
      Runs.Throughout step SymbolFree TickerMap.empty contracts :=
  Runs.always_iff_throughout step (fun _ hm => hm)
    (fun _ _ _ hm hstep hfree => Option.some.inj hstep ▸ inverse_registerContract hm hfree)
    (fun _ _ _ hm hstep hfree => Option.some.inj hstep ▸ not_inverse_registerContract hm hfree)
    inverse_empty contracts

/-- A stock that is registered by a query without an id, and then under its own. -/
theorem not_inverse_second_id :
    ¬ Runs.Always step IdsAndSymbolsInverse TickerMap.empty
      [{ conId := 0, symbol := "AAPL".toList, secType := "STK".toList },
        { conId := 265598, symbol := "AAPL".toList, secType := "STK".toList }] := by
  intro halways
  have hinverse := halways _ [] _ (List.append_nil _).symm rfl
  exact absurd ((hinverse 1 "AAPL.STK".toList).mp (by decide)) (by decide)

end Atp.TickerIds

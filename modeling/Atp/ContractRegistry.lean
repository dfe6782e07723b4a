import Atp.TickerMap

/-!
The registry of contracts over a history of registrations: what is bound stays
bound, which id a contract gets when it comes again, and what an id of -1 does.
-/

namespace Atp.ContractRegistry

open TickerMap

def registered (m : TickerMap) (contracts : List IbContract) : TickerMap :=
  contracts.foldl (fun m contract => (m.registerContract contract).2) m

/-- The id stands for another symbol. -/
def Refused (m : TickerMap) (id : Int64) (symbol : Text) : Prop :=
  ∃ other, m.getSubscriptionKeyFromId id = some other ∧ other ≠ symbol

/-- A contract without an id gets a positive one that stands for no other symbol, and
when the contract comes again, under `conId`, the id is the same and nothing changes. -/
def Identifies (m : TickerMap) (contract : IbContract) (others : List IbContract)
    (conId : Int64) : Prop :=
  let first := m.registerContract contract
  let before := registered first.2 others
  (contract.conId = 0 → 0 < first.1 ∧ ¬ Refused m first.1 (symbolFromContract contract)) ∧
    before.registerContract { contract with conId := conId } = (first.1, before)

/-- The contract is not refused and comes under the same id again, or it has an id of
its own and is refused both times.  An id of -1 is taken for a refusal. -/
def SameId (m : TickerMap) (contract : IbContract) (others : List IbContract)
    (conId : Int64) : Prop :=
  let symbol := symbolFromContract contract
  let id := m.tickerIdOf contract
  let before := registered (m.registerContract contract).2 others
  let again := before.tickerIdOf { contract with conId := conId }
  ¬ Refused m id symbol ∧ (contract.conId = 0 → 0 < id) ∧
      (again = id ∨ id = -1 ∧ Refused before again symbol) ∨
    Refused m id symbol ∧ contract.conId ≠ 0 ∧
      (Refused before again symbol ∨
        again = -1 ∧ before.getSubscriptionKeyFromId again = some symbol)

/-- Ids have a symbol where they have a contract. -/
def Consistent (m : TickerMap) : Prop :=
  ∀ id, id ∈ m.tickerIdSymbolMap ↔ id ∈ m.tickerIdContractMap

structure Extends (m m' : TickerMap) : Prop where
  symbols : ∀ id symbol, m.getSubscriptionKeyFromId id = some symbol →
    m'.getSubscriptionKeyFromId id = some symbol
  contracts : ∀ id contract, m.tickerIdContractMap.lookup id = some contract →
    m'.tickerIdContractMap.lookup id = some contract

/-- What a caller may conclude from the id that a registration returns. -/
structure CallSound (m : TickerMap) (contract : IbContract) : Prop where
  refused : (m.registerContract contract).1 = -1 → (m.registerContract contract).2 = m
  bound : (m.registerContract contract).1 ≠ -1 →
    (m.registerContract contract).2.getSubscriptionKeyFromId (m.registerContract contract).1 =
      some (symbolFromContract contract)
  consistent : Consistent (m.registerContract contract).2

structure Sound (contracts : List IbContract) : Prop where
  stable : ∀ pre post, contracts = pre ++ post →
    Extends (registered empty pre) (registered empty contracts)
  calls : ∀ pre contract post, contracts = pre ++ contract :: post →
    CallSound (registered empty pre) contract

/-- The contract comes under -1, which stands for nothing yet. -/
def NewMinusOne (m : TickerMap) (contract : IbContract) : Prop :=
  m.tickerIdOf contract = -1 ∧ m.getSubscriptionKeyFromId (-1) = none

/-! ### One registration -/

section

variable {m : TickerMap} {id : Int64} {symbol : Text}

/-- The id stands for nothing, for the symbol or for another one. -/
theorem free_or_own_or_refused (m : TickerMap) (id : Int64) (symbol : Text) :
    m.getSubscriptionKeyFromId id = none ∨ m.getSubscriptionKeyFromId id = some symbol ∨
      Refused m id symbol := by
  cases hbound : m.getSubscriptionKeyFromId id with
  | none => exact .inl rfl
  | some other =>
      rcases eq_or_ne other symbol with rfl | hne
      · exact .inr (.inl rfl)
      · exact .inr (.inr ⟨other, hbound, hne⟩)

theorem not_refused_of_none (hnone : m.getSubscriptionKeyFromId id = none) :
    ¬ Refused m id symbol := by
  rintro ⟨other, hother, -⟩
  rw [hnone] at hother
  cases hother

theorem not_refused_of_some (hown : m.getSubscriptionKeyFromId id = some symbol) :
    ¬ Refused m id symbol := by
  rintro ⟨other, hother, hne⟩
  rw [hown] at hother
  exact hne (Option.some.inj hother).symm

end

section

variable {m : TickerMap} {contract : IbContract}

theorem registerContract_of_none
    (hnone : m.getSubscriptionKeyFromId (m.tickerIdOf contract) = none) :
    m.registerContract contract = (m.tickerIdOf contract, {
      tickerIdSymbolMap :=
        m.tickerIdSymbolMap.insert (m.tickerIdOf contract) (symbolFromContract contract)
      symbolTickerIdMap :=
        m.symbolTickerIdMap.insert (symbolFromContract contract) (m.tickerIdOf contract)
      tickerIdContractMap := m.tickerIdContractMap.insert (m.tickerIdOf contract)
        { contract with conId := m.tickerIdOf contract } }) := by
  rw [getSubscriptionKeyFromId] at hnone
  rw [registerContract]
  rw [hnone]

theorem registerContract_of_some
    (hsome : m.getSubscriptionKeyFromId (m.tickerIdOf contract) =
      some (symbolFromContract contract)) :
    m.registerContract contract = (m.tickerIdOf contract, m) := by
  rw [getSubscriptionKeyFromId] at hsome
  rw [registerContract]
  rw [hsome]
  dsimp only
  rw [if_neg (not_not.mpr rfl)]

theorem registerContract_of_refused
    (hrefused : Refused m (m.tickerIdOf contract) (symbolFromContract contract)) :
    m.registerContract contract = (-1, m) := by
  obtain ⟨other, hother, hne⟩ := hrefused
  rw [getSubscriptionKeyFromId] at hother
  rw [registerContract]
  rw [hother]
  dsimp only
  rw [if_pos hne]

theorem fst_registerContract_of_not_refused
    (hfree : ¬ Refused m (m.tickerIdOf contract) (symbolFromContract contract)) :
    (m.registerContract contract).1 = m.tickerIdOf contract ∧
      (m.registerContract contract).2.getSubscriptionKeyFromId (m.tickerIdOf contract) =
        some (symbolFromContract contract) := by
  rcases free_or_own_or_refused m _ (symbolFromContract contract) with hnone | hown | hrefused
  · rw [registerContract_of_none hnone]
    exact ⟨rfl, AList.lookup_insert _⟩
  · rw [registerContract_of_some hown]
    exact ⟨rfl, hown⟩
  · exact absurd hrefused hfree

theorem consistent_registerContract (hm : Consistent m) :
    Consistent (m.registerContract contract).2 := by
  rcases free_or_own_or_refused m _ (symbolFromContract contract) with hnone | hown | hrefused
  · rw [registerContract_of_none hnone]
    intro id
    rw [AList.mem_insert, AList.mem_insert, hm id]
  · rwa [registerContract_of_some hown]
  · rwa [registerContract_of_refused hrefused]

theorem extends_registerContract (hm : Consistent m) :
    Extends m (m.registerContract contract).2 := by
  refine ⟨fun id symbol hid => getSubscriptionKeyFromId_registerContract hid contract, ?_⟩
  intro id known hknown
  rcases free_or_own_or_refused m _ (symbolFromContract contract) with hnone | hown | hrefused
  · have hne : id ≠ m.tickerIdOf contract := by
      rintro rfl
      have hmem := (hm (m.tickerIdOf contract)).mpr
        (AList.lookup_isSome.mp (by rw [hknown]; rfl))
      rw [getSubscriptionKeyFromId, AList.lookup_eq_none] at hnone
      exact hnone hmem
    rw [registerContract_of_none hnone]
    exact (AList.lookup_insert_ne hne).trans hknown
  · rwa [registerContract_of_some hown]
  · rwa [registerContract_of_refused hrefused]

end

/-! ### Histories -/

theorem Extends.refl (m : TickerMap) : Extends m m := ⟨fun _ _ h => h, fun _ _ h => h⟩

theorem Extends.trans {m m' m'' : TickerMap} (h : Extends m m') (h' : Extends m' m'') :
    Extends m m'' :=
  ⟨fun id symbol hid => h'.symbols id symbol (h.symbols id symbol hid),
    fun id contract hid => h'.contracts id contract (h.contracts id contract hid)⟩

theorem consistent_registered {m : TickerMap} (hm : Consistent m) (contracts : List IbContract) :
    Consistent (registered m contracts) := by
  induction contracts generalizing m with
  | nil => exact hm
  | cons contract contracts ih => exact ih (consistent_registerContract hm)

theorem extends_registered {m : TickerMap} (hm : Consistent m) (contracts : List IbContract) :
    Extends m (registered m contracts) := by
  induction contracts generalizing m with
  | nil => exact Extends.refl m
  | cons contract contracts ih =>
      exact (extends_registerContract hm).trans (ih (consistent_registerContract hm))

theorem consistent_empty : Consistent empty := fun _ => Iff.rfl

theorem getSubscriptionKeyFromId_registered {m : TickerMap} {id : Int64} {symbol : Text}
    (hid : m.getSubscriptionKeyFromId id = some symbol) (contracts : List IbContract) :
    (registered m contracts).getSubscriptionKeyFromId id = some symbol := by
  induction contracts generalizing m with
  | nil => exact hid
  | cons contract contracts ih =>
      exact ih (getSubscriptionKeyFromId_registerContract hid contract)

/-! ### A contract that comes again -/

/-- When a registration returns `id` and changes nothing. -/
theorem registerContract_eq_iff {m : TickerMap} {contract : IbContract} {id : Int64} :
    m.registerContract contract = (id, m) ↔
      m.tickerIdOf contract = id ∧
          m.getSubscriptionKeyFromId (m.tickerIdOf contract) =
            some (symbolFromContract contract) ∨
        id = -1 ∧ Refused m (m.tickerIdOf contract) (symbolFromContract contract) := by
  rcases free_or_own_or_refused m _ (symbolFromContract contract) with hnone | hown | hrefused
  · have hfree := @not_refused_of_none _ _ (symbolFromContract contract) hnone
    refine iff_of_false ?_ ?_
    · intro heq
      have hafter := (fst_registerContract_of_not_refused hfree).2
      rw [heq, hnone] at hafter
      cases hafter
    · rintro (⟨-, hown⟩ | ⟨-, hrefused⟩)
      · rw [hnone] at hown
        cases hown
      · exact hfree hrefused
  · rw [registerContract_of_some hown, Prod.mk.injEq, and_iff_left rfl, and_iff_left hown,
      or_iff_left fun h => not_refused_of_some hown h.2]
  · rw [registerContract_of_refused hrefused, Prod.mk.injEq, and_iff_left rfl,
      and_iff_left hrefused, or_iff_right fun h => not_refused_of_some h.2 hrefused]
    exact eq_comm

section

variable {m : TickerMap} {contract : IbContract} (others : List IbContract) (conId : Int64)

theorem identifies_iff_of_refused
    (hrefused : Refused m (m.tickerIdOf contract) (symbolFromContract contract)) :
    Identifies m contract others conId ↔ SameId m contract others conId := by
  rw [Identifies, SameId, registerContract_of_refused hrefused]
  have hsymbol : symbolFromContract { contract with conId := conId } =
    symbolFromContract contract := rfl
  generalize ({ contract with conId := conId } : IbContract) = again at hsymbol ⊢
  dsimp only
  rw [registerContract_eq_iff, hsymbol]
  constructor
  · rintro ⟨hpositive, hagain⟩
    refine .inr ⟨hrefused, fun hzero => absurd (hpositive hzero).1 (by decide), ?_⟩
    exact hagain.symm.imp_left fun h => h.2
  · rintro (⟨hfree, -⟩ | ⟨-, hne, hagain⟩)
    · exact absurd hrefused hfree
    · exact ⟨fun hzero => absurd hzero hne, hagain.symm.imp_right fun h => ⟨rfl, h⟩⟩

theorem identifies_iff_of_not_refused
    (hfree : ¬ Refused m (m.tickerIdOf contract) (symbolFromContract contract)) :
    Identifies m contract others conId ↔ SameId m contract others conId := by
  obtain ⟨hfirst, hbound⟩ := fst_registerContract_of_not_refused hfree
  have hstays := getSubscriptionKeyFromId_registered hbound others
  rw [Identifies, SameId, hfirst]
  have hsymbol : symbolFromContract { contract with conId := conId } =
    symbolFromContract contract := rfl
  generalize ({ contract with conId := conId } : IbContract) = again at hsymbol ⊢
  rw [registerContract_eq_iff, hsymbol]
  constructor
  · rintro ⟨hpositive, hagain⟩
    exact .inl ⟨hfree, fun hzero => (hpositive hzero).1, hagain.imp_left fun h => h.1⟩
  · rintro (⟨-, hpositive, hagain⟩ | ⟨hrefused, -⟩)
    · refine ⟨fun hzero => ⟨hpositive hzero, hfree⟩, hagain.imp_left fun hid => ⟨hid, ?_⟩⟩
      rw [hid]
      exact hstays
    · exact absurd hrefused hfree

end

/-- A contract is identified by its id if and only if it is not refused and comes
under the same id again, or is refused both times. -/
theorem identifies_iff (history : List IbContract) (contract : IbContract)
    (others : List IbContract) (conId : Int64) :
    Identifies (registered empty history) contract others conId ↔
      SameId (registered empty history) contract others conId := by
  by_cases hrefused : Refused (registered empty history)
      ((registered empty history).tickerIdOf contract) (symbolFromContract contract)
  · exact identifies_iff_of_refused others conId hrefused
  · exact identifies_iff_of_not_refused others conId hrefused

/-- With the id that it had, a contract comes under the same id again unless that id
is made of the number of contracts, and the number has changed. -/
theorem sameId_self_iff (m : TickerMap) (contract : IbContract) (others : List IbContract) :
    SameId m contract others contract.conId ↔
      (contract.conId = 0 →
        ¬ Refused m (m.tickerIdOf contract) (symbolFromContract contract) ∧
          0 < m.tickerIdOf contract ∧
          (registered (m.registerContract contract).2 others).tickerIdOf contract =
            m.tickerIdOf contract) := by
  rw [SameId]
  by_cases hzero : contract.conId = 0
  · rw [forall_prop_of_true hzero, or_iff_left fun h => h.2.1 hzero, forall_prop_of_true hzero]
    refine and_congr_right fun _ => and_congr_right fun hpositive => or_iff_left ?_
    rintro ⟨hminus, -⟩
    rw [hminus] at hpositive
    exact absurd hpositive (by decide)
  · have hid := m.tickerIdOf_of_ne_zero hzero
    have hagain := tickerIdOf_of_ne_zero (registered (m.registerContract contract).2 others) hzero
    refine iff_of_true ?_ fun h => absurd h hzero
    by_cases hrefused : Refused m (m.tickerIdOf contract) (symbolFromContract contract)
    · refine .inr ⟨hrefused, hzero, .inl ?_⟩
      obtain ⟨other, hother, hne⟩ := hrefused
      rw [hid] at hother
      refine ⟨other, ?_, hne⟩
      rw [hagain]
      exact getSubscriptionKeyFromId_registered
        (getSubscriptionKeyFromId_registerContract hother contract) others
    · exact .inl ⟨hrefused, fun h => absurd h hzero, .inl (hagain.trans hid.symm)⟩

def stock (conId : Int64) (symbol : String) : IbContract where
  conId := conId
  symbol := symbol.toList
  secType := "STK".toList

/-- A stock without an id gets another one each time. -/
theorem not_all_identifies :
    ¬ ∀ history contract others,
      Identifies (registered empty history) contract others contract.conId := by
  intro hall
  have hagain := (hall [] (stock 0 "AAPL") []).2
  exact absurd (congrArg Prod.fst hagain) (by decide)

/-! ### The id that is a refusal -/

theorem callSound_iff {m : TickerMap} (hm : Consistent m) (contract : IbContract) :
    CallSound m contract ↔ ¬ NewMinusOne m contract := by
  constructor
  · rintro hsound ⟨hid, hnone⟩
    have hnone' : m.getSubscriptionKeyFromId (m.tickerIdOf contract) = none := by rwa [hid]
    obtain ⟨hfirst, hbound⟩ := fst_registerContract_of_not_refused (not_refused_of_none hnone')
    have hsame := hsound.refused (by rw [hfirst, hid])
    rw [hsame, hnone'] at hbound
    cases hbound
  · intro hnew
    have hconsistent : Consistent (m.registerContract contract).2 := consistent_registerContract hm
    rcases free_or_own_or_refused m (m.tickerIdOf contract) (symbolFromContract contract)
      with hnone | hown | hrefused
    · obtain ⟨hfirst, hbound⟩ := fst_registerContract_of_not_refused (not_refused_of_none hnone)
      refine ⟨fun hminus => ?_, fun _ => by rw [hfirst, hbound], hconsistent⟩
      rw [hfirst] at hminus
      rw [hminus] at hnone
      exact absurd ⟨hminus, hnone⟩ hnew
    · have hagain := registerContract_of_some hown
      exact ⟨fun _ => by rw [hagain], fun _ => by rw [hagain, hown], hconsistent⟩
    · have hsame := registerContract_of_refused hrefused
      refine ⟨fun _ => by rw [hsame], fun hne => ?_, hconsistent⟩
      exact absurd (by rw [hsame]) hne

/-- The ids that registrations return can be relied on throughout a history if and
only if no contract is registered under -1. -/
theorem sound_iff (contracts : List IbContract) :
    Sound contracts ↔ ∀ pre contract post, contracts = pre ++ contract :: post →
      ¬ NewMinusOne (registered empty pre) contract := by
  constructor
  · intro hsound pre contract post hsplit
    have hconsistent := consistent_registered consistent_empty pre
    exact (callSound_iff hconsistent contract).mp (hsound.calls pre contract post hsplit)
  · intro hnone
    constructor
    · rintro pre post rfl
      rw [registered, registered, List.foldl_append]
      exact extends_registered (consistent_registered consistent_empty pre) post
    · intro pre contract post hsplit
      have hconsistent := consistent_registered consistent_empty pre
      exact (callSound_iff hconsistent contract).mpr (hnone pre contract post hsplit)

theorem not_all_sound : ¬ ∀ contracts, Sound contracts := by
  intro hall
  have hcall := (hall [stock (-1) "AAPL"]).calls [] _ [] rfl
  have hsame := congrArg (fun m => m.getSubscriptionKeyFromId (-1)) (hcall.refused (by decide))
  exact absurd hsame (by decide)

end Atp.ContractRegistry

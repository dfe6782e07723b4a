import Atp.OrderMarshall

/-!
Orders of the API turned into messages and back.  A message is made field by field,
and its order may lack an action or a contract; only an order that has both is
turned back.
-/

namespace Atp.OrderFields

open OrderMarshall

/-! ### Messages that may lack a required field -/

structure ProtoOrder where
  id : Option UInt64 := none
  ref : Option Text := none
  action : Option Action := none
  contract : Option Contract := none
  quantity : Option UInt32 := none
  allOrNone : Option Bool := none
  minQuantity : Option UInt32 := none
  outsideRth : Option Bool := none
  timeInForce : Option TimeInForce := none

/-- The initialized message, where `IsInitialized` returns true. -/
def ProtoOrder.initialized (p : ProtoOrder) : Option Order := do
  let id ← p.id
  let action ← p.action
  let contract ← p.contract
  let quantity ← p.quantity
  some {
    id := id
    ref := p.ref
    action := action
    contract := contract
    quantity := quantity
    allOrNone := p.allOrNone
    minQuantity := p.minQuantity
    outsideRth := p.outsideRth
    timeInForce := p.timeInForce }

inductive OrderMessage where
  | marketOrder (order : ProtoOrder)
  | limitOrder (order : ProtoOrder) (limitPrice : Option Money)
  | stopLimitOrder (order : ProtoOrder) (limitPrice stopPrice : Option Money)

/-- `mutable_order()->mutable_contract()->CopyFrom(contract)`. -/
def OrderMessage.attach (contract : Contract) : OrderMessage → OrderMessage
  | marketOrder order => marketOrder { order with contract := some contract }
  | limitOrder order limitPrice =>
      limitOrder { order with contract := some contract } limitPrice
  | stopLimitOrder order limitPrice stopPrice =>
      stopLimitOrder { order with contract := some contract } limitPrice stopPrice

/-! ### From the API -/

def actionOf (action : Text) : Option Action :=
  if action = "BUY".toList then some .buy
  else if action = "SELL".toList then some .sell
  else if action = "SSHORT".toList then some .sshort
  else none

def timeInForceOf (tif : Text) : Option TimeInForce :=
  if tif = "DAY".toList then some .day
  else if tif = "GTC".toList then some .gtc
  else if tif = "IOC".toList then some .ioc
  else none

/-- `operator<<` on an `Order` message, where it returns true. -/
def orderToProto (o : IbOrder) : Option ProtoOrder :=
  some {
    id := some o.orderId.toUInt64
    ref := some o.orderRef
    action := actionOf o.action
    quantity := some o.totalQuantity.toUInt64.toUInt32
    allOrNone := some o.allOrNone
    minQuantity := some o.minQty.toUInt32
    outsideRth := some o.outsideRth
    timeInForce := timeInForceOf o.tif }

inductive OrderType where
  | market | limit | stopLimit
deriving DecidableEq

def marketOrderToProto (o : IbOrder) : Option OrderMessage :=
  (orderToProto o).map .marketOrder

def limitOrderToProto (o : IbOrder) : Option OrderMessage :=
  (orderToProto o).map fun order => .limitOrder order (some { amount := o.lmtPrice })

def stopLimitOrderToProto (o : IbOrder) : Option OrderMessage :=
  (orderToProto o).map fun order =>
    .stopLimitOrder order (some { amount := o.lmtPrice }) (some { amount := o.auxPrice })

def toProto : OrderType → IbOrder → Option OrderMessage
  | .market => marketOrderToProto
  | .limit => limitOrderToProto
  | .stopLimit => stopLimitOrderToProto

/-! ### Back to the API -/

def amountOf (price : Option Money) : Double := (price.map Money.amount).getD ⟨0⟩

/-- `operator<<` from an `Order` message, where it returns true. -/
def orderFromProto (o : IbOrder) (p : ProtoOrder) : Option IbOrder :=
  p.initialized.map (marshall o)

/-- `operator<<` from a message that places an order, where it returns true. -/
def fromProto (o : IbOrder) : OrderMessage → Option IbOrder
  | .marketOrder order => orderFromProto o order
  | .limitOrder order limitPrice =>
      (orderFromProto o order).map fun o => { o with lmtPrice := amountOf limitPrice }
  | .stopLimitOrder order limitPrice stopPrice =>
      (orderFromProto o order).map fun o =>
        { o with lmtPrice := amountOf limitPrice, auxPrice := amountOf stopPrice }

/-- The fields of an order, and the prices of its type, are the same. -/
structure Preserved (type : OrderType) (o' o : IbOrder) : Prop where
  orderId : o'.orderId = o.orderId
  orderRef : o'.orderRef = o.orderRef
  action : o'.action = o.action
  totalQuantity : o'.totalQuantity = o.totalQuantity
  allOrNone : o'.allOrNone = o.allOrNone
  minQty : o'.minQty = o.minQty
  outsideRth : o'.outsideRth = o.outsideRth
  tif : o'.tif = o.tif
  limitPrice : type ≠ .market → o'.lmtPrice = o.lmtPrice
  stopPrice : type = .stopLimit → o'.auxPrice = o.auxPrice

/-- The message of an order, with a contract, is turned back into that order. -/
def ComesBack (new : NewOrder) (type : OrderType) (contract : Contract) (o : IbOrder)
    (message : OrderMessage) : Prop :=
  ∃ o', fromProto new.order (message.attach contract) = some o' ∧ Preserved type o' o

/-! ### Texts and enumerations -/

theorem actionText_eq_iff {action : Action} {text : Text} :
    actionOf text = some action ↔ actionText action = text := by
  unfold actionOf
  constructor
  · intro haction
    split_ifs at haction with hbuy hsell hsshort
    · obtain rfl := Option.some.inj haction
      exact hbuy.symm
    · obtain rfl := Option.some.inj haction
      exact hsell.symm
    · obtain rfl := Option.some.inj haction
      exact hsshort.symm
  · rintro rfl
    cases action <;> rfl

theorem tifText_eq_iff {tif : TimeInForce} {text : Text} :
    timeInForceOf text = some tif ↔ tifText tif = text := by
  unfold timeInForceOf
  constructor
  · intro htif
    split_ifs at htif with hday hgtc hioc
    · obtain rfl := Option.some.inj htif
      exact hday.symm
    · obtain rfl := Option.some.inj htif
      exact hgtc.symm
    · obtain rfl := Option.some.inj htif
      exact hioc.symm
  · rintro rfl
    cases tif <;> rfl

/-- The default of a missing time in force is `IOC`. -/
theorem tifText_getD_iff {text : Text} :
    tifText ((timeInForceOf text).getD .ioc) = text ↔ ∃ tif, tifText tif = text := by
  constructor
  · intro htext
    exact ⟨_, htext⟩
  · rintro ⟨tif, htif⟩
    rw [tifText_eq_iff.mpr htif]
    exact htif

/-! ### There and back -/

theorem quantity_back {i : Int64} (hi : 0 ≤ i.toInt ∧ i.toInt < 2 ^ 32) :
    Int64.ofNat i.toUInt64.toUInt32.toNat = i := by
  have hnat := LexicalCast.toNat_toUInt64 hi.1
  have hquantity : i.toUInt64.toUInt32.toNat = i.toUInt64.toNat := by
    rw [UInt64.toNat_toUInt32]
    exact Nat.mod_eq_of_lt (by omega)
  apply Int64.toInt_inj.mp
  rw [hquantity, Int64.toInt_ofNat_of_lt (by omega), hnat]

/-- The order of a message with a contract, if it has an action. -/
theorem orderFromProto_attach_iff (new : NewOrder) (contract : Contract) {o o' : IbOrder}
    {p : ProtoOrder} (hp : orderToProto o = some p) :
    orderFromProto new.order { p with contract := some contract } = some o' ↔
      ∃ action, actionOf o.action = some action ∧
        o' = { new.order with
          orderId := o.orderId
          orderRef := o.orderRef
          action := actionText action
          totalQuantity := Int64.ofNat o.totalQuantity.toUInt64.toUInt32.toNat
          allOrNone := o.allOrNone
          minQty := o.minQty
          outsideRth := o.outsideRth
          tif := tifText ((timeInForceOf o.tif).getD .ioc) } := by
  obtain rfl := Option.some.inj hp
  unfold orderFromProto ProtoOrder.initialized
  cases haction : actionOf o.action with
  | none => simp
  | some action =>
      simp [marshall, Order.getRef, Order.getAllOrNone, Order.getMinQuantity,
        Order.getOutsideRth, Order.getTimeInForce, eq_comm]

/-- Prices that are copied change nothing else. -/
theorem preserved_iff {type : OrderType} {o' o : IbOrder} {lmtPrice auxPrice : Double}
    (hlimit : type ≠ .market → lmtPrice = o.lmtPrice)
    (hstop : type = .stopLimit → auxPrice = o.auxPrice) :
    Preserved type { o' with lmtPrice := lmtPrice, auxPrice := auxPrice } o ↔
      Preserved .market o' o := by
  constructor
  · intro h
    exact ⟨h.orderId, h.orderRef, h.action, h.totalQuantity, h.allOrNone, h.minQty,
      h.outsideRth, h.tif, fun hne => absurd rfl hne, nofun⟩
  · intro h
    exact ⟨h.orderId, h.orderRef, h.action, h.totalQuantity, h.allOrNone, h.minQty,
      h.outsideRth, h.tif, hlimit, hstop⟩

theorem exists_preserved_map_iff {type : OrderType} {o : IbOrder} {f : IbOrder → IbOrder}
    (hf : ∀ o', Preserved type (f o') o ↔ Preserved .market o' o) (result : Option IbOrder) :
    (∃ o', result.map f = some o' ∧ Preserved type o' o) ↔
      ∃ o', result = some o' ∧ Preserved .market o' o := by
  constructor
  · rintro ⟨o', ho', hpreserved⟩
    obtain ⟨o'', ho'', rfl⟩ := Option.map_eq_some_iff.mp ho'
    exact ⟨o'', ho'', (hf o'').mp hpreserved⟩
  · rintro ⟨o', rfl, hpreserved⟩
    exact ⟨f o', rfl, (hf o').mpr hpreserved⟩

/-- The prices of every type come back, so an order comes back as far as the order in
its message does. -/
theorem comesBack_iff_order {new : NewOrder} {type : OrderType} {contract : Contract}
    {o : IbOrder} {message : OrderMessage} {p : ProtoOrder} (hp : orderToProto o = some p)
    (hmessage : toProto type o = some message) :
    ComesBack new type contract o message ↔
      ∃ o', orderFromProto new.order { p with contract := some contract } = some o' ∧
        Preserved .market o' o := by
  cases type with
  | market =>
      rw [toProto, marketOrderToProto, hp] at hmessage
      obtain rfl := Option.some.inj hmessage
      exact Iff.rfl
  | limit =>
      rw [toProto, limitOrderToProto, hp] at hmessage
      obtain rfl := Option.some.inj hmessage
      apply exists_preserved_map_iff
      intro o'
      exact @preserved_iff .limit o' o _ o'.auxPrice (fun _ => rfl) nofun
  | stopLimit =>
      rw [toProto, stopLimitOrderToProto, hp] at hmessage
      obtain rfl := Option.some.inj hmessage
      apply exists_preserved_map_iff
      intro o'
      exact @preserved_iff .stopLimit o' o _ _ (fun _ => rfl) fun _ => rfl

/-- A converted order comes back if and only if its action and its time in force are
among those that a message can have. -/
theorem comesBack_iff (new : NewOrder) (type : OrderType) (contract : Contract) (o : IbOrder)
    (message : OrderMessage)
    (hquantity : 0 ≤ o.totalQuantity.toInt ∧ o.totalQuantity.toInt < 2 ^ 32)
    (hmessage : toProto type o = some message) :
    ComesBack new type contract o message ↔
      (∃ action, actionText action = o.action) ∧ ∃ tif, tifText tif = o.tif := by
  obtain ⟨p, hp⟩ : ∃ p, orderToProto o = some p := ⟨_, rfl⟩
  rw [comesBack_iff_order hp hmessage, ← tifText_getD_iff]
  constructor
  · rintro ⟨o', ho', hpreserved⟩
    obtain ⟨action, haction, rfl⟩ := (orderFromProto_attach_iff new contract hp).mp ho'
    exact ⟨⟨action, actionText_eq_iff.mp haction⟩, hpreserved.tif⟩
  · rintro ⟨⟨action, haction⟩, htif⟩
    refine ⟨_, (orderFromProto_attach_iff new contract hp).mpr
      ⟨action, actionText_eq_iff.mpr haction, rfl⟩, ?_⟩
    exact {
      orderId := rfl
      orderRef := rfl
      action := haction
      totalQuantity := quantity_back hquantity
      allOrNone := rfl
      minQty := rfl
      outsideRth := rfl
      tif := htif
      limitPrice := fun hne => absurd rfl hne
      stopPrice := nofun }

/-- A limit order for a hundred shares, as the API has it. -/
def ibLimitOrder (action tif : Text) : IbOrder :=
  ⟨1, [], action, 100, "LMT".toList, ⟨0x4082c00000000000⟩, ⟨0⟩, tif, false, true, 10⟩

def aapl : Contract := { id := 265598, symbol := "AAPL".toList }

theorem comesBack_iff_limitOrder :
    ∃ message, toProto .limit (ibLimitOrder "BUY".toList "DAY".toList) = some message ∧
      (ComesBack newOrder .limit aapl (ibLimitOrder "BUY".toList "DAY".toList) message ↔
        (∃ action, actionText action = (ibLimitOrder "BUY".toList "DAY".toList).action) ∧
          ∃ tif, tifText tif = (ibLimitOrder "BUY".toList "DAY".toList).tif) :=
  ⟨_, rfl, comesBack_iff newOrder .limit aapl _ _ (by decide) rfl⟩

/-- An order that is good until a date comes back as one that is immediate or
cancelled. -/
theorem not_comesBack_gtd :
    ∃ message, toProto .limit (ibLimitOrder "BUY".toList "GTD".toList) = some message ∧
      ¬ ComesBack newOrder .limit aapl (ibLimitOrder "BUY".toList "GTD".toList) message := by
  refine ⟨_, rfl, ?_⟩
  rintro ⟨o', ho', hpreserved⟩
  obtain rfl := Option.some.inj ho'
  have htif := hpreserved.tif
  contradiction

end Atp.OrderFields

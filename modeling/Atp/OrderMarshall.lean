import Atp.MarketRequests

/-!
The order messages and the orders that they place.  An order is the one that the
API's constructor makes, with the fields of the message copied over it, some of
them only where the message has them.
-/

namespace Atp.OrderMarshall

/-! ### `ib.proto` -/

inductive Action where
  | buy | sell | sshort
deriving DecidableEq

inductive TimeInForce where
  | day | gtc | ioc
deriving DecidableEq

structure Order where
  id : UInt64
  ref : Option Text := none
  action : Action
  contract : Contract
  quantity : UInt32
  allOrNone : Option Bool := none
  minQuantity : Option UInt32 := none
  outsideRth : Option Bool := none
  timeInForce : Option TimeInForce := none

namespace Order

def getRef (o : Order) : Text := o.ref.getD []

def getAllOrNone (o : Order) : Bool := o.allOrNone.getD true

def getMinQuantity (o : Order) : UInt32 := o.minQuantity.getD 0

def getOutsideRth (o : Order) : Bool := o.outsideRth.getD false

def getTimeInForce (o : Order) : TimeInForce := o.timeInForce.getD .ioc

end Order

/-- The three messages that place an order. -/
inductive Request where
  | marketOrder (order : Order)
  | limitOrder (order : Order) (limitPrice : Money)
  | stopLimitOrder (order : Order) (limitPrice stopPrice : Money)

namespace Request

def order : Request → Order
  | marketOrder order => order
  | limitOrder order _ => order
  | stopLimitOrder order _ _ => order

def limitPrice : Request → Option Money
  | marketOrder _ => none
  | limitOrder _ limitPrice => some limitPrice
  | stopLimitOrder _ limitPrice _ => some limitPrice

def stopPrice : Request → Option Money
  | marketOrder _ => none
  | limitOrder _ _ => none
  | stopLimitOrder _ _ stopPrice => some stopPrice

end Request

/-! ### The API -/

structure IbOrder where
  orderId : Int64
  orderRef : Text
  action : Text
  totalQuantity : Int64
  orderType : Text
  lmtPrice : Double
  auxPrice : Double
  tif : Text
  outsideRth : Bool
  allOrNone : Bool
  minQty : Int32
deriving DecidableEq

/-- The order that the API's constructor makes, with its two documented defaults. -/
structure NewOrder where
  order : IbOrder
  allOrNone : order.allOrNone = false
  outsideRth : order.outsideRth = false

structure PlaceOrder where
  orderId : Int64
  contract : IbContract
  order : IbOrder

def actionText : Action → Text
  | .buy => "BUY".toList
  | .sell => "SELL".toList
  | .sshort => "SSHORT".toList

def tifText : TimeInForce → Text
  | .day => "DAY".toList
  | .gtc => "GTC".toList
  | .ioc => "IOC".toList

/-- `operator<<` from an `Order` message, which is initialized. -/
def marshall (o : IbOrder) (p : Order) : IbOrder :=
  { o with
    orderId := p.id.toInt64
    orderRef := p.getRef
    action := actionText p.action
    totalQuantity := Int64.ofNat p.quantity.toNat
    allOrNone := if p.allOrNone.isSome then p.getAllOrNone else o.allOrNone
    minQty := if p.minQuantity.isSome then p.getMinQuantity.toInt32 else o.minQty
    outsideRth := if p.outsideRth.isSome then p.getOutsideRth else o.outsideRth
    tif := tifText p.getTimeInForce }

def marshallMarketOrder (o : IbOrder) (p : Order) : IbOrder := marshall o p

def marshallLimitOrder (o : IbOrder) (p : Order) (limitPrice : Money) : IbOrder :=
  { marshall o p with lmtPrice := limitPrice.amount }

def marshallStopLimitOrder (o : IbOrder) (p : Order) (limitPrice stopPrice : Money) : IbOrder :=
  { marshall o p with lmtPrice := limitPrice.amount, auxPrice := stopPrice.amount }

/-- The call of a request whose order was converted, if the contract converts. -/
def placeOrder (p : Order) (orderType : Text) (o : IbOrder) : Option PlaceOrder :=
  (MarketRequests.marshall p.contract).map fun contract =>
    ⟨p.id.toInt64, contract, { o with orderType := orderType }⟩

/-- `callApi`, where it returns true. -/
def callApi (new : NewOrder) : Request → Option PlaceOrder
  | .marketOrder p => placeOrder p "MKT".toList (marshallMarketOrder new.order p)
  | .limitOrder p limitPrice =>
      placeOrder p "LMT".toList (marshallLimitOrder new.order p limitPrice)
  | .stopLimitOrder p limitPrice stopPrice =>
      placeOrder p "STPLMT".toList (marshallStopLimitOrder new.order p limitPrice stopPrice)

/-- The order has the value of every field of the message, or its default. -/
structure Carries (request : Request) (o : IbOrder) : Prop where
  action : o.action = actionText request.order.action
  quantity : o.totalQuantity.toInt = request.order.quantity.toNat
  allOrNone : o.allOrNone = request.order.getAllOrNone
  outsideRth : o.outsideRth = request.order.getOutsideRth
  timeInForce : o.tif = tifText request.order.getTimeInForce
  minQuantity : ∀ q, request.order.minQuantity = some q → o.minQty.toInt = q.toNat
  limitPrice : ∀ m, request.limitPrice = some m → o.lmtPrice = m.amount
  stopPrice : ∀ m, request.stopPrice = some m → o.auxPrice = m.amount

/-! ### What is placed -/

theorem order_of_placeOrder {p : Order} {orderType : Text} {o : IbOrder} {call : PlaceOrder}
    (hcall : placeOrder p orderType o = some call) :
    call.order = { o with orderType := orderType } := by
  obtain ⟨contract, -, rfl⟩ := Option.map_eq_some_iff.mp hcall
  rfl

/-- The placed order is the converted message with the prices that it has. -/
theorem order_of_callApi {new : NewOrder} {request : Request} {call : PlaceOrder}
    (hcall : callApi new request = some call) :
    ∃ orderType lmtPrice auxPrice,
      call.order = { marshall new.order request.order with
        orderType := orderType, lmtPrice := lmtPrice, auxPrice := auxPrice } ∧
      (∀ m, request.limitPrice = some m → lmtPrice = m.amount) ∧
      (∀ m, request.stopPrice = some m → auxPrice = m.amount) := by
  cases request with
  | marketOrder p => exact ⟨_, _, _, order_of_placeOrder hcall, nofun, nofun⟩
  | limitOrder p limitPrice =>
      have horder := order_of_placeOrder hcall
      refine ⟨_, _, _, horder, ?_, nofun⟩
      rintro m ⟨⟩
      rfl
  | stopLimitOrder p limitPrice stopPrice =>
      have horder := order_of_placeOrder hcall
      refine ⟨_, _, _, horder, ?_, ?_⟩
      · rintro m ⟨⟩
        rfl
      · rintro m ⟨⟩
        rfl

theorem toInt_quantity (q : UInt32) : (Int64.ofNat q.toNat).toInt = q.toNat := by
  have hlt := q.toNat_lt
  exact Int64.toInt_ofNat_of_lt (by omega)

theorem toInt_toInt32_iff (q : UInt32) : q.toInt32.toInt = q.toNat ↔ q.toNat < 2 ^ 31 := by
  have hlt := q.toNat_lt
  change q.toBitVec.toInt = q.toBitVec.toNat ↔ q.toBitVec.toNat < 2 ^ 31
  rw [BitVec.toInt_eq_toNat_cond]
  split_ifs <;> omega

theorem allOrNone_marshall_iff (new : NewOrder) (p : Order) :
    (marshall new.order p).allOrNone = p.getAllOrNone ↔ p.allOrNone.isSome = true := by
  unfold marshall Order.getAllOrNone
  dsimp only
  rw [new.allOrNone]
  cases p.allOrNone <;> simp

theorem outsideRth_marshall (new : NewOrder) (p : Order) :
    (marshall new.order p).outsideRth = p.getOutsideRth := by
  unfold marshall Order.getOutsideRth
  dsimp only
  rw [new.outsideRth]
  cases p.outsideRth <;> simp

theorem minQty_marshall_iff (new : NewOrder) (p : Order) :
    (∀ q, p.minQuantity = some q → (marshall new.order p).minQty.toInt = q.toNat) ↔
      ∀ q, p.minQuantity = some q → q.toNat < 2 ^ 31 := by
  apply forall₂_congr
  intro q hq
  rw [← toInt_toInt32_iff, marshall]
  dsimp only
  rw [hq, Option.isSome_some, if_pos rfl, Order.getMinQuantity, hq, Option.getD_some]

/-- A placed order carries its message if and only if the message says whether it
is all or none, and its smallest quantity fits an `int`. -/
theorem carries_iff (new : NewOrder) (request : Request) (call : PlaceOrder)
    (hcall : callApi new request = some call) :
    Carries request call.order ↔
      request.order.allOrNone.isSome = true ∧
        ∀ q, request.order.minQuantity = some q → q.toNat < 2 ^ 31 := by
  obtain ⟨orderType, lmtPrice, auxPrice, horder, hlimit, hstop⟩ := order_of_callApi hcall
  rw [horder]
  constructor
  · intro hcarries
    exact ⟨(allOrNone_marshall_iff new _).mp hcarries.allOrNone,
      (minQty_marshall_iff new _).mp hcarries.minQuantity⟩
  · rintro ⟨hall, hmin⟩
    exact {
      action := rfl
      quantity := toInt_quantity _
      allOrNone := (allOrNone_marshall_iff new _).mpr hall
      outsideRth := outsideRth_marshall new _
      timeInForce := rfl
      minQuantity := (minQty_marshall_iff new _).mpr hmin
      limitPrice := hlimit
      stopPrice := hstop }

/-- The order of the constructor, as far as it is documented. -/
def newOrder : NewOrder where
  order := ⟨0, [], [], 0, [], ⟨0⟩, ⟨0⟩, [], false, false, 2147483647⟩
  allOrNone := rfl
  outsideRth := rfl

/-- A limit order for a hundred shares. -/
def aaplOrder (allOrNone : Option Bool) : Request :=
  .limitOrder
    { id := 1
      action := .buy
      contract := { id := 265598, symbol := "AAPL".toList }
      quantity := 100
      allOrNone := allOrNone
      minQuantity := some 10 }
    { amount := ⟨0x4082c00000000000⟩ }

theorem carries_iff_aaplOrder :
    ∃ call, callApi newOrder (aaplOrder (some true)) = some call ∧
      (Carries (aaplOrder (some true)) call.order ↔
        (aaplOrder (some true)).order.allOrNone.isSome = true ∧
          ∀ q, (aaplOrder (some true)).order.minQuantity = some q → q.toNat < 2 ^ 31) :=
  ⟨_, rfl, carries_iff newOrder (aaplOrder (some true)) _ rfl⟩

/-- Left out, all or none is true in the message and false in the order. -/
theorem not_carries_default :
    ∃ call, callApi newOrder (aaplOrder none) = some call ∧
      ¬ Carries (aaplOrder none) call.order := by
  refine ⟨_, rfl, ?_⟩
  intro hcarries
  have hall := hcarries.allOrNone
  contradiction

end Atp.OrderMarshall

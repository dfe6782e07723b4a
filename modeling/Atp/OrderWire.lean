import Atp.OrderMarshall
import Atp.RecordWire

/-!
A wire format for contracts and orders, built like the one for records.
-/

namespace Atp.OrderWire

open Wire RecordWire OrderMarshall

def bool : Wire Bool :=
  nat.iso (fun n => n != 0) (fun b => if b then 1 else 0) (fun b => by cases b <;> rfl)

def int32 : Wire Int32 := uint32.iso UInt32.toInt32 Int32.toUInt32 (by simp)

def currency : Wire Currency :=
  nat.iso (fun n => match n with | 0 => .other | _ => .usd)
    (fun c => match c with | .other => 0 | .usd => 1) (fun c => by cases c <;> rfl)

def money : Wire Money :=
  (double.pair (optional currency)).iso (fun f => ⟨f.1, f.2⟩) (fun m => (m.amount, m.currency))
    fun _ => rfl

def date : Wire Date :=
  (int32.pair (int32.pair int32)).iso (fun f => ⟨f.1, f.2.1, f.2.2⟩)
    (fun d => (d.year, d.month, d.day)) fun _ => rfl

def contractType : Wire ContractType :=
  nat.iso (fun n => match n with | 0 => .index | 1 => .stock | _ => .option)
    (fun t => match t with | .index => 0 | .stock => 1 | .option => 2)
    (fun t => by cases t <;> rfl)

def right : Wire Right :=
  nat.iso (fun n => match n with | 0 => .put | _ => .call)
    (fun r => match r with | .put => 0 | .call => 1) (fun r => by cases r <;> rfl)

def contract : Wire Contract :=
  (uint64.pair (text.pair ((optional contractType).pair ((optional text).pair
      ((optional text).pair ((optional right).pair ((optional money).pair
        ((optional date).pair (optional int32))))))))).iso
    (fun f => ⟨f.1, f.2.1, f.2.2.1, f.2.2.2.1, f.2.2.2.2.1, f.2.2.2.2.2.1, f.2.2.2.2.2.2.1,
      f.2.2.2.2.2.2.2.1, f.2.2.2.2.2.2.2.2⟩)
    (fun c => (c.id, c.symbol, c.type, c.exchange, c.localSymbol, c.right, c.strike, c.expiry,
      c.multiplier))
    fun _ => rfl

def action : Wire Action :=
  nat.iso (fun n => match n with | 0 => .buy | 1 => .sell | _ => .sshort)
    (fun a => match a with | .buy => 0 | .sell => 1 | .sshort => 2)
    (fun a => by cases a <;> rfl)

def timeInForce : Wire TimeInForce :=
  nat.iso (fun n => match n with | 0 => .day | 1 => .gtc | _ => .ioc)
    (fun t => match t with | .day => 0 | .gtc => 1 | .ioc => 2) (fun t => by cases t <;> rfl)

def order : Wire Order :=
  (uint64.pair ((optional text).pair (action.pair (contract.pair (uint32.pair
      ((optional bool).pair ((optional uint32).pair ((optional bool).pair
        (optional timeInForce))))))))).iso
    (fun f => ⟨f.1, f.2.1, f.2.2.1, f.2.2.2.1, f.2.2.2.2.1, f.2.2.2.2.2.1, f.2.2.2.2.2.2.1,
      f.2.2.2.2.2.2.2.1, f.2.2.2.2.2.2.2.2⟩)
    (fun o => (o.id, o.ref, o.action, o.contract, o.quantity, o.allOrNone, o.minQuantity,
      o.outsideRth, o.timeInForce))
    fun _ => rfl

end Atp.OrderWire

import Atp.DetailKeys
import Atp.PendingFutures

/-!
The contract manager: requests for contract details are put on the wire and then
registered, while a listener files the details that arrive and hands the end of a
request to the future that is registered under its id.
-/

namespace Atp.ContractManager

open ContractSymbol DetailKeys

abbrev RequestId := Int32

structure ContractDetailsEnd where
  timestamp : UInt64
  messageId : UInt64
  requestId : UInt32
deriving DecidableEq

/-- The details that the gateway publishes, which it has filed under the key of their
summary. -/
structure Published where
  details : ContractDetails
  filed : details.symbol = symbolFromContract details.summary

/-- The id of an end as the key of the pending requests. -/
def endKey (status : ContractDetailsEnd) : RequestId := status.requestId.toInt32

/-- `handled` records the details that were handled, the latest first. -/
structure State extends PendingFutures.State RequestId ContractDetailsEnd where
  contractDetails : Text → Option ContractDetails
  handled : List Published

def init : State where
  toState := PendingFutures.init
  contractDetails _ := none
  handled := []

inductive Action where
  | requestContractDetails (call : Nat) (id : RequestId) (sent : Bool)
  | register (call : Nat)
  | handleContractDetailsResponse (message : Option Published)
  | handleContractDetailsEnd (message : Option ContractDetailsEnd)

def isUsd (details : ContractDetails) : Bool :=
  decide (details.summary.getStrike.currency.getD .other = .usd)

/-- What happens to the pending requests. -/
def stepFutures (s : State) (action : PendingFutures.Action RequestId ContractDetailsEnd) :
    Option State :=
  (PendingFutures.step endKey s.toState action).map fun t => { s with toState := t }

/-- The two halves of `requestContractDetails`, and the handlers of the listener.  A
message that does not parse is dropped. -/
def step (s : State) : Action → Option State
  | .requestContractDetails call id sent => stepFutures s (.wire call id sent)
  | .register call => stepFutures s (.register call)
  | .handleContractDetailsResponse none => some s
  | .handleContractDetailsResponse (some resp) => some { s with
      contractDetails :=
        if isUsd resp.details then
          Function.update s.contractDetails resp.details.symbol (some resp.details)
        else s.contractDetails
      handled := resp :: s.handled }
  | .handleContractDetailsEnd none => some s
  | .handleContractDetailsEnd (some status) => stepFutures s (.respond status)

/-- `findContract`, where it returns true. -/
def findContract (s : State) (key : Text) : Option Contract :=
  (s.contractDetails key).map ContractDetails.summary

def findOptionContract (s : State) (symbol : Text) (expiry : Date) (strike : Double)
    (putOrCall : Right) : Option Contract :=
  findContract s
    (formatOptionContractKey symbol strike putOrCall expiry.year expiry.month expiry.day)

/-- The most recently handled details in US dollars for a key. -/
def mostRecent (handled : List Published) (key : Text) : Option Published :=
  handled.find? fun resp => isUsd resp.details && decide (resp.details.symbol = key)

/-- Every contract in US dollars that was handled is found under its key, and an option
by what its key is made of, with the most recent details for that key. -/
def Found (s : State) : Prop :=
  ∀ resp ∈ s.handled, isUsd resp.details = true →
    ∃ recent, mostRecent s.handled resp.details.symbol = some recent ∧
      findContract s resp.details.symbol = some recent.details.summary ∧
      (resp.details.summary.getType = .option →
        findOptionContract s resp.details.summary.symbol resp.details.summary.getExpiry
            resp.details.summary.getStrike.amount resp.details.summary.getRight =
          some recent.details.summary)

/-- Every request that was on the wire when its end was handled is answered, and the
contracts are found. -/
def Guaranteed (s : State) : Prop :=
  PendingFutures.Answered endKey s.toState ∧ Found s

/-- When an end is handled, every request with its id that is on the wire is the one
registered under the id, or has had its end. -/
def Settled (s : State) : Action → Prop
  | .handleContractDetailsEnd (some status) => ∀ call,
      PendingFutures.OnWire s.toState (endKey status) call →
        s.pending (endKey status) = some call ∨ (s.responses call).isSome
  | _ => True

/-! ### The details -/

/-- The gateway's details are filed under the key of their summary. -/
def ofApi {c : IbContractDetails} {p : ContractDetails} (hp : detailsToProto c = .ok p) :
    Published where
  details := p
  filed := by
    obtain ⟨expiry, -, hsummary, hsymbol⟩ := detailsToProto_eq_ok hp
    rw [hsymbol, hsummary]

/-- The store has, for every key, the most recent details in US dollars. -/
def Stored (s : State) : Prop :=
  ∀ key, s.contractDetails key = (mostRecent s.handled key).map Published.details

theorem symbol_of_option {resp : Published} (htype : resp.details.summary.getType = .option) :
    formatOptionContractKey resp.details.summary.symbol resp.details.summary.getStrike.amount
        resp.details.summary.getRight resp.details.summary.getExpiry.year
        resp.details.summary.getExpiry.month resp.details.summary.getExpiry.day =
      resp.details.symbol := by
  rw [resp.filed, symbolFromContract, htype]

theorem found_of_stored {s : State} (hs : Stored s) : Found s := by
  intro resp hresp husd
  have hsome : (mostRecent s.handled resp.details.symbol).isSome := by
    apply List.find?_isSome.mpr
    exact ⟨resp, hresp, Bool.and_eq_true_iff.mpr ⟨husd, decide_eq_true rfl⟩⟩
  obtain ⟨recent, hrecent⟩ := Option.isSome_iff_exists.mp hsome
  have hfind : findContract s resp.details.symbol = some recent.details.summary := by
    rw [findContract, hs, hrecent]
    rfl
  refine ⟨recent, hrecent, hfind, ?_⟩
  intro htype
  rw [findOptionContract, symbol_of_option htype, hfind]

theorem stored_init : Stored init := fun _ => rfl

/-- Details in US dollars replace those of their key, and others change nothing. -/
theorem mostRecent_cons (resp : Published) (handled : List Published) (key : Text) :
    mostRecent (resp :: handled) key =
      if isUsd resp.details = true ∧ key = resp.details.symbol then some resp
      else mostRecent handled key := by
  unfold mostRecent
  rw [List.find?_cons]
  split_ifs with h
  · rw [h.1, h.2, decide_eq_true rfl]
    rfl
  · have hfalse : (isUsd resp.details && decide (resp.details.symbol = key)) = false := by
      apply Bool.eq_false_iff.mpr
      intro htrue
      obtain ⟨husd, hkey⟩ := Bool.and_eq_true_iff.mp htrue
      exact h ⟨husd, (of_decide_eq_true hkey).symm⟩
    rw [hfalse]

theorem stepFutures_eq_some_iff {s s' : State}
    {action : PendingFutures.Action RequestId ContractDetailsEnd} :
    stepFutures s action = some s' ↔
      PendingFutures.step endKey s.toState action = some s'.toState ∧
        s'.contractDetails = s.contractDetails ∧ s'.handled = s.handled := by
  unfold stepFutures
  rw [Option.map_eq_some_iff]
  constructor
  · rintro ⟨t, ht, rfl⟩
    exact ⟨ht, rfl, rfl⟩
  · rintro ⟨ht, hdetails, hhandled⟩
    exact ⟨_, ht, by rw [← hdetails, ← hhandled]⟩

/-- A step either is one of the pending requests, settled alike, and leaves the details
alone, or leaves the pending requests alone and is settled. -/
theorem step_cases {s s' : State} {action : Action} (hstep : step s action = some s') :
    (∃ b, PendingFutures.step endKey s.toState b = some s'.toState ∧
      s'.contractDetails = s.contractDetails ∧ s'.handled = s.handled ∧
      (Settled s action ↔ PendingFutures.Settled endKey s.toState b)) ∨
    s'.toState = s.toState ∧ Settled s action ∧
      (s' = s ∨ ∃ resp : Published, s'.handled = resp :: s.handled ∧
        s'.contractDetails =
          if isUsd resp.details then
            Function.update s.contractDetails resp.details.symbol (some resp.details)
          else s.contractDetails) := by
  unfold step at hstep
  split at hstep
  · obtain ⟨hfutures, hdetails, hhandled⟩ := stepFutures_eq_some_iff.mp hstep
    exact .inl ⟨_, hfutures, hdetails, hhandled, Iff.rfl⟩
  · obtain ⟨hfutures, hdetails, hhandled⟩ := stepFutures_eq_some_iff.mp hstep
    exact .inl ⟨_, hfutures, hdetails, hhandled, Iff.rfl⟩
  · obtain rfl := Option.some.inj hstep
    exact .inr ⟨rfl, trivial, .inl rfl⟩
  · obtain rfl := Option.some.inj hstep
    exact .inr ⟨rfl, trivial, .inr ⟨_, rfl, rfl⟩⟩
  · obtain rfl := Option.some.inj hstep
    exact .inr ⟨rfl, trivial, .inl rfl⟩
  · obtain ⟨hfutures, hdetails, hhandled⟩ := stepFutures_eq_some_iff.mp hstep
    exact .inl ⟨_, hfutures, hdetails, hhandled, Iff.rfl⟩

theorem stored_of_step {s s' : State} {action : Action} (hs : Stored s)
    (hstep : step s action = some s') : Stored s' := by
  intro key
  rcases step_cases hstep with ⟨b, -, hdetails, hhandled, -⟩ |
    ⟨-, -, rfl | ⟨resp, hhandled, hdetails⟩⟩
  · rw [hdetails, hhandled]
    exact hs key
  · exact hs key
  · rw [hdetails, hhandled, mostRecent_cons]
    by_cases husd : isUsd resp.details = true
    · rw [if_pos husd]
      rcases eq_or_ne key resp.details.symbol with rfl | hne
      · rw [Function.update_self, if_pos ⟨husd, rfl⟩]
        rfl
      · rw [Function.update_of_ne hne, if_neg fun h => hne h.2]
        exact hs key
    · rw [if_neg husd, if_neg fun h => husd h.1]
      exact hs key

/-! ### Runs -/

structure Inv (s : State) : Prop where
  futures : PendingFutures.Inv endKey s.toState
  stored : Stored s

theorem inv_of_step {s s' : State} {action : Action} (hs : Inv s)
    (hstep : step s action = some s') (hsettled : Settled s action) : Inv s' := by
  refine ⟨?_, stored_of_step hs.stored hstep⟩
  rcases step_cases hstep with ⟨b, hfutures, -, -, hiff⟩ | ⟨hfutures, -, -⟩
  · exact PendingFutures.inv_of_step hs.futures hfutures (hiff.mp hsettled)
  · rw [hfutures]
    exact hs.futures

theorem not_guaranteed_of_step {s s' : State} {action : Action}
    (hstep : step s action = some s') (hsettled : ¬ Settled s action) : ¬ Guaranteed s' := by
  rintro ⟨hanswered, -⟩
  rcases step_cases hstep with ⟨b, hfutures, -, -, hiff⟩ | ⟨-, h, -⟩
  · exact PendingFutures.not_answered_of_step hfutures (fun h => hsettled (hiff.mpr h)) hanswered
  · exact hsettled h

/-- In every interleaving of requests with messages, the futures that are due are ready
and the contracts are found, in every state reached, if and only if the requests are
settled whenever an end is handled. -/
theorem guaranteed_iff_settled (actions : List Action) :
    Runs.Always step Guaranteed init actions ↔ Runs.Throughout step Settled init actions :=
  Runs.always_iff_throughout step
    (fun _ hs => ⟨hs.futures.answered, found_of_stored hs.stored⟩)
    (fun _ _ _ hs hstep hsettled => inv_of_step hs hstep hsettled)
    (fun _ _ _ _ hstep hsettled => not_guaranteed_of_step hstep hsettled)
    ⟨PendingFutures.inv_init endKey, stored_init⟩ actions

/-- The end of a request is handled before its pending entry is there. -/
theorem end_before_register :
    ¬ Runs.Always step Guaranteed init
      [.requestContractDetails 0 300 true, .handleContractDetailsEnd (some ⟨1, 1, 300⟩),
        .register 0] := by
  intro halways
  obtain ⟨hanswered, -⟩ := halways _ [] _ (List.append_nil _).symm rfl
  obtain ⟨request, response, -, hresponse, -⟩ := hanswered 0 (.inr ⟨_, rfl, rfl, rfl⟩)
  cases hresponse

end Atp.ContractManager

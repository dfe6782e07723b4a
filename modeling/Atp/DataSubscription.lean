import Atp.ContractFlow
import Atp.Firehose

/-!
The program that sets up data subscriptions.  It looks up the contract of each key that it is
given, asks for its details where it has none, and sends its requests to a session of the
firehose, which has other clients as well.  Ticks of what it has subscribed to come under the
keys that it was given.
-/

namespace Atp.DataSubscription

open ContractFlow ContractManager ContractSymbol

structure Flags where
  unsubscribe : Bool := false
  optionChain : Bool := false
  subscribe : Bool := true
  depth : Bool := false

def daysInMonth (year month : Int) : Int :=
  if month = 2 then
    if year % 4 = 0 ∧ (year % 100 ≠ 0 ∨ year % 400 = 0) then 29 else 28
  else if month = 4 ∨ month = 6 ∨ month = 9 ∨ month = 11 then 30
  else 31

/-- Whether the constructor of `boost::gregorian::date` accepts a date. -/
def isGregorian (date : Date) : Bool :=
  let year := date.year.toInt
  let month := date.month.toInt
  let day := date.day.toInt
  1400 ≤ year && year ≤ 9999 && 1 ≤ month && month ≤ 12 &&
    1 ≤ day && day ≤ daysInMonth year month

/-- What is left to do for a key whose contract was not found. -/
inductive Op where
  | request (call : Nat) (id : RequestId) (requested : Requested)
  | register (call : Nat)
  | find (call : Nat) (key : Text)

/-- The key that is to be looked up again. -/
def Op.key : Op → Option Text
  | request _ _ _ => none
  | register _ => none
  | find _ key => some key

/-- The requests for a key that was parsed; nothing if its date is not one. -/
def requests (flags : Flags) (out : Outputs) : Option (List Requested) :=
  match out.secType with
  | .stock =>
      some (.stock out.symbol :: if flags.optionChain then [.optionChain out.symbol] else [])
  | .option =>
      if isGregorian out.expiry then
        some [.option out.symbol out.expiry out.strike out.right]
      else none
  | .index => some [.index out.symbol]

/-- Each request takes the next number and the next id. -/
def asks : Nat → RequestId → List Requested → List Op
  | _, _, [] => []
  | call, id, requested :: rest =>
      .request call id requested :: .register call :: asks (call + 1) (id + 1) rest

/-- The contract manager, the keys that are left, the next id, the number of requests so far,
what is left to do for the last key, whether the program runs, and the firehose.  Noted are
the messages that were sent to it, with their keys. -/
structure State where
  manager : ContractManager.State
  keys : List Text
  request : RequestId
  calls : Nat
  todo : List Op
  running : Bool
  firehose : Firehose.State
  subscriptions : List (Text × Firehose.Message)

/-- The keys are separated by commas. -/
def init (symbols : Text) : State :=
  ⟨ContractManager.init, symbols.splitOn ',', 0, 0, [], true, Firehose.init, []⟩

section

variable (wires : Firehose.Wires) (flags : Flags) (session : Firehose.SessionId)

/-- `atp::send` at the given time; nothing if it throws. -/
def send (s : State) (key : Text) (m : Firehose.Message) : Option UInt64 → State
  | none => s
  | some now => { s with
      firehose := (Firehose.step wires s.firehose (.send session ⟨now, now, m⟩)).getD s.firehose
      subscriptions := s.subscriptions ++ [(key, m)] }

/-- The message that the flags ask for. -/
def subscription (contract : Contract) : Option Firehose.Message :=
  if flags.unsubscribe then some (.cancelMarketData contract)
  else if flags.subscribe then some (.request (.marketData { contract }))
  else none

/-- Market depth is asked for only after the details were. -/
def subscribe (s : State) (key : Text) (contract : Contract) (depth : Bool)
    (now depthNow : Option UInt64) : State :=
  match subscription flags contract with
  | none => s
  | some m =>
      let s := send wires session s key m now
      if !flags.unsubscribe && depth && now.isSome then
        send wires session s key (.request (.marketDepth { contract })) depthNow
      else s

/-- The head of the loop, with what the variables of its body happen to hold and the time of
the message; what comes next for the last key, with whether a request is sent and the times of
the messages; the two handlers of the contract manager's listener; and whatever else happens
at the firehose. -/
inductive Action where
  | next (uninitialized : Outputs) (now : Option UInt64)
  | perform (sent : Bool) (now depthNow : Option UInt64)
  | handleContractDetailsResponse (message : Option Published)
  | handleContractDetailsEnd (message : Option ContractDetailsEnd)
  | firehose (action : Firehose.Action)

/-- The next key.  A bad number in it or a date that is not one ends the program. -/
def next (s : State) (uninitialized : Outputs) (now : Option UInt64) : Option State :=
  match s.keys with
  | [] => none
  | key :: keys =>
      let s := { s with keys := keys }
      let skipped := { s with request := s.request + 1 }
      match findContract s.manager key with
      | some contract => some (subscribe wires flags session skipped key contract false now none)
      | none =>
          match parseEncodedSymbol key uninitialized with
          | .error _ => some { s with running := false }
          | .ok (false, _) => some skipped
          | .ok (true, out) =>
              match requests flags out with
              | none => some { s with running := false }
              | some rs => some { s with
                  request := s.request + Int32.ofNat rs.length
                  calls := s.calls + rs.length
                  todo := asks s.calls s.request rs ++ [.find s.calls key] }

/-- The calls of `get` return at any time, and what they return is not used. -/
def perform (s : State) (sent : Bool) (now depthNow : Option UInt64) : Option State :=
  match s.todo with
  | [] => none
  | .request call id _ :: todo =>
      (ContractManager.step s.manager (.requestContractDetails call id sent)).map
        fun manager => { s with manager := manager, todo := todo }
  | .register call :: todo =>
      (ContractManager.step s.manager (.register call)).map
        fun manager => { s with manager := manager, todo := todo }
  | .find call key :: todo =>
      let s := { s with todo := todo }
      if (s.manager.responses call).isSome then
        match findContract s.manager key with
        | some contract =>
            some (subscribe wires flags session s key contract flags.depth now depthNow)
        | none => some s
      else some s

def step (s : State) : Action → Option State
  | .next uninitialized now =>
      if s.running && s.todo.isEmpty then next wires flags session s uninitialized now else none
  | .perform sent now depthNow => perform wires flags session s sent now depthNow
  | .handleContractDetailsResponse message =>
      (ContractManager.step s.manager (.handleContractDetailsResponse message)).map
        fun manager => { s with manager := manager }
  | .handleContractDetailsEnd message =>
      (ContractManager.step s.manager (.handleContractDetailsEnd message)).map
        fun manager => { s with manager := manager }
  | .firehose action =>
      (Firehose.step wires s.firehose action).map fun firehose => { s with firehose := firehose }

end

/-! ### What is promised -/

def isDepthRequest : Firehose.Message → Bool
  | .request (.marketDepth _) => true
  | _ => false

/-- The keys of the messages, of which a request for market depth repeats the one before. -/
def subscribedKeys (subscriptions : List (Text × Firehose.Message)) : List Text :=
  (subscriptions.filter fun p => !isDepthRequest p.2).map Prod.fst

/-- A request for market depth repeats the key and the contract of the request for market
data before it. -/
def Follows (p q : Text × Firehose.Message) : Prop :=
  ∀ depth, q.2 = .request (.marketDepth depth) →
    p = (q.1, .request (.marketData { contract := depth.contract }))

/-- Every request for market depth comes right after one for market data that it follows. -/
structure DepthFollows (subscriptions : List (Text × Firehose.Message)) : Prop where
  first : ∀ p ∈ subscriptions.head?, isDepthRequest p.2 = false
  chain : subscriptions.IsChain Follows

/-- The messages that the flags allow. -/
def Wanted (flags : Flags) : Firehose.Message → Prop
  | .request (.marketData _) => flags.unsubscribe = false ∧ flags.subscribe = true
  | .request (.marketDepth _) =>
      flags.unsubscribe = false ∧ flags.subscribe = true ∧ flags.depth = true
  | .cancelMarketData _ => flags.unsubscribe = true
  | .cancelMarketDepth _ => False

/-- The contract manager has had details in US dollars of the contract under the key. -/
def KnownAs (m : ContractManager.State) (key : Text) (contract : Contract) : Prop :=
  ∃ resp ∈ m.handled, isUsd resp.details = true ∧ resp.details.symbol = key ∧
    resp.details.summary = contract

/-- A session has called its API for the contract. -/
def Called (api : Firehose.Api) (contract : Contract) : Prop :=
  ∃ session call, (session, .request call) ∈ api.calls ∧
    MarketRequests.marshall contract = some call.contract

theorem handled_of_step {m m' : ContractManager.State} {action : ContractManager.Action}
    (hstep : ContractManager.step m action = some m') : m.handled ⊆ m'.handled := by
  rcases step_cases hstep with ⟨-, -, -, hhandled, -⟩ | ⟨-, -, rfl | ⟨resp, hhandled, -⟩⟩
  · rw [hhandled]
    exact List.Subset.refl _
  · exact List.Subset.refl _
  · rw [hhandled]
    exact List.subset_cons_self _ _

theorem KnownAs.of_step {m m' : ContractManager.State} {action : ContractManager.Action}
    (hstep : ContractManager.step m action = some m') {key : Text} {contract : Contract}
    (hknown : KnownAs m key contract) : KnownAs m' key contract := by
  obtain ⟨resp, hresp, hrest⟩ := hknown
  exact ⟨resp, handled_of_step hstep hresp, hrest⟩

/-- A contract that is found has the key that it was looked up with. -/
theorem knownAs_of_findContract {m : ContractManager.State} (hm : Stored m) {key : Text}
    {contract : Contract} (hfind : findContract m key = some contract) :
    KnownAs m key contract := by
  obtain ⟨details, hdetails, rfl⟩ := Option.map_eq_some_iff.mp hfind
  rw [hm key] at hdetails
  obtain ⟨recent, hrecent, rfl⟩ := Option.map_eq_some_iff.mp hdetails
  have hboth := List.find?_some hrecent
  rw [Bool.and_eq_true, decide_eq_true_iff] at hboth
  exact ⟨recent, List.mem_of_find?_eq_some hrecent, hboth.1, hboth.2, rfl⟩

theorem KnownAs.symbol {m : ContractManager.State} {key : Text} {contract : Contract}
    (hknown : KnownAs m key contract) : symbolFromContract contract = key := by
  obtain ⟨resp, -, -, rfl, rfl⟩ := hknown
  exact resp.filed.symm

/-! ### Messages to the firehose -/

section

variable (wires : Firehose.Wires) (session : Firehose.SessionId)

/-- The state differs by these messages, which have been sent to the session. -/
structure Delivered (s s' : State) (new : List (Text × Firehose.Message)) : Prop where
  eq : s' = { s with firehose := s'.firehose, subscriptions := s.subscriptions ++ new }
  forwarded : (s'.firehose.sent session).map Firehose.Stamped.message =
    (s.firehose.sent session).map Firehose.Stamped.message ++ new.map Prod.snd
  inv : (∃ taken, Firehose.Inv wires s.firehose taken) →
    ∃ taken, Firehose.Inv wires s'.firehose taken

variable {wires session} {s s' s'' : State} {new new' : List (Text × Firehose.Message)}

theorem Delivered.refl (s : State) : Delivered wires session s s [] where
  eq := by simp
  forwarded := by simp
  inv h := h

theorem Delivered.trans (h : Delivered wires session s s' new)
    (h' : Delivered wires session s' s'' new') : Delivered wires session s s'' (new ++ new') where
  eq := by
    rw [h'.eq, h.eq, List.append_assoc]
  forwarded := by
    rw [h'.forwarded, h.forwarded, List.map_append, List.append_assoc]
  inv hs := h'.inv (h.inv hs)

variable (wires session) in
theorem delivered_send (s : State) (key : Text) (m : Firehose.Message) (now : Option UInt64) :
    Delivered wires session s (send wires session s key m now)
      (now.map fun _ => (key, m)).toList := by
  cases now with
  | none => exact Delivered.refl s
  | some now =>
      refine ⟨rfl, ?_, ?_⟩
      · simp [send, Firehose.step]
      · rintro ⟨taken, hinv⟩
        exact ⟨taken, hinv.send rfl⟩

theorem eq_of_mem_sent {now : Option UInt64} {x p : Text × Firehose.Message}
    (hp : p ∈ (now.map fun _ => x).toList) : p = x := by
  obtain ⟨t, -, rfl⟩ := Option.map_eq_some_iff.mp (Option.mem_toList.mp hp)
  rfl

theorem subscribedKeys_sent (now : Option UInt64) (key : Text) (m : Firehose.Message) :
    (subscribedKeys (now.map fun _ => (key, m)).toList).Sublist
      (if isDepthRequest m then [] else [key]) := by
  cases now <;> cases hdepth : isDepthRequest m <;> simp [subscribedKeys, hdepth]

theorem subscribedKeys_append (new new' : List (Text × Firehose.Message)) :
    subscribedKeys (new ++ new') = subscribedKeys new ++ subscribedKeys new' := by
  rw [subscribedKeys, List.filter_append, List.map_append]
  rfl

theorem depthFollows_nil : DepthFollows [] where
  first p hp := by cases hp
  chain := List.isChain_nil

theorem depthFollows_sent (now : Option UInt64) {x : Text × Firehose.Message}
    (hx : isDepthRequest x.2 = false) : DepthFollows (now.map fun _ => x).toList := by
  cases now with
  | none => exact depthFollows_nil
  | some now =>
      have hfirst : ∀ p ∈ [x].head?, isDepthRequest p.2 = false := by
        intro p hp
        rw [← Option.some.inj hp]
        exact hx
      exact ⟨hfirst, List.isChain_singleton x⟩

theorem follows_depth (key : Text) (contract : Contract) :
    Follows (key, .request (.marketData { contract }))
      (key, .request (.marketDepth { contract })) := by
  intro depth hdepth
  injection hdepth with hdepth
  injection hdepth with hdepth
  rw [← hdepth]

theorem depthFollows_sent_both {now : Option UInt64} (hnow : now.isSome = true)
    (depthNow : Option UInt64) (key : Text) (contract : Contract) :
    DepthFollows ((now.map fun _ =>
        (key, Firehose.Message.request (.marketData { contract }))).toList ++
      (depthNow.map fun _ =>
        (key, Firehose.Message.request (.marketDepth { contract }))).toList) := by
  obtain ⟨now, rfl⟩ := Option.isSome_iff_exists.mp hnow
  cases depthNow with
  | none => exact depthFollows_sent (some now) rfl
  | some depthNow =>
      have hfirst := (depthFollows_sent (some now)
        (x := (key, Firehose.Message.request (.marketData { contract }))) rfl).first
      exact ⟨hfirst, List.isChain_pair.mpr (follows_depth key contract)⟩

theorem DepthFollows.append (h : DepthFollows new) (h' : DepthFollows new') :
    DepthFollows (new ++ new') := by
  constructor
  · intro p hp
    rw [List.head?_append] at hp
    rcases Option.or_eq_some_iff.mp hp with hp | ⟨-, hp⟩
    · exact h.first p hp
    · exact h'.first p hp
  · refine List.isChain_append.mpr ⟨h.chain, h'.chain, fun p _ q hq depth hdepth => ?_⟩
    have hfirst := h'.first q hq
    rw [hdepth] at hfirst
    cases hfirst

variable {flags : Flags}

variable (wires session) in
/-- The messages for a contract are those that the flags allow, and its key is subscribed to
at most once. -/
theorem delivered_subscribe (s : State) (key : Text) (contract : Contract) {depth : Bool}
    (hdepth : depth = true → flags.depth = true) (now depthNow : Option UInt64) :
    ∃ new, Delivered wires session s
        (subscribe wires flags session s key contract depth now depthNow) new ∧
      (∀ p ∈ new, p.1 = key ∧ p.2.contract = contract ∧ Wanted flags p.2) ∧
      (subscribedKeys new).Sublist [key] ∧ DepthFollows new := by
  unfold subscribe subscription
  cases hunsubscribe : flags.unsubscribe with
  | true =>
      simp only [if_true, Bool.not_true, Bool.false_and, Bool.false_eq_true, if_false]
      refine ⟨_, delivered_send wires session s key (.cancelMarketData contract) now,
        fun p hp => ?_, subscribedKeys_sent now key _, depthFollows_sent now rfl⟩
      obtain rfl := eq_of_mem_sent hp
      exact ⟨rfl, rfl, hunsubscribe⟩
  | false =>
      cases hsubscribe : flags.subscribe with
      | false =>
          simp only [Bool.false_eq_true, if_false]
          exact ⟨[], Delivered.refl s, List.forall_mem_nil _, List.nil_sublist _,
            depthFollows_nil⟩
      | true =>
          simp only [Bool.false_eq_true, if_false, if_true, Bool.not_false, Bool.true_and]
          have hfirst := delivered_send wires session s key
            (.request (.marketData { contract })) now
          have hkeys := subscribedKeys_sent now key (.request (.marketData { contract }))
          have hwanted : ∀ p ∈ (now.map fun _ =>
              (key, Firehose.Message.request (.marketData { contract }))).toList,
              p.1 = key ∧ p.2.contract = contract ∧ Wanted flags p.2 := by
            intro p hp
            obtain rfl := eq_of_mem_sent hp
            exact ⟨rfl, rfl, hunsubscribe, hsubscribe⟩
          split_ifs with hboth
          · have hsecond := delivered_send wires session
              (send wires session s key (.request (.marketData { contract })) now) key
              (.request (.marketDepth { contract })) depthNow
            have hnone := List.sublist_nil.mp
              (subscribedKeys_sent depthNow key (.request (.marketDepth { contract })))
            have hnow := (Bool.and_eq_true_iff.mp hboth).2
            refine ⟨_, hfirst.trans hsecond, fun p hp => ?_, ?_,
              depthFollows_sent_both hnow depthNow key contract⟩
            · rcases List.mem_append.mp hp with hp | hp
              · exact hwanted p hp
              · obtain rfl := eq_of_mem_sent hp
                exact ⟨rfl, rfl, hunsubscribe, hsubscribe,
                  hdepth (Bool.and_eq_true_iff.mp hboth).1⟩
            · rw [subscribedKeys_append, hnone, List.append_nil]
              exact hkeys
          · exact ⟨_, hfirst, hwanted, hkeys, depthFollows_sent now rfl⟩

end

/-! ### Runs -/

section

variable (wires : Firehose.Wires) (flags : Flags) (session : Firehose.SessionId)

/-- The messages are for known contracts and in the order of the keys; the pending keys have
been taken from the list, and may still be subscribed to. -/
structure Inv (symbols : Text) (s : State) (pending : List Text) : Prop where
  stored : Stored s.manager
  firehose : ∃ taken, Firehose.Inv wires s.firehose taken
  known : ∀ p ∈ s.subscriptions, KnownAs s.manager p.1 p.2.contract
  wanted : ∀ p ∈ s.subscriptions, Wanted flags p.2
  forwarded : (s.subscriptions.map Prod.snd).Sublist
    ((s.firehose.sent session).map Firehose.Stamped.message)
  inOrder : ∃ done, symbols.splitOn ',' = done ++ s.keys ∧
    (subscribedKeys s.subscriptions ++ (pending ++ s.todo.filterMap Op.key)).Sublist done
  follows : DepthFollows s.subscriptions

variable {wires flags session} {symbols : Text} {s s' : State}

theorem inv_init (symbols : Text) : Inv wires flags session symbols (init symbols) [] where
  stored := stored_init
  firehose := ⟨[], Firehose.inv_init⟩
  known p hp := by cases hp
  wanted p hp := by cases hp
  forwarded := List.nil_sublist _
  inOrder := ⟨[], rfl, List.nil_sublist _⟩
  follows := depthFollows_nil

/-- A key is let go. -/
theorem Inv.close {key : Text} (hs : Inv wires flags session symbols s [key]) :
    Inv wires flags session symbols s [] := by
  obtain ⟨done, hkeys, hsublist⟩ := hs.inOrder
  refine { hs with inOrder := ⟨done, hkeys, List.Sublist.trans ?_ hsublist⟩ }
  exact List.Sublist.append (List.Sublist.refl _) (List.sublist_append_right _ _)

/-- The contract of a key is found. -/
theorem Inv.subscribe {key : Text} (hs : Inv wires flags session symbols s [key])
    {contract : Contract} (hfind : findContract s.manager key = some contract) {depth : Bool}
    (hdepth : depth = true → flags.depth = true) (now depthNow : Option UInt64) :
    Inv wires flags session symbols
      (subscribe wires flags session s key contract depth now depthNow) [] := by
  obtain ⟨new, hdelivered, hnew, honce, hfollows⟩ :=
    delivered_subscribe wires session s key contract hdepth now depthNow
  have hknown := knownAs_of_findContract hs.stored hfind
  obtain ⟨done, hkeys, hsublist⟩ := hs.inOrder
  have hforwarded := hdelivered.forwarded
  have hfirehose := hdelivered.inv hs.firehose
  rw [hdelivered.eq]
  refine ⟨hs.stored, hfirehose, ?_, ?_, ?_, ⟨done, hkeys, ?_⟩, hs.follows.append hfollows⟩
  · rw [List.forall_mem_append]
    refine ⟨hs.known, fun p hp => ?_⟩
    obtain ⟨hkey, hcontract, -⟩ := hnew p hp
    rw [hkey, hcontract]
    exact hknown
  · rw [List.forall_mem_append]
    exact ⟨hs.wanted, fun p hp => (hnew p hp).2.2⟩
  · rw [List.map_append, hforwarded]
    exact hs.forwarded.append (List.Sublist.refl _)
  · rw [subscribedKeys_append, List.append_assoc]
    exact ((List.Sublist.refl _).append (honce.append (List.Sublist.refl _))).trans hsublist

theorem filterMap_key_asks (call : Nat) (id : RequestId) (rs : List Requested) :
    (asks call id rs).filterMap Op.key = [] := by
  induction rs generalizing call id with
  | nil => rfl
  | cons requested rs ih => exact ih (call + 1) (id + 1)

theorem Inv.next (hs : Inv wires flags session symbols s []) (htodo : s.todo = [])
    {uninitialized : Outputs} {now : Option UInt64}
    (hnext : next wires flags session s uninitialized now = some s') :
    Inv wires flags session symbols s' [] := by
  obtain ⟨done, hsplit, hsublist⟩ := hs.inOrder
  unfold DataSubscription.next at hnext
  split at hnext
  · cases hnext
  · rename_i key keys hkeys
    have hopen : ∃ done', symbols.splitOn ',' = done' ++ keys ∧
        (subscribedKeys s.subscriptions ++ ([key] ++ s.todo.filterMap Op.key)).Sublist done' := by
      refine ⟨done ++ [key], ?_, ?_⟩
      · rw [hsplit, hkeys, List.append_assoc]
        rfl
      · rw [htodo] at hsublist ⊢
        simpa using hsublist.append (List.Sublist.refl [key])
    have hended : Inv wires flags session symbols { s with keys := keys, running := false } [key] :=
      { hs with inOrder := hopen }
    have hskipped : Inv wires flags session symbols
        { s with keys := keys, request := s.request + 1 } [key] :=
      { hs with inOrder := hopen }
    dsimp only at hnext
    split at hnext
    · rename_i contract hfind
      obtain rfl := Option.some.inj hnext
      exact hskipped.subscribe hfind Bool.noConfusion now none
    · split at hnext
      · obtain rfl := Option.some.inj hnext
        exact hended.close
      · obtain rfl := Option.some.inj hnext
        exact hskipped.close
      · split at hnext
        · obtain rfl := Option.some.inj hnext
          exact hended.close
        · obtain rfl := Option.some.inj hnext
          refine { hs with inOrder := ?_ }
          rw [htodo] at hopen
          simpa [List.filterMap_append, filterMap_key_asks, Op.key] using hopen

/-- What is left to do for a key changes the contract manager only until the key is looked
up. -/
theorem Inv.manager (hs : Inv wires flags session symbols s [])
    {action : ContractManager.Action} {manager : ContractManager.State}
    (hmanager : ContractManager.step s.manager action = some manager) {todo : List Op}
    (htodo : s.todo.filterMap Op.key = todo.filterMap Op.key) :
    Inv wires flags session symbols { s with manager := manager, todo := todo } [] where
  stored := stored_of_step hs.stored hmanager
  firehose := hs.firehose
  known p hp := (hs.known p hp).of_step hmanager
  wanted := hs.wanted
  forwarded := hs.forwarded
  inOrder := by
    obtain ⟨done, hkeys, hsublist⟩ := hs.inOrder
    rw [htodo] at hsublist
    exact ⟨done, hkeys, hsublist⟩
  follows := hs.follows

theorem Inv.perform (hs : Inv wires flags session symbols s []) {sent : Bool}
    {now depthNow : Option UInt64}
    (hperform : perform wires flags session s sent now depthNow = some s') :
    Inv wires flags session symbols s' [] := by
  unfold DataSubscription.perform at hperform
  split at hperform
  · cases hperform
  · rename_i call id requested todo htodo
    obtain ⟨manager, hmanager, rfl⟩ := Option.map_eq_some_iff.mp hperform
    exact hs.manager hmanager (by rw [htodo]; rfl)
  · rename_i call todo htodo
    obtain ⟨manager, hmanager, rfl⟩ := Option.map_eq_some_iff.mp hperform
    exact hs.manager hmanager (by rw [htodo]; rfl)
  · rename_i call key todo htodo
    have hopen : Inv wires flags session symbols { s with todo := todo } [key] := by
      obtain ⟨done, hkeys, hsublist⟩ := hs.inOrder
      rw [htodo] at hsublist
      exact { hs with inOrder := ⟨done, hkeys, hsublist⟩ }
    dsimp only at hperform
    split_ifs at hperform
    · split at hperform
      · rename_i contract hfind
        obtain rfl := Option.some.inj hperform
        exact hopen.subscribe hfind id now depthNow
      · obtain rfl := Option.some.inj hperform
        exact hopen.close
    · obtain rfl := Option.some.inj hperform
      exact hopen.close

theorem inv_of_step (hs : Inv wires flags session symbols s []) {action : Action}
    (hstep : step wires flags session s action = some s') :
    Inv wires flags session symbols s' [] := by
  cases action with
  | next uninitialized now =>
      simp only [step] at hstep
      split_ifs at hstep with hready
      rw [Bool.and_eq_true, List.isEmpty_iff] at hready
      exact hs.next hready.2 hstep
  | perform sent now depthNow => exact hs.perform hstep
  | handleContractDetailsResponse message =>
      obtain ⟨manager, hmanager, rfl⟩ := Option.map_eq_some_iff.mp hstep
      exact hs.manager hmanager rfl
  | handleContractDetailsEnd message =>
      obtain ⟨manager, hmanager, rfl⟩ := Option.map_eq_some_iff.mp hstep
      exact hs.manager hmanager rfl
  | firehose action =>
      obtain ⟨firehose, hfirehose, rfl⟩ := Option.map_eq_some_iff.mp hstep
      obtain ⟨taken, hinv⟩ := hs.firehose
      refine { hs with
        firehose := Firehose.inv_of_step hinv hfirehose, forwarded := hs.forwarded.trans ?_ }
      exact ((Firehose.sent_isPrefix_of_step hfirehose session).map _).sublist

theorem inv_of_run {actions : List Action}
    (hrun : Runs.run (step wires flags session) (init symbols) actions = some s) :
    Inv wires flags session symbols s [] :=
  Runs.inv_of_run (step wires flags session)
    (fun _ _ _ hs hstep => inv_of_step hs hstep) (inv_init symbols) hrun

end

end Atp.DataSubscription
